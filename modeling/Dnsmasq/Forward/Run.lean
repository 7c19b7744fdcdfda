import Dnsmasq.Forward.Walk

/-!
The dependency graph over whole runs. The one step that can break it is `server_gone`, which frees a
sub-query without looking at who waits for it.
-/
namespace Dnsmasq.Forward

open List Option Lib Forwarder

/-- The pointers between records agree with each other. -/
structure DependencyGraph (s : Forwarder) : Prop where
  once : ∀ b, ∃ l, s.Dependents b l ∧ ∀ f, s.blockingQuery f = some b ↔ l.count f = 1
  active : ∀ f b, s.blockingQuery f = some b → s.Active b
  dependent : ∀ f, s.Active f → (s.frec f).flags.subquery = true → (s.frec f).dependent ≠ none
  stash : ∀ f g a b, s.Active f → s.Active g → (s.frec f).stash = some a →
    (s.frec g).stash = some b → a.key = b.key → f = g

variable {cfg : Servers} {s s' : Forwarder} {P : FrecId → Prop} {f g : FrecId} {server : ServerId}

theorem Sound.dependencyGraph (h : Sound cfg s nobody) : DependencyGraph s := by
  refine ⟨fun b => ?_, fun f b hf => ?_, fun f hf hq => (h.staffed f hf).mp hq,
    fun f g a b _ _ => h.graph.stash f g a b⟩
  · obtain ⟨l, hl, hmem⟩ := h.graph.waiting b
    refine ⟨l, hl, fun f => ⟨fun hf => ?_, fun hf => ?_⟩⟩
    · exact count_eq_one_of_mem hl.nodup ((hmem f).mpr ⟨hf, id⟩)
    · exact ((hmem f).mp (count_pos_iff.mp (by omega))).1
  · by_contra hact
    exact h.graph.dependents_eq_nil (h.graph.idle b id hact).dependent hf

/-- The paths a packet from upstream can take, from the state with the packet in the buffer. -/
inductive ReplyPath (cfg : Servers) (s : Forwarder) (ans : Answer) : Option Walk → Prop
  | dropped : ReplyPath cfg s ans (some ⟨s, []⟩)
  | retried (f : FrecId) (m : Message) : ReplyPath cfg s ans
      (some ⟨retryQuery cfg { s with packet := m } f true true ans.out, []⟩)
  | counted (f : FrecId) (m : Message) (n : ℕ) : s.Active f → ReplyPath cfg s ans
      (some ⟨{ s with packet := m }.modify f fun r => { r with forwardall := n }, []⟩)
  | accepted (f : FrecId) (m : Message) (n : ℕ) (old server : ServerId) :
      (s.frec f).sentto = some old → cfg.group server = cfg.group old → ReplyPath cfg s ans
        (acceptReply cfg ({ s with packet := m }.modify f fun r => { r with forwardall := n })
          f server ans)

theorem modify_forwardall_self (s : Forwarder) (f : FrecId) :
    (s.modify f fun r => { r with forwardall := (s.frec f).forwardall }) = s := by
  have : Function.update s.frec f { s.frec f with forwardall := (s.frec f).forwardall } = s.frec :=
    Function.update_eq_self f s.frec
  rw [Forwarder.modify, this]

theorem countReply_eq (s : Forwarder) (f : FrecId) :
    ∃ n, (countReply s f).1 = s.modify f fun r => { r with forwardall := n } := by
  unfold countReply
  simp only
  split
  · exact ⟨(s.frec f).forwardall, (modify_forwardall_self s f).symm⟩
  · exact ⟨_, rfl⟩

theorem lookupFrec_active {id : ℕ} {onSocket : List FrecId} {hash : List UInt8}
    (h : lookupFrec s id onSocket hash = some f) : s.Active f := by
  have := find?_some h
  simp only [Bool.and_eq_true, decide_eq_true_eq] at this
  exact isSome_iff_ne_none.mp this.1.1.1

theorem recreate_eq (s : Forwarder) (f : FrecId) (ans : Answer) :
    ∃ m, (recreate s f ans).1 = { s with packet := m } := by
  unfold recreate
  simp only
  split
  · refine ⟨(s.retrieve (s.frec f).stash).packet, ?_⟩
    cases (s.frec f).stash <;> rfl
  · exact ⟨_, rfl⟩

theorem handleReply_path {ans : Answer} {old : ServerId} (hold : (s.frec f).sentto = some old)
    (hgroup : cfg.group server = cfg.group old) :
    ReplyPath cfg s ans (handleReply cfg s f server ans) := by
  -- the reply is counted against the copies sent, then accepted
  have rest : ∀ m t b, countReply { s with packet := m } f = (t, b) →
      ReplyPath cfg s ans (if b then some ⟨t, []⟩ else acceptReply cfg t f server ans) := by
    intro m t b hc
    obtain ⟨n, hn⟩ := countReply_eq { s with packet := m } f
    rw [hc] at hn
    subst hn
    cases b with
    | true => exact .counted f m n (by rw [Active, hold]; exact some_ne_none old)
    | false => exact .accepted f m n old server hold hgroup
  unfold handleReply
  split
  · exact .dropped
  by_cases hretry : retryable (s.frec f) s.packet = true
  · simp only [hretry, if_true]
    obtain ⟨m, hm⟩ := recreate_eq s f ans
    rcases hr : recreate s f ans with ⟨t, b⟩
    rw [hr] at hm
    subst hm
    cases b with
    | true => exact .retried f m
    | false =>
      rcases hc : countReply { s with packet := m } f with ⟨t, _ | _⟩
      · exact rest m t false hc
      · exact rest m t true hc
  simp only [hretry, Bool.false_eq_true, if_false]
  rcases hc : countReply s f with ⟨t, _ | _⟩
  · exact rest s.packet t false hc
  · exact rest s.packet t true hc

theorem replyWalk_path (cfg : Servers) (s : Forwarder) (ans : Answer) :
    ReplyPath cfg { s with packet := ans.msg } ans (replyWalk cfg s ans) := by
  unfold replyWalk
  simp only
  split
  · exact .dropped
  split
  · rename_i f server hlook _
    split
    · rename_i hgroup
      obtain ⟨old, hold⟩ := ne_none_iff_exists'.mp (lookupFrec_active hlook)
      rw [hold] at hgroup
      exact handleReply_path hold (by simpa [Servers.samegroup] using hgroup)
    · exact .dropped
  · exact .dropped

/-- The state in which the reply is validated or sent on. -/
def answered (s : Forwarder) (f : FrecId) (server : ServerId) : Forwarder :=
  s.modify f fun r => { r with sentto := some server }

theorem Sound.answered (h : Sound cfg s P) {old : ServerId} (hold : (s.frec f).sentto = some old)
    (hgroup : cfg.group server = cfg.group old) : Sound cfg (answered s f server) P := by
  have hact : s.Active f := by
    rw [Active, hold]
    exact some_ne_none old
  refine h.modify_inert (h.graph.mem_of_active hact) (by rintro ⟨⟩) ⟨rfl, rfl, rfl, rfl⟩
    (fun _ => ⟨rfl, rfl⟩) (fun hn => absurd hn hact) ?_
  rintro server' ⟨⟩ hq -
  rw [cfg.doDnssec_group _ _ hgroup]
  exact h.trusted f old hold hq

theorem Sound.returnReply_original (h : Sound cfg s nobody) (hf : s.Active f)
    (hsub : (s.frec f).flags.subquery = false) (n : ℕ) (status : Status) (a : Attempt) :
    Sound cfg (Forward.returnReply cfg s f n status a) nobody :=
  ((h.sendReply f n status a).freeFrec (h.graph.mem_of_active hf) (h.dependent_of_original hsub)).1

theorem Graph.old (h : Graph s P) : Old s P s.frecList.toFinset := fun _ hg _ =>
  .inl (mem_toFinset.mpr (h.mem_of_active hg))

/-- An accepted reply is ignored as a duplicate, goes straight to the clients, or is validated. -/
theorem Sound.acceptReply (h : Sound cfg s nobody) (ans : Answer) {old : ServerId}
    (hold : (s.frec f).sentto = some old) (hgroup : cfg.group server = cfg.group old) :
    ∃ w, acceptReply cfg s f server ans = some w ∧ Sound cfg w.state nobody := by
  have h1 := h.answered hold hgroup
  set s1 := Forward.answered s f server with hs1
  have hself : s1.frec f = { s.frec f with sentto := some server } := modify_frec_self
  have hact : s1.Active f := by
    rw [Active, hself]
    exact some_ne_none server
  have hdef : Forward.acceptReply cfg s f server ans =
      if cfg.doDnssec server ∧ cfg.dnssecValid ∧ (s1.frec f).flags.checkingDisabled = false then
        dnssecValidate cfg ans.now (s1.frecList.length + 1) ⟨s1, ans.attempts⟩ f ans.msg.len .ok
      else some ⟨Forward.returnReply cfg s1 f ans.msg.len .ok (ans.attempts.headD default), []⟩ :=
    rfl
  rw [hdef]
  split
  · rename_i hval
    by_cases hb : s1.blockingQuery f = none
    · obtain ⟨w, hw, hwalk⟩ := dnssecValidate_walked (s1.frecList.length + 1) ⟨s1, ans.attempts⟩ f
        ans.msg.len .ok nobody s1.frecList.toFinset h1 ⟨hact, id, hb, hval.2.1, hval.2.2⟩
        h1.graph.old (fun _ => mem_toFinset.mpr (h1.graph.mem_of_active hact))
        (Nat.lt_succ_of_le (toFinset_card_le _))
      exact ⟨w, hw, hwalk.sound⟩
    · have : (s1.blockingQuery f).isSome = true := isSome_iff_ne_none.mpr hb
      exact ⟨⟨s1, ans.attempts⟩, by simp [dnssecValidate, this], h1⟩
  rename_i hnot
  have hsub : (s1.frec f).flags.subquery = false := by
    by_contra hne
    have hq : (s1.frec f).flags.subquery = true := by simpa using hne
    obtain ⟨hv, hc⟩ := h1.validated f hact (.inl hq)
    exact hnot ⟨h1.trusted f server (by rw [hself]) hq, hv, hc⟩
  exact ⟨_, rfl, h1.returnReply_original hact hsub _ _ _⟩

theorem Sound.forwardall (h : Sound cfg s P) (hf : s.Active f) (n : ℕ) :
    Sound cfg (s.modify f fun r => { r with forwardall := n }) P :=
  h.modify_inert (h.graph.mem_of_active hf) id ⟨rfl, rfl, rfl, rfl⟩ (fun _ => ⟨rfl, rfl⟩)
    (fun hn => absurd hn hf) fun server hs hq _ => h.trusted f server hs hq

theorem Sound.replyWalk (h : Sound cfg s nobody) (ans : Answer) :
    ∃ w, replyWalk cfg s ans = some w ∧ Sound cfg w.state nobody := by
  have hpath := replyWalk_path cfg s ans
  have h1 := h.packet ans.msg
  generalize { s with packet := ans.msg } = t at hpath h1
  generalize Forward.replyWalk cfg s ans = r at hpath ⊢
  cases hpath with
  | dropped => exact ⟨_, rfl, h1⟩
  | retried f m => exact ⟨_, rfl, (h1.packet m).retryQuery _ _ _⟩
  | counted f m n hf => exact ⟨_, rfl, (h1.packet m).forwardall hf n⟩
  | accepted f m n old server hold hgroup =>
    have hact : { t with packet := m }.Active f := by
      rw [Active, hold]
      exact some_ne_none old
    exact ((h1.packet m).forwardall hact n).acceptReply ans
      (by rw [modify_frec_self]; exact hold) hgroup

/-- Going away together with `server`: sent to it, or a sub-query nobody is left to wait for. -/
inductive Doomed (s : Forwarder) (server : ServerId) : FrecId → Prop
  | sent {f : FrecId} : (s.frec f).sentto = some server → Doomed s server f
  | starved {f : FrecId} : (s.frec f).dependent ≠ none →
      (∀ d, s.blockingQuery d = some f → Doomed s server d) → Doomed s server f

/-- Whatever waits for a sub-query sent to `server` goes away with it. -/
def GoneSafe (s : Forwarder) (server : ServerId) : Prop :=
  ∀ b ∈ s.frecList, (s.frec b).sentto = some server →
    ∀ d ∈ s.frecList, s.blockingQuery d = some b → Doomed s server d

variable {t : Forwarder}

/-- The table in the middle of the loop: `P` waits for records that are already free, and every
record of `P` is doomed. -/
structure Going (s : Forwarder) (server : ServerId) (t : Forwarder) (P : FrecId → Prop) : Prop where
  graph : Graph t P
  staffed : ∀ b, Staffed t b
  list : t.frecList = s.frecList
  shrinks : Shrinks s t
  active : ∀ p, P p → t.Active p
  orphan : ∀ p, P p → ∀ b, t.blockingQuery p = some b → ¬t.Active b ∧ ¬P b
  doomed : ∀ p, P p → Doomed s server p

theorem Going.free (h : Going s server t P) (hsafe : GoneSafe s server) (hf : f ∈ s.frecList)
    (hsent : (t.frec f).sentto = some server) :
    ∃ Q, Going s server (freeFrec t f) Q ∧ ¬(freeFrec t f).Active f ∧ Shrinks t (freeFrec t f) := by
  obtain ⟨F, hF⟩ := freeFrec_freed h.graph (fun c _ => h.staffed c) (f := f) (h.list ▸ hf) h.orphan
  have hshr := hF.shrinks
  have hact : t.Active f := by
    rw [Active, hsent]
    exact some_ne_none server
  have hQact : ∀ p, (P p ∨ t.blockingQuery p = some f) ∧ p ∉ F → (freeFrec t f).Active p := by
    rintro p ⟨hor, hpF⟩
    rw [Active, Frec.sentto_of_core (hF.kept p hpF)]
    by_cases hP : P p
    · exact h.active p hP
    intro hidle
    have hb := hor.resolve_left hP
    have := (h.graph.idle p hP (not_not.mpr hidle)).blockingQuery
    rw [blockingQuery, this] at hb
    cases hb
  refine ⟨_, ⟨hF.graph, hF.staffed, ?_, h.shrinks.trans hshr, hQact, ?_, ?_⟩,
    (hF.idle f hF.mem).1, hshr⟩
  · rw [hF.frame]
    exact h.list
  · rintro p ⟨hor, hpF⟩ b hb
    have hfree : ¬(freeFrec t f).Active b := by
      have hbt : t.blockingQuery p = some b := by
        rw [blockingQuery, ← Frec.blockingQuery_of_core (hF.kept p hpF)]
        exact hb
      by_cases hP : P p
      · exact fun hb' => (h.orphan p hP b hbt).1 (hshr.active hb')
      · rw [hor.resolve_left hP] at hbt
        cases hbt
        exact (hF.idle f hF.mem).1
    exact ⟨hfree, fun hb' => hfree (hQact b hb')⟩
  rintro p ⟨hor, hpF⟩
  by_cases hP : P p
  · exact h.doomed p hP
  have hpt : t.Active p := hshr.active (hQact p ⟨hor, hpF⟩)
  have hcore := h.shrinks.kept p hpt
  refine hsafe f hf ?_ p ?_ ?_
  · rw [← Frec.sentto_of_core (h.shrinks.kept f hact), hsent]
  · rw [← h.list]
    exact h.graph.mem_of_active hpt
  · rw [blockingQuery, ← Frec.blockingQuery_of_core hcore]
    exact hor.resolve_left hP

theorem Going.loop (hsafe : GoneSafe s server) (l : List FrecId) (hl : l ⊆ s.frecList)
    (h : Going s server t P) :
    ∃ Q, Going s server (l.foldl (fun s f => if (s.frec f).sentto = some server then
      freeFrec s f else s) t)
        Q ∧
      Shrinks t (l.foldl (fun s f => if (s.frec f).sentto = some server then
        freeFrec s f else s) t) ∧
      ∀ f ∈ l, ((l.foldl (fun s f => if (s.frec f).sentto = some server then freeFrec s f else s)
        t).frec f).sentto ≠ some server := by
  induction l generalizing t P with
  | nil => exact ⟨P, h, Shrinks.refl t, nofun⟩
  | cons a l ih =>
    rw [foldl_cons]
    have hstep : ∃ u Q, u = (if (t.frec a).sentto = some server then freeFrec t a else t) ∧
        Going s server u Q ∧ Shrinks t u ∧ (u.frec a).sentto ≠ some server := by
      split
      · rename_i hsent
        obtain ⟨Q, hQ, hfree, hshr⟩ := h.free hsafe (hl mem_cons_self) hsent
        refine ⟨_, Q, rfl, hQ, hshr, ?_⟩
        rw [not_not.mp hfree]
        exact nofun
      · rename_i hsent
        exact ⟨t, P, rfl, h, Shrinks.refl t, hsent⟩
    obtain ⟨u, Q, rfl, hQ, hshr, ha⟩ := hstep
    obtain ⟨Q', hQ', hshr', hrest⟩ := ih (fun x hx => hl (mem_cons_of_mem a hx)) hQ
    refine ⟨Q', hQ', hshr.trans hshr', fun f hf => ?_⟩
    rcases mem_cons.mp hf with rfl | hf
    · intro hsent
      have := hshr'.kept f (by rw [Active, hsent]; exact some_ne_none server)
      exact ha (by rw [← Frec.sentto_of_core this, hsent])
    · exact hrest f hf

theorem Going.doomed_gone (hs : Sound cfg s nobody) (h : Going s server t P)
    (hgone : ∀ f ∈ s.frecList, (t.frec f).sentto ≠ some server) (hd : Doomed s server f) :
    ¬t.Active f := by
  induction hd with
  | @sent f hsent =>
    intro hact
    have hcore := h.shrinks.kept f hact
    refine hgone f (h.list ▸ h.graph.mem_of_active hact) ?_
    rw [Frec.sentto_of_core hcore, hsent]
  | @starved f hdep hall ih =>
    intro hact
    have hcore := h.shrinks.kept f hact
    have hsub : (t.frec f).flags.subquery = true := by
      rw [Frec.flags_of_core hcore]
      exact (hs.staffed f (h.shrinks.active hact)).mpr hdep
    obtain ⟨d, hd⟩ := ne_none_iff_exists'.mp ((h.staffed f hact).mp hsub)
    obtain ⟨l, hl, hmem⟩ := h.graph.waiting f
    rw [Dependents, hd] at hl
    obtain ⟨hblock, hP⟩ := (hmem d).mp (mem_of_head? hl.head?)
    have hdact : t.Active d := by
      by_contra hidle
      have := (h.graph.idle d hP hidle).blockingQuery
      rw [blockingQuery, this] at hblock
      cases hblock
    refine ih d ?_ hdact
    rw [blockingQuery, ← Frec.blockingQuery_of_core (h.shrinks.kept d hdact)]
    exact hblock

theorem Sound.serverGone (h : Sound cfg s nobody) (hsafe : GoneSafe s server) :
    Sound cfg (serverGone s server) nobody ∧ Shrinks s (Forward.serverGone s server) := by
  have hstart : Going s server s nobody :=
    ⟨h.graph, h.staffed, rfl, Shrinks.refl s, fun _ hp => hp.elim, fun _ hp => hp.elim,
      fun _ hp => hp.elim⟩
  obtain ⟨Q, hQ, hshr, hgone⟩ := hstart.loop hsafe s.frecList (List.Subset.refl _)
  have hempty : ∀ g, Q g ↔ nobody g := fun g =>
    iff_of_false (fun hg => hQ.doomed_gone h hgone (hQ.doomed g hg) (hQ.active g hg)) id
  exact ⟨h.shrink hshr (hQ.graph.congr hempty) hQ.staffed (fun _ hp => hp.elim) fun _ hp =>
    hp.elim, hshr⟩

/-- A server may only go away when that leaves nobody waiting. -/
def Event.Safe (s : Forwarder) : Event → Prop
  | .serverGone server => GoneSafe s server
  | _ => True

def SafeRun (cfg : Servers) (s : Forwarder) : List Event → Prop
  | [] => True
  | e :: es => e.Safe s ∧ ∀ s', step cfg s e = some s' → SafeRun cfg s' es

theorem Sound.step (h : Sound cfg s nobody) {e : Event} (he : e.Safe s) :
    ∃ s', step cfg s e = some s' ∧ Sound cfg s' nobody := by
  cases e with
  | clientQuery q => exact ⟨_, rfl, h.forwardQuery q⟩
  | upstreamReply ans =>
    obtain ⟨w, hw, hS⟩ := h.replyWalk ans
    exact ⟨w.state, by rw [Forward.step, hw]; rfl, hS⟩
  | serverGone server => exact ⟨_, rfl, (h.serverGone he).1⟩

theorem Sound.run {es : List Event} (h : Sound cfg s nobody) (hes : SafeRun cfg s es) :
    ∃ s', run cfg s es = some s' ∧ Sound cfg s' nobody := by
  induction es generalizing s with
  | nil => exact ⟨s, rfl, h⟩
  | cons e es ih =>
    obtain ⟨t, ht, hS⟩ := h.step hes.1
    obtain ⟨s', hs', hS'⟩ := ih hS (hes.2 t ht)
    exact ⟨s', by rw [Forward.run, ht]; exact hs', hS'⟩

theorem Sound.initial (cfg : Servers) : Sound cfg {} nobody := by
  refine ⟨⟨fun _ _ => rfl, nofun, nofun, fun _ _ _ => Frec.idle_blank,
    fun b => ⟨[], rfl, fun f => ?_⟩, fun f => ⟨[f], rfl, rfl⟩, nofun, nofun⟩,
    fun b hb => absurd rfl hb, fun _ hp => hp.elim, fun f hf => absurd rfl hf, nofun⟩
  exact iff_of_false not_mem_nil nofun

/-- Every event of a safe run is dealt with in finitely many steps, and between events the
dependency graph is in order. -/
theorem run_dependencyGraph (cfg : Servers) (es : List Event) (h : SafeRun cfg {} es) :
    ∃ s, run cfg {} es = some s ∧ DependencyGraph s := by
  obtain ⟨s, hs, hS⟩ := (Sound.initial cfg).run h
  exact ⟨s, hs, hS.dependencyGraph⟩

def twoServers : Servers where
  group _ := 0
  doDnssec _ := true
  doDnssec_group _ _ _ := rfl
  ftabsize := 150
  dnssecValid := true
  strictOrder := false

def signedName : List Question := [⟨[97, 46, 98], 1, 1⟩]

def signedQuery : Event :=
  .clientQuery { now := 100, source := 7, newId := 500, out := { attempts := [(1, true)] }
                 msg := { id := 11, questions := signedName, stub := signedName, head := 21 } }

/-- The answer of server 1 cannot be validated without a DS record, asked of `server`. -/
def needsDs (server : ServerId) : Event :=
  .upstreamReply { now := 101, onSocket := [0], server := some 1
                   msg := { id := 500, questions := signedName, stub := signedName, head := 21,
                            body := 69, response := true }
                   attempts := [{ verdict := .needDs, keyname := [98], server := some server,
                                  queryLen := 30, newId := 501 }] }

/-- Query and sub-query went to the same server and go away together. -/
theorem run_dependencyGraph_oneServer :
    SafeRun twoServers {} [signedQuery, needsDs 1, .serverGone 1] ∧
      ∃ s, run twoServers {} [signedQuery, needsDs 1, .serverGone 1] = some s ∧
        DependencyGraph s := by
  have hsafe : SafeRun twoServers {} [signedQuery, needsDs 1, .serverGone 1] := by
    refine ⟨trivial, fun s hs => ⟨trivial, fun t ht => ⟨?_, fun _ _ => trivial⟩⟩⟩
    have hs' : s = (step twoServers {} signedQuery).getD {} := by rw [hs]; rfl
    have ht' : t = (step twoServers s (needsDs 1)).getD {} := by rw [ht]; rfl
    subst hs'
    have hsent : ∀ b ∈ t.frecList, (t.frec b).sentto = some 1 →
        ∀ d ∈ t.frecList, t.blockingQuery d = some b → (t.frec d).sentto = some 1 := by
      rw [ht']
      decide +kernel
    exact fun b hb h1 d hd h2 => .sent (hsent b hb h1 d hd h2)
  exact ⟨hsafe, run_dependencyGraph twoServers _ hsafe⟩

/-- The sub-query went to another server, which goes away: the query is left waiting for a
record that is free. -/
theorem run_not_dependencyGraph :
    ¬∀ s, run twoServers {} [signedQuery, needsDs 2, .serverGone 2] = some s →
    DependencyGraph s := by
  intro h
  have hrun : ∃ s, run twoServers {} [signedQuery, needsDs 2, .serverGone 2] = some s ∧
      s.blockingQuery 0 = some 1 ∧ ¬s.Active 1 := by
    refine ⟨(run twoServers {} [signedQuery, needsDs 2, .serverGone 2]).getD {}, ?_, ?_, ?_⟩
    · have : (run twoServers {} [signedQuery, needsDs 2, .serverGone 2]).isSome := by decide +kernel
      obtain ⟨s, hs⟩ := isSome_iff_exists.mp this
      rw [hs]
      rfl
    · decide +kernel
    · decide +kernel
  obtain ⟨s, hs, hblock, hfree⟩ := hrun
  exact hfree ((h s hs).active 0 1 hblock)

end Dnsmasq.Forward
