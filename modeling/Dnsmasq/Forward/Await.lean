import Dnsmasq.Forward.Client

/-!
One activation of `dnssec_validate` up to the point where the reply is put aside or settled.
-/
namespace Dnsmasq.Forward

open List hiding Chain
open Lib Forwarder Function

variable {cfg : Servers} {s s' t : Forwarder} {P : FrecId → Prop} {f b g : FrecId} {k : ℕ}

/-- `f` was put in front of the records waiting for `b`, and `k` is the key of its stash. -/
structure Attached (s s' : Forwarder) (f b : FrecId) (k : ℕ) : Prop where
  list : s'.frecList = s.frecList
  nextFrec : s'.nextFrec = s.nextFrec
  nextStash : s.nextStash ≤ s'.nextStash
  rest : ∀ g, g ≠ f → g ≠ b → s'.frec g = s.frec g
  waits : (s'.frec f).blockingQuery = some b
  sentto : (s'.frec f).sentto = (s.frec f).sentto
  flags : (s'.frec f).flags = (s.frec f).flags
  dependent_self : (s'.frec f).dependent = (s.frec f).dependent
  next_self : (s'.frec f).nextDependent = (s.frec b).dependent
  stash_self : ∀ a, (s'.frec f).stash = some a → a.key = k ∧ k < s'.nextStash
  active : s'.Active b
  blocking : (s'.frec b).blockingQuery = (s.frec b).blockingQuery
  dependent : (s'.frec b).dependent = some f
  next : (s'.frec b).nextDependent = (s.frec b).nextDependent ∨ ¬s.Active b
  stash : ∀ a, (s'.frec b).stash = some a →
    (s.frec b).stash = some a ∨ a.key = k + 1 ∧ k + 1 < s'.nextStash

/-- `f` waits for nothing, and waiting for `b` makes no circle. -/
structure Attachable (s : Forwarder) (P : FrecId → Prop) (f b : FrecId) (k : ℕ) : Prop where
  active : s.Active f
  inside : ¬P f
  unblocked : s.blockingQuery f = none
  listed : b ∈ s.frecList
  ne : f ≠ b
  acyclic : ∃ l, Chain s.blockingQuery (some b) l ∧ f ∉ l
  keys : ∀ g a, (s.frec g).stash = some a → a.key < k

theorem Attached.blockingQuery_eq (h : Attached s s' f b k) (ha : f ≠ b) :
    s'.blockingQuery = update s.blockingQuery f (some b) := by
  funext g
  by_cases e : g = f
  · subst e
    rw [update_self]
    exact h.waits
  rw [update_of_ne e]
  by_cases e' : g = b
  · subst e'
    exact h.blocking
  · exact congrArg Frec.blockingQuery (h.rest g e e')

theorem Attached.nextDependent_eq (h : Attached s s' f b k) (hg : Graph s P) (hb : ¬P g →
    s.blockingQuery g ≠ none) (hP : ¬P g) (e : g ≠ f) : s'.nextDependent g = s.nextDependent g := by
  by_cases e' : g = b
  · subst e'
    refine h.next.resolve_right fun hact => hb hP ?_
    exact (hg.idle g hP hact).blockingQuery
  · exact congrArg Frec.nextDependent (h.rest g e e')

theorem Attached.stash_cases (h : Attached s s' f b k) {a : Stash}
    (ha : (s'.frec g).stash = some a) : (s.frec g).stash = some a ∨ g = f ∧ a.key = k ∨ g = b ∧
    a.key = k + 1 := by
  by_cases e : g = f
  · subst e
    exact .inr (.inl ⟨rfl, (h.stash_self a ha).1⟩)
  by_cases e' : g = b
  · subst e'
    exact (h.stash a ha).imp id fun hk => .inr ⟨rfl, hk.1⟩
  · rw [h.rest g e e'] at ha
    exact .inl ha

theorem Attached.graph (ht : Attached s s' f b k) (ha : Attachable s P f b k) (h : Graph s P) :
    Graph s' P := by
  have hB := ht.blockingQuery_eq ha.ne
  have hfP := ha.inside
  have hfb : ∀ c, s.blockingQuery f ≠ some c := by simp [ha.unblocked]
  have hchain : ∀ c l, Chain s.nextDependent (s.frec c).dependent l →
      (∀ g, g ∈ l ↔ s.blockingQuery g = some c ∧ ¬P g) →
      Chain s'.nextDependent (s.frec c).dependent l := by
    intro c l hl hmem
    refine hl.congr fun g hg => ?_
    obtain ⟨h1, h2⟩ := (hmem g).mp hg
    refine ht.nextDependent_eq h (fun _ => by simp [h1]) h2 ?_
    rintro rfl
    exact hfb c h1
  refine ⟨fun g hg => ?_, ?_, fun g c hg => ?_, fun g hP hg => ?_, fun c => ?_, ?_, ?_, ?_⟩
  · rw [ht.list] at hg
    rw [ht.rest g (ne_of_mem_of_not_mem (h.mem_of_active ha.active) hg).symm
      (ne_of_mem_of_not_mem ha.listed hg).symm]
    exact h.blank g hg
  · rw [ht.list, ht.nextFrec]
    exact h.fresh
  · rw [hB] at hg
    rw [ht.list]
    by_cases e : g = f
    · subst e
      rw [update_self] at hg
      cases hg
      exact ha.listed
    · rw [update_of_ne e] at hg
      exact h.listed g c hg
  · have e : g ≠ f := by
      rintro rfl
      rw [Active, ht.sentto] at hg
      exact hg ha.active
    have e' : g ≠ b := by
      rintro rfl
      exact hg ht.active
    rw [Active, ht.rest g e e'] at hg
    rw [ht.rest g e e']
    exact h.idle g hP hg
  · obtain ⟨l, hl, hmem⟩ := h.waiting c
    have hl' := hchain c l hl hmem
    by_cases e : c = b
    · subst e
      refine ⟨f :: l, ⟨ht.dependent, ?_⟩, fun g => ?_⟩
      · rw [nextDependent, ht.next_self]
        exact hl'
      rw [hB, mem_cons, hmem]
      by_cases e : g = f
      · subst e
        simp [hfP]
      · simp [e]
    refine ⟨l, ?_, fun g => ?_⟩
    · have hdep : (s'.frec c).dependent = (s.frec c).dependent := by
        by_cases e' : c = f
        · subst e'
          exact ht.dependent_self
        · rw [ht.rest c e' e]
      rw [Dependents, hdep]
      exact hl'
    rw [hB, hmem]
    by_cases e' : g = f
    · subst e'
      simp [ha.unblocked, Ne.symm e]
    · simp [e']
  · rw [hB]
    obtain ⟨l, hl, hfl⟩ := ha.acyclic
    exact acyclic_join h.acyclic hl hfl
  · intro g g' a a' hg hg' hkey
    rcases ht.stash_cases hg with h1 | ⟨rfl, h1⟩ | ⟨rfl, h1⟩ <;>
      rcases ht.stash_cases hg' with h2 | ⟨rfl, h2⟩ | ⟨rfl, h2⟩
    · exact h.stash g g' a a' h1 h2 hkey
    · have := ha.keys g a h1
      omega
    · have := ha.keys g a h1
      omega
    · have := ha.keys g' a' h2
      omega
    · rfl
    · omega
    · have := ha.keys g' a' h2
      omega
    · omega
    · rfl
  intro g a hg
  by_cases e : g = f
  · subst e
    obtain ⟨h1, h2⟩ := ht.stash_self a hg
    omega
  by_cases e' : g = b
  · subst e'
    rcases ht.stash a hg with h1 | ⟨h1, h2⟩
    · exact (h.stashed g a h1).trans_le ht.nextStash
    · omega
  · rw [ht.rest g e e'] at hg
    exact (h.stashed g a hg).trans_le ht.nextStash

/-- The sub-query waited for is one that may be trusted, and so is the record that waits. -/
theorem Attached.sound (ht : Attached s s' f b k) (ha : Attachable s P f b k) (h : Sound cfg s P)
    (hvalid : cfg.dnssecValid = true) (hcd : (s.frec f).flags.checkingDisabled = false)
    (hsub : (s'.frec b).flags.subquery = true) (hcd' : (s'.frec b).flags.checkingDisabled = false)
    (htrust : ∀ server, (s'.frec b).sentto = some server → cfg.doDnssec server = true) :
    Sound cfg s' P := by
  have hactf : s'.Active f := by
    rw [Active, ht.sentto]
    exact ha.active
  refine ⟨ht.graph ha h.graph, fun c hc => ?_, fun g hg => ?_, fun g hg hor => ?_,
    fun g server hg hq => ?_⟩
  · by_cases e : c = f
    · subst e
      rw [ht.flags, ht.dependent_self]
      exact h.staffed c ha.active
    by_cases e' : c = b
    · subst e'
      simp [hsub, ht.dependent]
    · rw [Active, ht.rest c e e'] at hc
      rw [ht.rest c e e']
      exact h.staffed c hc
  · by_cases e : g = f
    · exact e ▸ hactf
    by_cases e' : g = b
    · exact e' ▸ ht.active
    · rw [Active, ht.rest g e e']
      exact h.pending g hg
  · by_cases e : g = f
    · subst e
      rw [ht.flags]
      exact ⟨hvalid, hcd⟩
    by_cases e' : g = b
    · subst e'
      exact ⟨hvalid, hcd'⟩
    rw [Active, ht.rest g e e'] at hg
    rw [blockingQuery, ht.rest g e e'] at hor
    rw [ht.rest g e e']
    exact h.validated g hg hor
  by_cases e : g = f
  · subst e
    rw [ht.sentto] at hg
    rw [ht.flags] at hq
    exact h.trusted g server hg hq
  by_cases e' : g = b
  · subst e'
    exact htrust server hg
  · rw [ht.rest g e e'] at hg hq
    exact h.trusted g server hg hq

theorem joinSubquery_self (hne : f ≠ b) (stash : Stash) (plen : ℕ) :
    (joinSubquery s f b stash plen).frec f = { s.frec f with
      nextDependent := (s.frec b).dependent
      blockingQuery := some b
      stash := some stash
      stashLen := plen } := by
  simp [joinSubquery, hne]

theorem joinSubquery_other (hne : f ≠ b) (stash : Stash) (plen : ℕ) :
    (joinSubquery s f b stash plen).frec b = { s.frec b with dependent := some f } := by
  simp [joinSubquery, Ne.symm hne]

theorem joinSubquery_rest (hf : g ≠ f) (hb : g ≠ b) (stash : Stash) (plen : ℕ) :
    (joinSubquery s f b stash plen).frec g = s.frec g := by
  simp [joinSubquery, hf, hb]

section

variable (hne : f ≠ b) (stash : Stash) (plen : ℕ) (server : ServerId) (need : Need)
  (queryStashed : Bool)
include hne

theorem linkSubquery_self :
    (linkSubquery s f b stash plen server need queryStashed).frec f = { s.frec f with
      nextDependent := none
      blockingQuery := some b
      stash := some stash
      stashLen := plen } := by
  simp [linkSubquery, hne]

theorem linkSubquery_other : (linkSubquery s f b stash plen server need queryStashed).frec b =
      (s.frec f).subqueryOf f server need s.packet
        (if queryStashed then some (Stash.mk s.nextStash s.packet) else none) := by
  simp [linkSubquery, Ne.symm hne]

end

theorem linkSubquery_rest (hf : g ≠ f) (hb : g ≠ b) (stash : Stash) (plen : ℕ) (server : ServerId)
    (need : Need) (queryStashed : Bool) :
    (linkSubquery s f b stash plen server need queryStashed).frec g = s.frec g := by
  simp [linkSubquery, hf, hb]

variable {stash : Stash} {l : List FrecId} {need : Need} {t' : Forwarder}

theorem joinSubquery_attached (hne : f ≠ b) (hkey : stash.key < s.nextStash)
    (hb : s.Active b) (plen : ℕ) : Attached s (joinSubquery s f b stash plen) f b stash.key := by
  have hself := joinSubquery_self (s := s) hne stash plen
  have hother := joinSubquery_other (s := s) hne stash plen
  refine ⟨rfl, rfl, le_rfl, fun g h1 h2 => joinSubquery_rest h1 h2 stash plen, ?_, ?_,
    ?_, ?_, ?_, ?_, ?_, ?_, ?_, ?_, ?_⟩
  · rw [hself]
  · rw [hself]
  · rw [hself]
  · rw [hself]
  · rw [hself]
  · rw [hself]
    rintro a ⟨⟩
    exact ⟨rfl, hkey⟩
  · rw [Active, hother]
    exact hb
  · rw [hother]
  · rw [hother]
  · rw [hother]
    exact .inl rfl
  · rw [hother]
    exact fun a ha => .inl ha

theorem linkSubquery_attached (hne : f ≠ b) (hkey : stash.key + 1 = s.nextStash)
    (hb : ¬s.Active b) (hidle : (s.frec b).Idle) (plen : ℕ) (server : ServerId) (need : Need)
    (queryStashed : Bool) :
    Attached s (linkSubquery s f b stash plen server need queryStashed) f b stash.key := by
  have hself := linkSubquery_self (s := s) hne stash plen server need queryStashed
  have hother := linkSubquery_other (s := s) hne stash plen server need queryStashed
  have hnext : (linkSubquery s f b stash plen server need queryStashed).nextStash =
      s.nextStash + 1 := rfl
  refine ⟨rfl, rfl, by omega,
    fun g h1 h2 => linkSubquery_rest h1 h2 stash plen server need queryStashed, ?_, ?_,
    ?_, ?_, ?_, ?_, ?_, ?_, ?_, .inr hb, ?_⟩
  · rw [hself]
  · rw [hself]
  · rw [hself]
  · rw [hself]
  · rw [hself, hidle.dependent]
  · rw [hself]
    rintro a ⟨⟩
    exact ⟨rfl, by omega⟩
  · rw [Active, hother]
    exact Option.some_ne_none server
  · rw [hother, hidle.blockingQuery]
    rfl
  · rw [hother]
    rfl
  rw [hother]
  intro a ha
  split at ha
  · cases ha
    exact .inr ⟨hkey.symm, by omega⟩
  · cases ha

/-- The class and the work counter are nobody's business but the validator's. -/
structure Touched (s s' : Forwarder) : Prop where
  list : s'.frecList = s.frecList
  nextFrec : s'.nextFrec = s.nextFrec
  nextStash : s.nextStash ≤ s'.nextStash
  blank : ∀ g, g ∉ s.frecList → s'.frec g = s.frec g
  kept : ∀ g, ∃ c n, s'.frec g = { s.frec g with cls := c, workCounter := n }

theorem Touched.refl (s : Forwarder) : Touched s s :=
  ⟨rfl, rfl, le_rfl, fun _ _ => rfl, fun g => ⟨(s.frec g).cls, (s.frec g).workCounter, rfl⟩⟩

theorem Touched.trans (h : Touched s t) (h' : Touched t s') : Touched s s' := by
  refine ⟨h'.list.trans h.list, h'.nextFrec.trans h.nextFrec, h.nextStash.trans h'.nextStash,
    fun g hg => ?_, fun g => ?_⟩
  · rw [h'.blank g (h.list ▸ hg), h.blank g hg]
  · obtain ⟨c, n, h1⟩ := h.kept g
    obtain ⟨c', n', h2⟩ := h'.kept g
    exact ⟨c', n', by rw [h2, h1]⟩

theorem Touched.modify (hf : f ∈ s.frecList) {u : Frec → Frec}
    (hu : ∃ c n, u (s.frec f) = { s.frec f with cls := c, workCounter := n }) :
    Touched s (s.modify f u) := by
  refine ⟨rfl, rfl, le_rfl, fun g hg => ?_, fun g => ?_⟩
  · exact modify_frec_of_ne (ne_of_mem_of_not_mem hf hg).symm
  by_cases e : g = f
  · subst e
    simpa using hu
  · exact ⟨(s.frec g).cls, (s.frec g).workCounter, by rw [modify_frec_of_ne e]⟩

theorem Touched.field (h : Touched s s') {α : Type} (π : Frec → α)
    (hπ : ∀ r c n, π { r with cls := c, workCounter := n } = π r) (g : FrecId) :
    π (s'.frec g) = π (s.frec g) := by
  obtain ⟨c, n, hg⟩ := h.kept g
  rw [hg, hπ]

theorem Touched.sound (ht : Touched s s') (h : Sound cfg s P) : Sound cfg s' P := by
  have hsent := ht.field Frec.sentto fun _ _ _ => rfl
  have hflags := ht.field Frec.flags fun _ _ _ => rfl
  have hdep := ht.field Frec.dependent fun _ _ _ => rfl
  have hB : s'.blockingQuery = s.blockingQuery :=
    funext (ht.field Frec.blockingQuery fun _ _ _ => rfl)
  have hA : ∀ g, s'.Active g ↔ s.Active g := fun g => by rw [Active, Active, hsent]
  refine ⟨h.graph.transport ht.list ht.nextFrec ht.nextStash ht.blank (fun g _ hg =>
    (hA g).not.mp hg) (fun g => ⟨congrFun hB g, hdep g,
      ht.field Frec.nextDependent (fun _ _ _ => rfl) g⟩)
    (fun g a ha => (ht.field Frec.stash (fun _ _ _ => rfl) g) ▸ ha), fun b hb => ?_,
    fun g hg => (hA g).mpr (h.pending g hg), fun g hg hor => ?_, fun g server hg hq => ?_⟩
  · rw [hflags, hdep]
    exact h.staffed b ((hA b).mp hb)
  · rw [hflags, hB] at hor
    rw [hflags]
    exact h.validated g ((hA g).mp hg) hor
  · rw [hsent] at hg
    rw [hflags] at hq
    exact h.trusted g server hg hq

theorem onBlockingChain_eq (forward : FrecId) {p : Option FrecId}
    (hl : Chain s.blockingQuery p l) (hk : l.length ≤ k) :
    onBlockingChain s forward k p = decide (forward ∈ l) := by
  induction l generalizing p k with
  | nil =>
    cases hl
    cases k <;> simp [onBlockingChain]
  | cons a l ih =>
    obtain ⟨rfl, hl⟩ := hl
    cases k with
    | zero => simp at hk
    | succ k =>
      rw [onBlockingChain, ih hl (by simpa using hk)]
      simp [eq_comm]

theorem lookupFrecDnssec_found {target : CString} {cls : ℕ}
    {m : Message} (h : (lookupFrecDnssec s target cls need l m).1 = some g) :
    g ∈ l ∧ s.Active g ∧ (s.frec g).flags.subquery = true := by
  induction l generalizing m with
  | nil => cases h
  | cons a l ih =>
    simp only [lookupFrecDnssec] at h
    split at h
    · rename_i hcand
      split at h
      · cases h
        rw [Bool.and_eq_true] at hcand
        refine ⟨mem_cons_self, Option.isSome_iff_ne_none.mp hcand.1, ?_⟩
        cases need <;> simp_all [FrecFlags.wants, FrecFlags.subquery]
      · exact (ih h).imp_left (mem_cons_of_mem a)
    · exact (ih h).imp_left (mem_cons_of_mem a)

theorem originOf_mem (h : Graph s P) (k : ℕ) (hf : f ∈ s.frecList) :
    originOf s k f ∈ s.frecList := by
  induction k generalizing f with
  | zero => exact hf
  | succ k ih =>
    unfold originOf
    split
    · exact hf
    rename_i d hd
    obtain ⟨l, hl, hmem⟩ := h.waiting f
    rw [Dependents, hd] at hl
    have hdl : d ∈ l := mem_of_head? hl.head?
    exact ih (h.mem_of_blocked ((hmem d).mp hdl).1)

theorem Touched.packet (s : Forwarder) (m : Message) : Touched s { s with packet := m } :=
  ⟨rfl, rfl, le_rfl, fun _ _ => rfl, fun g => ⟨(s.frec g).cls, (s.frec g).workCounter, rfl⟩⟩

theorem startSubquery_cases (h : Graph s P) (hf : f ∈ s.frecList) {now : ℤ} {plen : ℕ}
    {a : Attempt} {ok : Bool} (he : startSubquery cfg now s f plen stash need a = (s', ok)) :
    (ok = false → Touched s s') ∧
    (ok = true → ∃ t t' new server, Touched s t ∧ Taken t t' new ∧ cfg.doDnssec server = true ∧
      t.nextStash = s.nextStash ∧
      s' = linkSubquery t' f new stash plen server need a.queryStashed) := by
  unfold startSubquery at he
  split at he
  · cases he
    exact ⟨fun _ => Touched.refl s, nofun⟩
  rename_i server hserver
  have hdo : cfg.doDnssec server = true := by
    simpa using (Option.filter_eq_some_iff.mp hserver).2
  simp only at he
  have h1 : Touched s { s with packet := generateQuery a (s.frec f).cls need } := Touched.packet s _
  split at he
  · cases he
    exact ⟨fun _ => h1, nofun⟩
  set s1 := { s with packet := generateQuery a (s.frec f).cls need } with hs1
  have hg1 : Graph s1 P :=
    h.transport rfl rfl le_rfl (fun _ _ => rfl) (fun _ _ h => h) (fun _ => ⟨rfl, rfl, rfl⟩)
      fun _ _ h => h
  have horig : originOf s1 s1.frecList.length f ∈ s1.frecList := originOf_mem hg1 _ hf
  have h2 : Touched s1 (s1.modify (originOf s1 s1.frecList.length f) fun r =>
      { r with workCounter := r.workCounter - 1 }) := Touched.modify horig ⟨_, _, rfl⟩
  split at he
  · cases he
    exact ⟨fun _ => h1.trans h2, nofun⟩
  have hg2 := hg1.modify_inert (u := fun r => { r with workCounter := r.workCounter - 1 }) horig
    (fun _ => id) ⟨rfl, rfl, rfl⟩ fun _ => id
  split at he
  · rename_i t hget
    cases he
    rw [(getNewFrec_force hg2 hget).1 rfl]
    exact ⟨fun _ => h1.trans h2, nofun⟩
  rename_i t new hget
  cases he
  exact ⟨nofun, fun _ => ⟨_, t, new, server, h1.trans h2, (getNewFrec_force hg2 hget).2 new rfl,
    hdo, rfl, rfl⟩⟩

/-- How a record may change while it stands outside the lists: it may gain dependents. -/
def Frec.Kin (r r' : Frec) : Prop :=
  ∃ c n d, r' = { r with cls := c, workCounter := n, dependent := d }

theorem Frec.Kin.refl (r : Frec) : r.Kin r := ⟨r.cls, r.workCounter, r.dependent, rfl⟩

theorem Frec.Kin.trans {r₁ r₂ r₃ : Frec} (h : r₁.Kin r₂) (h' : r₂.Kin r₃) : r₁.Kin r₃ := by
  obtain ⟨_, _, _, rfl⟩ := h
  obtain ⟨c, n, d, rfl⟩ := h'
  exact ⟨c, n, d, rfl⟩

theorem Frec.Kin.field {r r' : Frec} (h : r.Kin r') {α : Type} (π : Frec → α)
    (hπ : ∀ r c n d, π { r with cls := c, workCounter := n, dependent := d } = π r) :
    π r' = π r := by
  obtain ⟨c, n, d, rfl⟩ := h
  exact hπ r c n d

theorem Touched.kin (h : Touched s s') (g : FrecId) : (s.frec g).Kin (s'.frec g) := by
  obtain ⟨c, n, hg⟩ := h.kept g
  exact ⟨c, n, (s.frec g).dependent, hg⟩

/-- `f` was put aside, with the packet it came in, to wait for `b`. -/
structure Parked (s s' : Forwarder) (f b : FrecId) (plen : ℕ) : Prop where
  rest : ∀ g, g ≠ f → s.Active g ∨ g ≠ b → (s.frec g).Kin (s'.frec g)
  self : ∃ k next, Frec.Kin { s.frec f with
    nextDependent := next, blockingQuery := some b, stash := some ⟨k, s.packet⟩, stashLen := plen }
    (s'.frec f)
  subquery : (s'.frec b).flags.subquery = true
  new : ¬s.Active b → (s'.frec b).blockingQuery = none
  ne : f ≠ b

/-- A record that is being validated: in use, waiting for nothing, checking enabled. -/
structure Ready (cfg : Servers) (s : Forwarder) (P : FrecId → Prop) (f : FrecId) : Prop where
  active : s.Active f
  inside : ¬P f
  unblocked : s.blockingQuery f = none
  valid : cfg.dnssecValid = true
  checking : (s.frec f).flags.checkingDisabled = false

theorem Touched.ready (ht : Touched s s') (h : Ready cfg s P f) : Ready cfg s' P f := by
  refine ⟨?_, h.inside, ?_, h.valid, ?_⟩
  · rw [Active, ht.field Frec.sentto fun _ _ _ => rfl]
    exact h.active
  · exact (ht.field Frec.blockingQuery (fun _ _ _ => rfl) f).trans h.unblocked
  · rw [ht.field Frec.flags fun _ _ _ => rfl]
    exact h.checking

theorem joinSubquery_sound (h : Sound cfg s P) (hf : Ready cfg s P f) (hb : s.Active b)
    (hsub : (s.frec b).flags.subquery = true)
    (hloop : onBlockingChain s f s.frecList.length (some b) = false)
    (stash : Stash) (hkey : stash.key < s.nextStash)
    (hfresh : ∀ g a, (s.frec g).stash = some a → a.key < stash.key) (plen : ℕ) :
    f ≠ b ∧ Sound cfg (joinSubquery s f b stash plen) P := by
  have hmem := h.graph.mem_of_active hb
  obtain ⟨l, hl⟩ := h.graph.acyclic b
  rw [onBlockingChain_eq f hl (h.graph.blockingChain_length hmem hl),
    decide_eq_false_iff_not] at hloop
  have hne : f ≠ b := by
    rintro rfl
    exact hloop (mem_of_head? hl.head?)
  have hother := joinSubquery_other (s := s) hne stash plen
  refine ⟨hne, (joinSubquery_attached hne hkey hb plen).sound
    ⟨hf.active, hf.inside, hf.unblocked, hmem, hne, ⟨l, hl, hloop⟩,
      hfresh⟩ h hf.valid hf.checking ?_ ?_ ?_⟩
  · rw [hother]
    exact hsub
  · rw [hother]
    exact (h.validated b hb (.inl hsub)).2
  · rw [hother]
    exact fun server hs => h.trusted b server hs hsub

theorem linkSubquery_sound (h : Sound cfg s P) (hf : Ready cfg s P f) (hb : ¬s.Active b)
    (hmem : b ∈ s.frecList) (stash : Stash) (hkey : stash.key + 1 = s.nextStash)
    (hfresh : ∀ g a, (s.frec g).stash = some a → a.key < stash.key) (plen : ℕ) {server : ServerId}
    (hdo : cfg.doDnssec server = true) (need : Need) (queryStashed : Bool) :
    f ≠ b ∧ Sound cfg (linkSubquery s f b stash plen server need queryStashed) P := by
  have hne : f ≠ b := by
    rintro rfl
    exact hb hf.active
  have hidle := h.graph.idle b (fun hp => hb (h.pending b hp)) hb
  have hother := linkSubquery_other (s := s) hne stash plen server need queryStashed
  have hchain : Chain s.blockingQuery (some b) [b] := ⟨rfl, hidle.blockingQuery⟩
  refine ⟨hne, (linkSubquery_attached hne hkey hb hidle plen server need queryStashed).sound
    ⟨hf.active, hf.inside, hf.unblocked, hmem, hne, ⟨[b], hchain, by simpa using hne⟩, hfresh⟩ h
    hf.valid hf.checking ?_ ?_ ?_⟩
  · rw [hother]
    cases need <;> rfl
  · rw [hother]
    exact hf.checking
  · rw [hother]
    rintro server' ⟨⟩
    exact hdo

theorem Parked.join (hne : f ≠ b) (hb : s.Active b) (hsub : (s.frec b).flags.subquery = true)
    (k plen : ℕ) (ht : Touched s t) :
    Parked s (joinSubquery t f b ⟨k, s.packet⟩ plen) f b plen := by
  have hflags := ht.field Frec.flags (fun _ _ _ => rfl) b
  refine ⟨fun g hg _ => ?_, ⟨k, (t.frec b).dependent, ?_⟩, ?_, fun hn => absurd hb hn, hne⟩
  · refine (ht.kin g).trans ?_
    by_cases e : g = b
    · subst e
      rw [joinSubquery_other (Ne.symm hg)]
      exact ⟨_, _, _, rfl⟩
    · rw [joinSubquery_rest hg e]
      exact Frec.Kin.refl _
  · obtain ⟨c, n, hc⟩ := ht.kept f
    rw [joinSubquery_self hne, hc]
    exact ⟨c, n, _, rfl⟩
  · rw [joinSubquery_other hne]
    exact hflags ▸ hsub

theorem Parked.touched (hp : Parked t s' f b k) (ht : Touched s t) (hpacket : t.packet = s.packet) :
    Parked s s' f b k := by
  have hact : ∀ g, t.Active g ↔ s.Active g := fun g => by
    rw [Active, Active, ht.field Frec.sentto fun _ _ _ => rfl]
  obtain ⟨key, next, hself⟩ := hp.self
  obtain ⟨c, n, hc⟩ := ht.kept f
  refine ⟨fun g hg hor => ?_, ⟨key, next, ?_⟩, hp.subquery, fun hn => ?_, hp.ne⟩
  · exact (ht.kin g).trans (hp.rest g hg (hor.imp_left (hact g).mpr))
  · rw [hc, hpacket] at hself
    exact Frec.Kin.trans ⟨c, n, _, rfl⟩ hself
  · exact hp.new (fun h => hn ((hact b).mp h))

theorem Parked.link (hne : f ≠ b) (ht : Touched s t) (ht' : Taken t t' b)
    (k plen : ℕ) (server : ServerId) (need : Need) (queryStashed : Bool) :
    Parked s (linkSubquery t' f b ⟨k, s.packet⟩ plen server need queryStashed) f b plen := by
  have hfree : ¬s.Active b := by
    rw [Active, ← ht.field Frec.sentto fun _ _ _ => rfl]
    exact ht'.free
  refine ⟨fun g hg hor => ?_, ⟨k, none, ?_⟩, ?_, fun _ => ?_, hne⟩
  · have e : g ≠ b := by
      rintro rfl
      exact hor.elim hfree fun h => h rfl
    rw [linkSubquery_rest hg e, ht'.rest g e]
    exact ht.kin g
  · obtain ⟨c, n, hc⟩ := ht.kept f
    rw [linkSubquery_self hne, ht'.rest f hne, hc]
    exact ⟨c, n, _, rfl⟩
  · rw [linkSubquery_other hne]
    cases need <;> rfl
  · rw [linkSubquery_other hne]
    rfl

theorem Taken.ready (ht : Taken t t' b) (hne : f ≠ b) (h : Ready cfg t P f) : Ready cfg t' P f := by
  obtain ⟨h1, h2, h3, h4, h5⟩ := h
  refine ⟨?_, h2, ?_, h4, ?_⟩
  · rwa [Active, ht.rest f hne]
  · rwa [blockingQuery, ht.rest f hne]
  · rwa [ht.rest f hne]

section

variable (h : Sound cfg s P) (hf : Ready cfg s P f) (now : ℤ) (plen : ℕ)
include h hf

theorem awaitKey_spec (need : Need)
    (a : Attempt) : (∀ s', awaitKey cfg now s f plen need a = .waiting s' →
      Sound cfg s' P ∧ ∃ b, Parked s s' f b plen) ∧
    (∀ s' status, awaitKey cfg now s f plen need a = .settled s' status →
      Touched s s' ∧ status = .abandoned) := by
  unfold awaitKey
  split
  · refine ⟨nofun, ?_⟩
    rintro s' status ⟨⟩
    exact ⟨Touched.refl s, rfl⟩
  simp only
  set s1 : Forwarder := { s with nextStash := s.nextStash + 1 } with hs1
  rcases hlook : lookupFrecDnssec s1 a.keyname (s1.frec f).cls need s1.frecList
    s1.packet with ⟨found, m⟩
  set s2 : Forwarder := { s1 with packet := m } with hs2
  have ht : Touched s s2 :=
    ⟨rfl, rfl, Nat.le_succ _, fun _ _ => rfl,
      fun g => ⟨(s.frec g).cls, (s.frec g).workCounter, rfl⟩⟩
  have hsound := ht.sound h
  have hready := ht.ready hf
  have hfresh : ∀ g b, (s2.frec g).stash = some b → b.key < s.nextStash := h.graph.stashed
  cases found with
  | some new =>
    obtain ⟨-, hact, hsub⟩ := lookupFrecDnssec_found (congrArg Prod.fst hlook)
    simp only
    split
    · refine ⟨nofun, ?_⟩
      rintro s' status ⟨⟩
      exact ⟨ht, rfl⟩
    rename_i hloop
    refine ⟨?_, nofun⟩
    rintro s' ⟨⟩
    obtain ⟨hne, hS⟩ := joinSubquery_sound (b := new) hsound hready hact hsub
      (Bool.eq_false_iff.mpr hloop) ⟨s.nextStash, s.packet⟩ (Nat.lt_succ_self _) hfresh plen
    exact ⟨hS, new, Parked.join (s := s) hne hact hsub s.nextStash plen ht⟩
  | none =>
    rcases hstart : startSubquery cfg now s2 f plen ⟨s.nextStash, s.packet⟩ need a with ⟨s', ok⟩
    obtain ⟨hfail, hok⟩ := startSubquery_cases hsound.graph
      (hsound.graph.mem_of_active hready.active) hstart
    cases ok with
    | false =>
      refine ⟨nofun, ?_⟩
      rintro s'' status ⟨⟩
      exact ⟨ht.trans (hfail rfl), rfl⟩
    | true =>
      refine ⟨?_, nofun⟩
      rintro s'' ⟨⟩
      obtain ⟨t, t', new, server, h1, h2, hdo, hstash, rfl⟩ := hok rfl
      have hne : f ≠ new := by
        rintro rfl
        exact h2.free (h1.ready hready).active
      have hfresh' : ∀ g b, (t'.frec g).stash = some b → b.key < s.nextStash := fun g b hb =>
        hfresh g b (by
          rw [← h1.field Frec.stash (fun _ _ _ => rfl) g,
            ← h2.field Frec.stash (fun _ _ => rfl) g, hb])
      obtain ⟨-, hS⟩ := linkSubquery_sound (h2.sound (h1.sound hsound))
        (h2.ready hne (h1.ready hready)) h2.not_active h2.mem ⟨s.nextStash, s.packet⟩
        (by rw [h2.nextStash, hstash]) hfresh' plen hdo need a.queryStashed
      exact ⟨hS, new, Parked.link hne (ht.trans h1) h2 s.nextStash plen server need a.queryStashed⟩

theorem examine_spec (status : Status) (a : Attempt) :
    (∀ s', examine cfg now s f plen status a = .waiting s' →
      Sound cfg s' P ∧ ∃ b, Parked s s' f b plen) ∧
    (∀ s' st, examine cfg now s f plen status a = .settled s' st → Touched s s') := by
  have hv : Touched s (validate s f status a).1 ∧ (validate s f status a).1.packet = s.packet := by
    unfold validate
    simp only
    split
    · exact ⟨Touched.refl s, rfl⟩
    split
    · exact ⟨Touched.refl s, rfl⟩
    · refine ⟨?_, rfl⟩
      exact Touched.modify (u := fun r => { r with cls := a.cls }) (h.graph.mem_of_active hf.active)
        ⟨_, _, rfl⟩
  unfold examine
  rcases hval : validate s f status a with ⟨s1, st1⟩
  rw [hval] at hv
  obtain ⟨ht, hp⟩ := hv
  simp only
  split
  · refine ⟨nofun, ?_⟩
    rintro s' st ⟨⟩
    exact ht
  obtain ⟨hw, hs⟩ := awaitKey_spec (ht.sound h) (ht.ready hf) now plen _ a
  refine ⟨fun s' he => ?_, fun s' st he => ht.trans (hs s' st he).1⟩
  obtain ⟨hS, b, hpark⟩ := hw s' he
  exact ⟨hS, b, hpark.touched ht hp⟩

end

end Dnsmasq.Forward
