import Dnsmasq.Forward.Await

/-!
The recursion of `dnssec_validate`: a settled sub-query hands its verdict to the records that waited
for it.
-/
namespace Dnsmasq.Forward

open List hiding Chain
open Lib Forwarder Function

variable {cfg : Servers} {now : ℤ} {s s' : Forwarder} {P Q : FrecId → Prop} {f g : FrecId}

theorem Sound.congr (h : Sound cfg s P) (hPQ : ∀ f, P f ↔ Q f) : Sound cfg s Q := by
  have : P = Q := funext fun f => propext (hPQ f)
  exact this ▸ h

/-- The record whose blocking query is gone, with its reply back in the buffer. -/
def resumed (s : Forwarder) (f : FrecId) : Forwarder :=
  (s.modify f fun r => { r with blockingQuery := none }).retrieve (s.frec f).stash

theorem resumed_self (s : Forwarder) (f : FrecId) :
    (resumed s f).frec f = { s.frec f with blockingQuery := none } := by
  simp [resumed]

theorem resumed_of_ne (s : Forwarder) (h : g ≠ f) : (resumed s f).frec g = s.frec g := by
  simp [resumed, h]

theorem resumed_nextDependent (s : Forwarder) (f : FrecId) :
    (resumed s f).nextDependent = s.nextDependent := by
  funext g
  by_cases e : g = f
  · subst e
    rw [nextDependent, resumed_self]
    rfl
  · rw [nextDependent, resumed_of_ne s e]
    rfl

section

variable (h : Sound cfg s P)
include h

theorem Sound.resumed (hf : P f) : Sound cfg (resumed s f) (fun g => P g ∧ g ≠ f) ∧
      Ready cfg (Forward.resumed s f) (fun g => P g ∧ g ≠ f) f := by
  have hact := h.pending f hf
  have hval := h.validated f hact (.inr (.inr hf))
  set t := s.modify f fun r => { r with blockingQuery := none } with ht
  have hself : t.frec f = { s.frec f with blockingQuery := none } := modify_frec_self
  have hrest : ∀ g, g ≠ f → t.frec g = s.frec g := fun g hg => modify_frec_of_ne hg
  have hB : t.blockingQuery = update s.blockingQuery f none := modify_blockingQuery
  have hN : t.nextDependent = s.nextDependent := by
    rw [modify_nextDependent]
    exact update_eq_self f s.nextDependent
  have field : ∀ {α : Type} (π : Frec → α), (∀ r, π { r with blockingQuery := none } = π r) →
      ∀ g, π (t.frec g) = π (s.frec g) := by
    intro α π hπ g
    by_cases e : g = f
    · rw [e, hself, hπ]
    · rw [hrest g e]
  have hA : ∀ g, t.Active g ↔ s.Active g := fun g => by
    rw [Active, Active, field Frec.sentto fun _ => rfl]
  have hgraph : Graph t (fun g => P g ∧ g ≠ f) := by
    refine ⟨fun g hg => ?_, h.graph.fresh, fun g c hg => ?_, fun g hP hg => ?_,
      fun c => ?_, ?_, ?_, ?_⟩
    · rw [hrest g (ne_of_mem_of_not_mem (h.graph.mem_of_active hact) hg).symm]
      exact h.graph.blank g hg
    · rw [hB] at hg
      by_cases e : g = f
      · subst e
        simp at hg
      · exact h.graph.listed g c (by simpa [e] using hg)
    · have e : g ≠ f := by
        rintro rfl
        exact hg ((hA g).mpr hact)
      rw [hrest g e]
      exact h.graph.idle g (fun hp => hP ⟨hp, e⟩) ((hA g).not.mp hg)
    · obtain ⟨l, hl, hmem⟩ := h.graph.waiting c
      refine ⟨l, ?_, fun g => ?_⟩
      · rw [Dependents, hN, field Frec.dependent fun _ => rfl]
        exact hl
      rw [hB, hmem]
      by_cases e : g = f
      · subst e
        simp [hf]
      · simp [e]
    · rw [hB]
      exact acyclic_cut h.graph.acyclic f
    · simp only [field Frec.stash fun _ => rfl]
      exact h.graph.stash
    · simp only [field Frec.stash fun _ => rfl]
      exact h.graph.stashed
  have hS : Sound cfg t (fun g => P g ∧ g ≠ f) := by
    refine ⟨hgraph, fun b hb => ?_, fun g hg => (hA g).mpr (h.pending g hg.1), fun g hg hor => ?_,
      fun g server hg hq => ?_⟩
    · rw [field Frec.flags fun _ => rfl, field Frec.dependent fun _ => rfl]
      exact h.staffed b ((hA b).mp hb)
    · rw [field Frec.flags fun _ => rfl] at hor ⊢
      by_cases e : g = f
      · exact e ▸ hval
      · rw [blockingQuery, hrest g e] at hor
        refine h.validated g ((hA g).mp hg) ?_
        exact hor.imp_right (Or.imp_right And.left)
    · rw [field Frec.sentto fun _ => rfl] at hg
      rw [field Frec.flags fun _ => rfl] at hq
      exact h.trusted g server hg hq
  refine ⟨hS.retrieve _, ?_⟩
  have hfrec : (Forward.resumed s f).frec = t.frec := retrieve_frec _
  refine ⟨?_, fun hp => hp.2 rfl, ?_, hval.1, ?_⟩
  · rw [Active, hfrec]
    exact (hA f).mpr hact
  · rw [blockingQuery, hfrec, hself]
  · rw [hfrec, hself]
    exact hval.2

theorem Sound.settle (hf : Ready cfg s P f) :
    Forward.freeFrec s f = s.modify f (Frec.detach ∘ Frec.release) ∧
      Sound cfg (Forward.freeFrec s f) (fun g => (P g ∨ s.blockingQuery g = some f) ∧ g ≠ f) := by
  obtain ⟨heq, hF⟩ := freeFrec_unblocked h.graph (fun c _ => h.staffed c)
    (h.graph.mem_of_active hf.active) hf.unblocked
  have hrest : ∀ g, g ≠ f → (Forward.freeFrec s f).frec g = s.frec g := fun g hg => by
    rw [heq, modify_frec_of_ne hg]
  refine ⟨heq, h.shrink hF.shrinks (hF.graph.congr fun g => by simp) hF.staffed (fun g hg => ?_)
    fun g hg => hg.1.imp_right fun hb => by simp [hb]⟩
  rw [Active, hrest g hg.2]
  by_cases hP : P g
  · exact h.pending g hP
  intro hidle
  have hb := hg.1.resolve_left hP
  have := (h.graph.idle g hP (not_not.mpr hidle)).blockingQuery
  rw [blockingQuery, this] at hb
  cases hb

theorem Sound.sendReply (f : FrecId) (n : ℕ) (status : Status) (a : Attempt) :
    Sound cfg (sendReply cfg s f n status a) P :=
  h.io _ _

theorem Sound.returnReply (hf : Ready cfg s P f) (hdep : (s.frec f).dependent = none)
    (n : ℕ) (status : Status) (a : Attempt) : Sound cfg (returnReply cfg s f n status a) P ∧
      (Forward.returnReply cfg s f n status a).frec =
      (s.modify f (Frec.detach ∘ Frec.release)).frec := by
  have hft : Ready cfg (Forward.sendReply cfg s f n status a) P f :=
    ⟨hf.active, hf.inside, hf.unblocked, hf.valid, hf.checking⟩
  obtain ⟨heq, hS⟩ := (h.sendReply f n status a).settle hft
  refine ⟨hS.congr fun g => ?_, by rw [Forward.returnReply, heq]; rfl⟩
  have h1 : s.blockingQuery g = some f → P g := h.graph.dependents_eq_nil hdep
  have h2 : P g → g ≠ f := fun hp e => hf.inside (e ▸ hp)
  tauto

end

/-- The sub-queries that can still turn up in the walk are in `O`: a sub-query started during
the walk waits for nothing and stays where it is. -/
def Old (s : Forwarder) (P : FrecId → Prop) (O : Finset FrecId) : Prop :=
  ∀ g, s.Active g → (s.frec g).flags.subquery = true → g ∈ O ∨ s.blockingQuery g = none ∧ ¬P g

/-- What the recursion from `w` to `w'` has done, with `P` outside the lists all along. -/
structure Walked (cfg : Servers) (P : FrecId → Prop) (O : Finset FrecId) (w w' : Walk) : Prop where
  sound : Sound cfg w'.state P
  old : ∃ O', O' ⊆ O ∧ Old w'.state P O'
  kin : ∀ p, P p → (w.state.frec p).Kin (w'.state.frec p)

/-- The loop over the records that waited, given what the recursive calls do. The induction is
on the part `l` of the list that is still ahead. -/
theorem validateDependents_walked (validate : Walk → FrecId → ℕ → Option Walk) (bound : ℕ)
    (hvalidate : ∀ w f plen P O, Sound cfg w.state P → Ready cfg w.state P f →
      Old w.state P O → ((w.state.frec f).flags.subquery = true → f ∈ O) → O.card < bound →
      ∃ w', validate w f plen = some w' ∧ Walked cfg P O w w')
    (l : List FrecId) (k : ℕ) (hk : l.length ≤ k) (w : Walk) (next : Option FrecId)
    (O : Finset FrecId) (hO : O.card < bound) (hl : Chain w.state.nextDependent next l)
    (hPl : ∀ g ∈ l, ¬P g) (hs : Sound cfg w.state fun g => P g ∨ g ∈ l)
    (hold : Old w.state (fun g => P g ∨ g ∈ l) O) :
    ∃ w', validateDependents validate k w next = some w' ∧ Walked cfg P O w w' := by
  induction l generalizing k w next O with
  | nil =>
    cases hl
    have hP : (fun g => P g ∨ g ∈ []) = P := funext fun g => by simp
    rw [hP] at hs hold
    exact ⟨w, by cases k <;> rfl, hs, ⟨O, Finset.Subset.refl O, hold⟩, fun p _ => Frec.Kin.refl _⟩
  | cons prev l ih =>
    obtain ⟨rfl, htail⟩ := id hl
    obtain ⟨k, rfl⟩ : ∃ k', k = k' + 1 := ⟨k - 1, by simp at hk; omega⟩
    have hPprev := hPl prev mem_cons_self
    have hP : (fun g => (P g ∨ g ∈ prev :: l) ∧ g ≠ prev) = fun g => P g ∨ g ∈ l := by
      funext g
      have h1 : P g → g ≠ prev := fun hp e => hPprev (e ▸ hp)
      have h2 : g ∈ l → g ≠ prev := fun hm => ne_of_mem_of_not_mem hm hl.not_mem_of_cons
      rw [mem_cons]
      exact propext (by tauto)
    obtain ⟨hs1, hr1⟩ := hs.resumed (.inr mem_cons_self)
    rw [hP] at hs1 hr1
    set s1 := resumed w.state prev with hs1def
    have hprevO : (w.state.frec prev).flags.subquery = true → prev ∈ O := fun hq =>
      (hold prev (hs.pending prev (.inr mem_cons_self)) hq).resolve_right fun h =>
        h.2 (.inr mem_cons_self)
    have hold1 : Old s1 (fun g => P g ∨ g ∈ l) O := by
      intro g hg hq
      by_cases e : g = prev
      · subst e
        rw [resumed_self] at hq
        exact .inl (hprevO hq)
      rw [Active, resumed_of_ne _ e] at hg
      rw [resumed_of_ne _ e] at hq
      rw [blockingQuery, resumed_of_ne _ e]
      exact (hold g hg hq).imp_right fun h =>
        ⟨h.1, fun hor => h.2 (hor.imp_right (mem_cons_of_mem prev))⟩
    obtain ⟨w1, hw1, hwalk⟩ := hvalidate { w with state := s1 } prev
      (w.state.frec prev).stashLen _ O hs1 hr1 hold1
      (fun hq => hprevO (by rwa [resumed_self] at hq)) hO
    obtain ⟨O1, hO1, hold1'⟩ := hwalk.old
    have hchain : Chain w1.state.nextDependent (w.state.nextDependent prev) l := by
      refine htail.congr fun g hg => ?_
      have hnext : w1.state.nextDependent g = s1.nextDependent g :=
        (hwalk.kin g (.inr hg)).field Frec.nextDependent fun _ _ _ _ => rfl
      rw [hnext, resumed_nextDependent]
    obtain ⟨w', hw', hrec⟩ :=
      ih k (by simpa using hk) w1 _ O1 ((Finset.card_le_card hO1).trans_lt hO) hchain
        (fun g hg => hPl g (mem_cons_of_mem prev hg)) hwalk.sound hold1'
    obtain ⟨O', hO', hold'⟩ := hrec.old
    refine ⟨w', ?_, hrec.sound, ⟨O', hO'.trans hO1, hold'⟩, fun p hp => ?_⟩
    · have hw1' : validate { w with state := (w.state.modify prev fun r =>
          { r with blockingQuery := none }).retrieve (w.state.frec prev).stash } prev
          (w.state.frec prev).stashLen = some w1 := hw1
      rw [validateDependents]
      simp only [hw1']
      exact hw'
    have e : p ≠ prev := by
      rintro rfl
      exact hPprev hp
    have h1 : s1.frec p = w.state.frec p := resumed_of_ne _ e
    exact h1 ▸ (hwalk.kin p (.inl hp)).trans (hrec.kin p hp)

variable {O : Finset FrecId}

theorem Old.touched (h : Old s P O) (ht : Touched s s') : Old s' P O := by
  intro g hg hq
  rw [Active, ht.field Frec.sentto fun _ _ _ => rfl] at hg
  rw [ht.field Frec.flags fun _ _ _ => rfl] at hq
  rw [blockingQuery, ht.field Frec.blockingQuery fun _ _ _ => rfl]
  exact h g hg hq

theorem Old.parked {b : FrecId} {plen : ℕ} (h : Old s P O) (hs : Sound cfg s P)
    (hp : Parked s s' f b plen) (hfO : (s.frec f).flags.subquery = true → f ∈ O) : Old s' P O := by
  intro g hg hq
  by_cases e : g = f
  · subst e
    obtain ⟨_, _, hkin⟩ := hp.self
    exact .inl (hfO (hkin.field Frec.flags (fun _ _ _ _ => rfl) ▸ hq))
  by_cases hor : s.Active g ∨ g ≠ b
  · have hkin := hp.rest g e hor
    rw [Active, hkin.field Frec.sentto fun _ _ _ _ => rfl] at hg
    rw [hkin.field Frec.flags fun _ _ _ _ => rfl] at hq
    rw [blockingQuery, hkin.field Frec.blockingQuery fun _ _ _ _ => rfl]
    exact h g hg hq
  -- the sub-query just started
  rw [not_or, not_not] at hor
  obtain ⟨hfree, rfl⟩ := hor
  exact .inr ⟨hp.new hfree, fun hP => hfree (hs.pending g hP)⟩

theorem Old.freed (h : Old s P O)
    (hfrec : s'.frec = (s.modify f (Frec.detach ∘ Frec.release)).frec)
    (hQ : ∀ g, Q g → P g ∨ s.blockingQuery g = some f) : Old s' Q (O.erase f) := by
  intro g hg hq
  have e : g ≠ f := by
    rintro rfl
    rw [Active, hfrec, modify_frec_self] at hg
    exact hg rfl
  have hrest : ∀ g, g ≠ f → s'.frec g = s.frec g := fun g hg => by rw [hfrec, modify_frec_of_ne hg]
  rw [Active, hrest g e] at hg
  rw [hrest g e] at hq
  rw [blockingQuery, hrest g e, Finset.mem_erase]
  refine (h g hg hq).imp (fun hO => ⟨e, hO⟩) fun hn => ⟨hn.1, fun hqg => ?_⟩
  rcases hQ g hqg with hp | hb
  · exact hn.2 hp
  · rw [hn.1] at hb
    cases hb

/-- The induction is on the depth; every level of recursion uses up one sub-query of `O`. -/
theorem dnssecValidate_walked (depth : ℕ) (w : Walk) (f : FrecId) (plen : ℕ) (status : Status)
    (P : FrecId → Prop) (O : Finset FrecId) (hs : Sound cfg w.state P)
    (hf : Ready cfg w.state P f) (hold : Old w.state P O)
    (hfO : (w.state.frec f).flags.subquery = true → f ∈ O) (hO : O.card < depth) :
    ∃ w', dnssecValidate cfg now depth w f plen status = some w' ∧ Walked cfg P O w w' := by
  induction depth generalizing w f plen status P O with
  | zero => exact absurd hO (Nat.not_lt_zero _)
  | succ depth ih =>
    have hunblocked : (w.state.blockingQuery f).isSome = false := by
      rw [hf.unblocked]
      rfl
    obtain ⟨hwait, hsettle⟩ := examine_spec hs hf now plen status (w.attempts.headD default)
    rw [dnssecValidate]
    simp only [hunblocked, Bool.false_eq_true, if_false]
    set a := w.attempts.headD default with ha
    rcases hex : examine cfg now w.state f plen status a with s' | ⟨s', st⟩
    · -- put aside: nothing is freed
      obtain ⟨hs', b, hpark⟩ := hwait s' hex
      simp only
      refine ⟨_, rfl, hs', ⟨O, Finset.Subset.refl O, hold.parked hs hpark hfO⟩, fun p hp => ?_⟩
      exact hpark.rest p (fun e => hf.inside (e ▸ hp)) (.inl (hs.pending p hp))
    have ht := hsettle s' st hex
    have hs' := ht.sound hs
    have hf' := ht.ready hf
    have hold' := hold.touched ht
    have hPf : ∀ p, P p → p ≠ f := fun p hp e => hf.inside (e ▸ hp)
    simp only
    cases hdep : (s'.frec f).dependent with
    | none =>
      simp only
      obtain ⟨hs'', hfrec⟩ := hs'.returnReply hf' hdep plen st a
      refine ⟨_, rfl, hs'', ⟨O.erase f, Finset.erase_subset f O, ?_⟩, fun p hp => ?_⟩
      · exact hold'.freed hfrec fun g hg => .inl hg
      · simp only [hfrec, modify_frec_of_ne (hPf p hp)]
        exact ht.kin p
    | some first =>
      simp only
      -- the records that waited for `f` are worked through, outside the lists
      obtain ⟨heq, hs''⟩ := hs'.settle hf'
      obtain ⟨l, hl, hmem⟩ := hs'.graph.waiting f
      have hfl : f ∉ l := fun hm => by
        have := ((hmem f).mp hm).1
        rw [hf'.unblocked] at this
        cases this
      have hP : (fun g => (P g ∨ s'.blockingQuery g = some f) ∧ g ≠ f) =
          fun g => P g ∨ g ∈ l := by
        funext g
        have h1 := hPf g
        have h2 : g ∈ l → g ≠ f := fun hm => ne_of_mem_of_not_mem hm hfl
        have h3 := hmem g
        exact propext (by tauto)
      rw [hP] at hs''
      have hsub : (w.state.frec f).flags.subquery = true := by
        rw [← ht.field Frec.flags (fun _ _ _ => rfl) f, hs'.staffed f hf'.active, hdep]
        exact Option.some_ne_none first
      have hcard : (O.erase f).card < depth := by
        have := Finset.card_erase_of_mem (hfO hsub)
        have := Finset.card_pos.mpr ⟨f, hfO hsub⟩
        omega
      have hchain : Chain (freeFrec s' f).nextDependent (some first) l := by
        rw [heq, modify_nextDependent]
        rw [Dependents, hdep] at hl
        exact hl.update_of_notMem hfl _
      have hopen : ∀ g, P g ∨ g ∈ l → P g ∨ s'.blockingQuery g = some f :=
        fun g hg => hg.imp_right fun hm => ((hmem g).mp hm).1
      obtain ⟨w', hw', hrec⟩ := validateDependents_walked
        (fun w prev plen => dnssecValidate cfg now depth w prev plen st) depth
        (fun w f plen P O h1 h2 h3 h4 h5 => ih w f plen st P O h1 h2 h3 h4 h5)
        l s'.frecList.length (hs'.graph.dependents_length hl hmem)
        { state := freeFrec s' f, attempts := w.attempts.tail } (some first)
        (O.erase f) hcard hchain (fun g hg => ((hmem g).mp hg).2)
        hs'' (hold'.freed (by rw [heq]) hopen)
      obtain ⟨O', hO', hold''⟩ := hrec.old
      refine ⟨w', hw', hrec.sound, ⟨O', hO'.trans (Finset.erase_subset f O), hold''⟩,
        fun p hp => ?_⟩
      refine (ht.kin p).trans ?_
      have hsame : (freeFrec s' f).frec p = s'.frec p := by rw [heq, modify_frec_of_ne (hPf p hp)]
      exact hsame ▸ hrec.kin p hp

end Dnsmasq.Forward
