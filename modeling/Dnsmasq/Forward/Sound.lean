import Dnsmasq.Forward.Free

/-!
`Sound` adds to the graph what the flags of its records say. Here: freeing and changing single
records, and `get_new_frec`.
-/
namespace Dnsmasq.Forward

open List Lib Forwarder

structure Sound (cfg : Servers) (s : Forwarder) (P : FrecId → Prop) : Prop where
  graph : Graph s P
  staffed : ∀ b, Staffed s b
  pending : ∀ f, P f → s.Active f
  /-- Only what was asked with checking enabled takes part in a validation. -/
  validated : ∀ f, s.Active f →
    (s.frec f).flags.subquery = true ∨ s.blockingQuery f ≠ none ∨ P f →
    cfg.dnssecValid = true ∧ (s.frec f).flags.checkingDisabled = false
  trusted : ∀ f server, (s.frec f).sentto = some server → (s.frec f).flags.subquery = true →
    cfg.doDnssec server = true

abbrev nobody : FrecId → Prop := fun _ => False

/-- Records were freed; those still in use changed at most in the links of their lists. -/
structure Shrinks (s s' : Forwarder) : Prop where
  kept : ∀ g, s'.Active g → (s'.frec g).core = (s.frec g).core

variable {cfg : Servers} {s s' t : Forwarder} {P Q : FrecId → Prop} {f g : FrecId}

theorem Shrinks.refl (s : Forwarder) : Shrinks s s := ⟨fun _ _ => rfl⟩

theorem Shrinks.active (h : Shrinks s s') (hg : s'.Active g) : s.Active g := by
  rwa [Active, ← Frec.sentto_of_core (h.kept g hg)]

theorem Shrinks.trans (h : Shrinks s t) (h' : Shrinks t s') : Shrinks s s' :=
  ⟨fun g hg => (h'.kept g hg).trans (h.kept g (h'.active hg))⟩

theorem Freed.shrinks {F : List FrecId} (h : Freed s s' P f F) : Shrinks s s' := by
  refine ⟨fun g hg => ?_⟩
  by_cases hF : g ∈ F
  · exact absurd hg (h.idle g hF).1
  · exact h.kept g hF

theorem Sound.shrink (h : Sound cfg s P) (hs : Shrinks s s') (hgraph : Graph s' Q)
    (hstaff : ∀ b, Staffed s' b) (hact : ∀ g, Q g → s'.Active g)
    (hQ : ∀ g, Q g → P g ∨ s.blockingQuery g ≠ none) : Sound cfg s' Q := by
  refine ⟨hgraph, hstaff, hact, fun f hf hor => ?_, fun f server hf hsub => ?_⟩
  · have hc := hs.kept f hf
    rw [Frec.flags_of_core hc] at hor ⊢
    refine h.validated f (hs.active hf) ?_
    have hb : s'.blockingQuery f = s.blockingQuery f := Frec.blockingQuery_of_core hc
    rw [hb] at hor
    have := hQ f
    tauto
  · have hc := hs.kept f (by rw [Active, hf]; exact Option.some_ne_none server)
    rw [Frec.flags_of_core hc] at hsub
    exact h.trusted f server (Frec.sentto_of_core hc ▸ hf) hsub

theorem Sound.freeFrec (h : Sound cfg s nobody) (hf : f ∈ s.frecList)
    (hdep : (s.frec f).dependent = none) :
    Sound cfg (freeFrec s f) nobody ∧ Shrinks s (freeFrec s f) ∧ ¬(freeFrec s f).Active f ∧
      (Forward.freeFrec s f).frecList = s.frecList := by
  obtain ⟨F, hF⟩ := freeFrec_freed h.graph (fun c _ => h.staffed c) hf fun p hp => hp.elim
  refine ⟨h.shrink hF.shrinks (hF.graph.congr fun g => ?_) hF.staffed (fun g hg => hg.elim)
    (fun g hg => hg.elim), hF.shrinks, (hF.idle f hF.mem).1, by rw [hF.frame]⟩
  have := h.graph.dependents_eq_nil (f := g) hdep
  tauto

theorem Sound.dependent_eq_none (h : Sound cfg s P) (h' : Sound cfg s' nobody) (hs : Shrinks s s')
    (hg : (s.frec g).dependent = none) : (s'.frec g).dependent = none := by
  by_cases hact : s'.Active g
  · have h1 := h.staffed g (hs.active hact)
    have h2 := h'.staffed g hact
    rw [Frec.flags_of_core (hs.kept g hact)] at h2
    by_contra hne
    exact (h1.mp (h2.mpr hne)) hg
  · exact (h'.graph.idle g id hact).dependent

variable {u : Frec → Frec} {now : ℤ} {master : ServerId} {memory : Bool}
  {o : Option FrecId} {acc : Scan}

theorem Sound.modify_inert (h : Sound cfg s P) (hf : f ∈ s.frecList)
    (hact : (u (s.frec f)).sentto = none → (s.frec f).sentto = none)
    (hlinks : (u (s.frec f)).blockingQuery = (s.frec f).blockingQuery ∧
      (u (s.frec f)).dependent = (s.frec f).dependent ∧
      (u (s.frec f)).nextDependent = (s.frec f).nextDependent ∧
      (u (s.frec f)).stash = (s.frec f).stash)
    (hstaff : (s.frec f).sentto ≠ none → (u (s.frec f)).flags.subquery = (s.frec f).flags.subquery ∧
      (u (s.frec f)).flags.checkingDisabled = (s.frec f).flags.checkingDisabled)
    (hnew : (s.frec f).sentto = none → (u (s.frec f)).flags.subquery = false)
    (htrust : ∀ server, (u (s.frec f)).sentto = some server → (s.frec f).flags.subquery = true →
      (s.frec f).sentto ≠ none → cfg.doDnssec server = true) : Sound cfg (s.modify f u) P := by
  have hnoP : (s.frec f).sentto = none → ¬P f := fun hn hp => h.pending f hp hn
  refine ⟨h.graph.modify_inert hf (fun _ => hact) ⟨hlinks.1, hlinks.2.1, hlinks.2.2.1⟩
    (fun a ha => hlinks.2.2.2 ▸ ha), fun b hb => ?_, fun g hg => ?_, fun g hg hor => ?_,
    fun g server hg hsub => ?_⟩
  · by_cases e : b = f
    · subst e
      rw [modify_frec_self, hlinks.2.1]
      by_cases ho : (s.frec b).sentto = none
      · rw [hnew ho, (h.graph.idle b (hnoP ho) (not_not.mpr ho)).dependent]
        simp
      · rw [(hstaff ho).1]
        exact h.staffed b ho
    · rw [Active, modify_frec_of_ne e] at hb
      rw [modify_frec_of_ne e]
      exact h.staffed b hb
  · have := h.pending g hg
    by_cases e : g = f
    · subst e
      rw [Active, modify_frec_self]
      exact fun hn => this (hact hn)
    · rwa [Active, modify_frec_of_ne e]
  · by_cases e : g = f
    · subst e
      simp only [blockingQuery, modify_frec_self, hlinks.1] at hor ⊢
      by_cases ho : (s.frec g).sentto = none
      · have hidle := h.graph.idle g (hnoP ho) (not_not.mpr ho)
        rw [hidle.blockingQuery] at hor
        simp_all
      · rw [(hstaff ho).1] at hor
        rw [(hstaff ho).2]
        exact h.validated g ho hor
    rw [Active, modify_frec_of_ne e] at hg
    rw [blockingQuery, modify_frec_of_ne e] at hor
    rw [modify_frec_of_ne e]
    exact h.validated g hg hor
  by_cases e : g = f
  · subst e
    rw [modify_frec_self] at hg hsub
    by_cases ho : (s.frec g).sentto = none
    · rw [hnew ho] at hsub
      cases hsub
    · exact htrust server hg ((hstaff ho).1 ▸ hsub) ho
  · rw [modify_frec_of_ne e] at hg hsub
    exact h.trusted g server hg hsub

/-- `s'` is `s` with the free record `f` picked out of the table, or added to it. -/
structure Taken (s s' : Forwarder) (f : FrecId) : Prop where
  free : ¬s.Active f
  self : ∃ now, s'.frec f = { s.frec f with time := now }
  rest : ∀ g, g ≠ f → s'.frec g = s.frec g
  mem : f ∈ s'.frecList
  list : ∀ g, g ≠ f → (g ∈ s'.frecList ↔ g ∈ s.frecList)
  length : s.frecList.length ≤ s'.frecList.length
  fresh : ∀ g ∈ s'.frecList, g < s'.nextFrec
  nextStash : s'.nextStash = s.nextStash

theorem Taken.not_active (h : Taken s s' f) : ¬s'.Active f := by
  obtain ⟨now, hself⟩ := h.self
  rw [Active, hself]
  exact h.free

theorem Taken.shrinks (h : Taken s s' f) : Shrinks s s' := by
  refine ⟨fun g hg => ?_⟩
  have e : g ≠ f := by
    rintro rfl
    exact h.not_active hg
  rw [h.rest g e]

theorem Taken.field (h : Taken s s' f) {α : Type} (π : Frec → α)
    (hπ : ∀ r now, π { r with time := now } = π r) (g : FrecId) : π (s'.frec g) = π (s.frec g) := by
  by_cases e : g = f
  · obtain ⟨now, hself⟩ := h.self
    rw [e, hself, hπ]
  · rw [h.rest g e]

theorem Taken.graph (ht : Taken s s' f) (h : Graph s P) : Graph s' P := by
  have field := @Taken.field s s' f ht
  have hB : s'.blockingQuery = s.blockingQuery := funext (field Frec.blockingQuery fun _ _ => rfl)
  have hN : s'.nextDependent = s.nextDependent := funext (field Frec.nextDependent fun _ _ => rfl)
  have hD := field Frec.dependent fun _ _ => rfl
  have hS := field Frec.stash fun _ _ => rfl
  refine ⟨fun g hg => ?_, ht.fresh, fun g b hg => ?_, fun g hP hg => ?_, fun b => ?_,
    hB ▸ h.acyclic, ?_, ?_⟩
  · have e : g ≠ f := by
      rintro rfl
      exact hg ht.mem
    rw [ht.rest g e]
    exact h.blank g fun hm => hg ((ht.list g e).mpr hm)
  · rw [hB] at hg
    have hb := h.listed g b hg
    by_cases e : b = f
    · exact e ▸ ht.mem
    · exact (ht.list b e).mpr hb
  · rw [Active, field Frec.sentto fun _ _ => rfl] at hg
    obtain ⟨h1, h2, h3⟩ := h.idle g hP hg
    exact ⟨(congrFun hB g).trans h1, (hD g).trans h2, (hS g).trans h3⟩
  · simp only [Dependents, hB, hN, hD]
    exact h.waiting b
  · simp only [hS]
    exact h.stash
  · simp only [hS, ht.nextStash]
    exact h.stashed

theorem Taken.sound (ht : Taken s s' f) (h : Sound cfg s P) : Sound cfg s' P := by
  have hrest : ∀ g, s'.Active g → s'.frec g = s.frec g := fun g hg => ht.rest g fun e =>
    ht.not_active (e ▸ hg)
  have hback : ∀ g, s.Active g → s'.Active g := fun g hg => by
    rwa [Active, ht.rest g fun e => ht.free (e ▸ hg)]
  refine h.shrink ht.shrinks (ht.graph h.graph) (fun b hb => ?_)
    (fun g hg => hback g (h.pending g hg)) fun g hg => .inl hg
  rw [hrest b hb]
  exact h.staffed b (ht.shrinks.active hb)

theorem Scan.visit_eq (cfg : Servers) (now : ℤ) (master : ServerId) (force : Bool) (acc : Scan)
    (f : FrecId) : ∃ n, Scan.visit cfg now master force acc f =
    { acc.collect now force f with count := n } := by
  unfold Scan.visit Scan.tally
  simp only
  split
  · split
    · exact ⟨_, rfl⟩
    · exact ⟨_, rfl⟩
  · exact ⟨_, rfl⟩

theorem Scan.collect_force (acc : Scan) (now : ℤ) (f : FrecId) (hs : acc.state = s) :
    acc.collect now true f = if ¬s.Active f then { acc with target := some f } else acc := by
  simp [Scan.collect, hs, Active]

section

variable (cfg : Servers) (now : ℤ) (master : ServerId) (l : List FrecId)

theorem visit_force (hl : l ⊆ s.frecList) (acc : Scan) (hs : acc.state = s) (ho : acc.oldest = none)
    (ht : ∀ f, acc.target = some f → ¬s.Active f ∧ f ∈ s.frecList) :
    (l.foldl (Scan.visit cfg now master true) acc).state = s ∧
    (l.foldl (Scan.visit cfg now master true) acc).oldest = none ∧
    ∀ f, (l.foldl (Scan.visit cfg now master true) acc).target = some f →
      ¬s.Active f ∧ f ∈ s.frecList := by
  induction l generalizing acc with
  | nil => exact ⟨hs, ho, ht⟩
  | cons a l ih =>
    rw [foldl_cons]
    obtain ⟨n, hn⟩ := Scan.visit_eq cfg now master true acc a
    rw [hn, acc.collect_force now a hs]
    refine ih (fun x hx => hl (mem_cons_of_mem a hx)) _ ?_ ?_ ?_
    · split <;> exact hs
    · split <;> exact ho
    split
    · rename_i hna
      intro f hf
      cases hf
      exact ⟨hna, hl mem_cons_self⟩
    · exact ht

end

theorem Taken.of_listed (h : Graph s P) (hf : f ∈ s.frecList) (hfree : ¬s.Active f) (now : ℤ) :
    Taken s (s.modify f fun r => { r with time := now }) f :=
  ⟨hfree, ⟨now, modify_frec_self⟩, fun _ hg => modify_frec_of_ne hg, hf, fun _ _ => Iff.rfl, le_rfl,
    h.fresh, rfl⟩

theorem Taken.allocate (h : Graph s P) (now : ℤ) :
    Taken s (s.allocate.modify s.nextFrec fun r => { r with time := now }) s.nextFrec := by
  have hnot : s.nextFrec ∉ s.frecList := fun hm => (h.fresh _ hm).false
  refine ⟨?_, ⟨now, modify_frec_self⟩, fun _ hg => modify_frec_of_ne hg, mem_cons_self,
    fun g hg => ?_, Nat.le_succ _, fun g hg => ?_, rfl⟩
  · rw [Active, h.blank _ hnot]
    exact not_not.mpr rfl
  · exact mem_cons.trans (or_iff_right hg)
  · rcases mem_cons.mp hg with rfl | hg
    · exact Nat.lt_succ_self _
    · exact (h.fresh g hg).trans (Nat.lt_succ_self _)

theorem getNewFrec_force (h : Graph s P) (he : getNewFrec cfg s now master true memory = (s', o)) :
    (o = none → s' = s) ∧ ∀ f, o = some f → Taken s s' f := by
  obtain ⟨hs, ho, ht⟩ := visit_force cfg now master s.frecList (List.Subset.refl _)
    { state := s } rfl rfl nofun
  simp only [getNewFrec, Bool.true_eq_false, false_and, if_false, Scan.evict, ho] at he
  cases hT : (s.frecList.foldl (Scan.visit cfg now master true) { state := s }).target with
  | none =>
    simp only [hT, hs] at he
    split at he
    · cases he
      exact ⟨nofun, fun f hf => by cases hf; exact Taken.allocate h now⟩
    · cases he
      exact ⟨fun _ => rfl, nofun⟩
  | some f =>
    simp only [hT, hs] at he
    cases he
    refine ⟨nofun, fun f' hf => ?_⟩
    cases hf
    exact Taken.of_listed h (ht f hT).2 (ht f hT).1 now

structure Scan.Ok (cfg : Servers) (s : Forwarder) (acc : Scan) : Prop where
  sound : Sound cfg acc.state nobody
  shrinks : Shrinks s acc.state
  list : acc.state.frecList = s.frecList
  target : ∀ f, acc.target = some f → ¬acc.state.Active f ∧ f ∈ s.frecList
  oldest : ∀ f, acc.oldest = some f → (acc.state.frec f).dependent = none ∧ f ∈ s.frecList

theorem Scan.Ok.free (h : acc.Ok cfg s) (hf : f ∈ s.frecList)
    (hdep : (acc.state.frec f).dependent = none) :
    Scan.Ok cfg s { acc with state := freeFrec acc.state f, target := some f } := by
  obtain ⟨h1, h2, h3, h4⟩ := h.sound.freeFrec (f := f) (h.list ▸ hf) hdep
  refine ⟨h1, h.shrinks.trans h2, h4.trans h.list, fun g hg => ?_, fun g hg => ?_⟩
  · cases hg
    exact ⟨h3, hf⟩
  · exact ⟨h.sound.dependent_eq_none h1 h2 (h.oldest g hg).1, (h.oldest g hg).2⟩

theorem Scan.Ok.collect (h : acc.Ok cfg s) (now : ℤ) (hf : f ∈ s.frecList) :
    (acc.collect now false f).Ok cfg s := by
  unfold Scan.collect
  simp only
  split
  · rename_i hfree
    refine ⟨h.sound, h.shrinks, h.list, fun g hg => ?_, h.oldest⟩
    cases hg
    exact ⟨not_not.mpr hfree, hf⟩
  split
  · rename_i hdep
    split
    · exact h.free hf hdep.1
    split
    · refine ⟨h.sound, h.shrinks, h.list, h.target, fun g hg => ?_⟩
      cases hg
      exact ⟨hdep.1, hf⟩
    · exact h
  · exact h

theorem Scan.Ok.visits (now : ℤ) (master : ServerId) (l : List FrecId) (hl : l ⊆ s.frecList)
    (acc : Scan) (h : acc.Ok cfg s) : (l.foldl (Scan.visit cfg now master false) acc).Ok cfg s := by
  induction l generalizing acc with
  | nil => exact h
  | cons a l ih =>
    obtain ⟨n, hn⟩ := Scan.visit_eq cfg now master false acc a
    have hc := h.collect now (hl mem_cons_self)
    refine ih (fun x hx => hl (mem_cons_of_mem a hx)) _ ?_
    rw [hn]
    exact ⟨hc.sound, hc.shrinks, hc.list, hc.target, hc.oldest⟩

theorem Scan.Ok.evict (h : acc.Ok cfg s) (now : ℤ) : (acc.evict now).Ok cfg s := by
  unfold Scan.evict
  split
  · rename_i o _ ho
    split
    · exact h.free (h.oldest o ho).2 (h.oldest o ho).1
    · exact h
  · exact h

theorem getNewFrec_collect (h : Sound cfg s nobody)
    (he : getNewFrec cfg s now master false memory = (s', o)) :
    ∃ t, Sound cfg t nobody ∧ Shrinks s t ∧ (o = none → s' = t) ∧ ∀ f, o = some f →
      Taken t s' f := by
  have hscan := Scan.Ok.visits now master s.frecList (List.Subset.refl _)
    { state := s } ⟨h, Shrinks.refl s, rfl, nofun, nofun⟩
  simp only [getNewFrec] at he
  split at he
  · cases he
    exact ⟨_, hscan.sound, hscan.shrinks, fun _ => rfl, nofun⟩
  have hev := hscan.evict now
  refine ⟨_, hev.sound, hev.shrinks, ?_⟩
  split at he
  · rename_i f hf
    cases he
    obtain ⟨hfree, hmem⟩ := hev.target f hf
    refine ⟨nofun, fun f' hf' => ?_⟩
    cases hf'
    exact Taken.of_listed hev.sound.graph (by rw [hev.list]; exact hmem) hfree now
  split at he
  · cases he
    exact ⟨nofun, fun f hf => by cases hf; exact Taken.allocate hev.sound.graph now⟩
  · cases he
    exact ⟨fun _ => rfl, nofun⟩

end Dnsmasq.Forward
