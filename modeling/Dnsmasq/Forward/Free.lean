import Dnsmasq.Forward.Graph

/-!
What `free_frec` and `get_new_frec` do to the graph. Freeing a record frees every sub-query nobody
else waits for.
-/
namespace Dnsmasq.Forward

open List hiding Chain
open Lib Forwarder

/-- A record without the two links that another record's list can change. -/
def Frec.core (r : Frec) : Frec := { r with dependent := none, nextDependent := none }

section

variable {r r' : Frec} (h : r.core = r'.core)
include h

theorem Frec.sentto_of_core : r.sentto = r'.sentto := by
  have := congrArg Frec.sentto h
  exact this

theorem Frec.flags_of_core : r.flags = r'.flags := by
  have := congrArg Frec.flags h
  exact this

theorem Frec.blockingQuery_of_core : r.blockingQuery = r'.blockingQuery := by
  have := congrArg Frec.blockingQuery h
  exact this

end

/-- `free_frec` on `f` freed the records of `F`; `P` stood outside the lists before. -/
structure Freed (s s' : Forwarder) (P : FrecId → Prop) (f : FrecId) (F : List FrecId) : Prop where
  mem : f ∈ F
  frame : s' = { s with frec := s'.frec }
  idle : ∀ g ∈ F, ¬s'.Active g ∧ (s'.frec g).Idle
  kept : ∀ g, g ∉ F → (s'.frec g).core = (s.frec g).core
  staffed : ∀ b, Staffed s' b
  graph : Graph s' (fun g => (P g ∨ s.blockingQuery g = some f) ∧ g ∉ F)

/-- The table before `free_frec` looks at whether the blocking query is still wanted. -/
def unhook (s : Forwarder) (f : FrecId) : Forwarder :=
  let s := s.modify f Frec.release
  match s.blockingQuery f with
  | none => s
  | some b => s.unlinkDependent b f

variable {s s' : Forwarder} {P : FrecId → Prop} {f b g : FrecId}

theorem freeFrecFrom_succ (depth : ℕ) (s : Forwarder) (f : FrecId) : freeFrecFrom (depth + 1) s f =
      (match s.blockingQuery f with
        | none => unhook s f
        | some b =>
          if ((unhook s f).frec b).dependent = none then freeFrecFrom depth (unhook s f) b
          else unhook s f).modify f Frec.detach := by
  have hb : (s.modify f Frec.release).blockingQuery f = s.blockingQuery f := by
    simp [blockingQuery, Frec.release]
  cases hq : s.blockingQuery f <;> simp only [freeFrecFrom, unhook, hb, hq]

section

variable (s : Forwarder)

theorem release_blockingQuery (f : FrecId) :
    (s.modify f Frec.release).blockingQuery = s.blockingQuery := by
  rw [modify_blockingQuery]
  exact Function.update_eq_self f s.blockingQuery

theorem unhook_blockingQuery (f : FrecId) : (unhook s f).blockingQuery = s.blockingQuery := by
  unfold unhook
  simp only
  split
  · exact release_blockingQuery s f
  · rw [unlinkDependent_blockingQuery, release_blockingQuery]

theorem unhook_core_self (f : FrecId) : ((unhook s f).frec f).core = (s.frec f).release.core := by
  unfold unhook
  simp only
  split
  · simp
  · rw [unlinkDependent_frec, modify_frec_self]
    rfl

theorem unhook_core_of_ne (h : g ≠ f) : ((unhook s f).frec g).core = (s.frec g).core := by
  unfold unhook
  simp only
  split
  · simp [h]
  · rw [unlinkDependent_frec, modify_frec_of_ne h]
    rfl

theorem unhook_frame (f : FrecId) : unhook s f = { s with frec := (unhook s f).frec } := by
  unfold unhook
  simp only
  split
  · rfl
  · rw [unlinkDependent_eq]
    rfl

theorem unhook_dependent_of_ne (h : s.blockingQuery f ≠ some g) :
    ((unhook s f).frec g).dependent = (s.frec g).dependent := by
  have hr : ((s.modify f Frec.release).frec g).dependent = (s.frec g).dependent := by
    by_cases e : g = f
    · subst e; simp [Frec.release]
    · simp [e]
  simp only [unhook, release_blockingQuery]
  cases hb : s.blockingQuery f with
  | none => exact hr
  | some b =>
    have hgb : g ≠ b := fun e => h (e ▸ hb)
    simp only [unlinkDependent_dependent_of_ne _ _ hgb, hr]

theorem modify_comm (f g : FrecId) {u v : Frec → Frec}
    (huv : ∀ r, u (v r) = v (u r)) : (s.modify f u).modify g v = (s.modify g v).modify f u := by
  have : ((s.modify f u).modify g v).frec = ((s.modify g v).modify f u).frec := by
    funext x
    by_cases hf : x = f <;> by_cases hg : x = g
    · subst hf; subst hg; simp [huv]
    · subst hf; simp [hg]
    · subst hg; simp [hf]
    · simp [hf, hg]
  exact congrArg (fun fr => { s with frec := fr }) this

theorem unlinkDependent_release (b f : FrecId) :
    (s.modify f Frec.release).unlinkDependent b f =
    (s.unlinkDependent b f).modify f Frec.release := by
  have hn : (s.modify f Frec.release).nextDependent = s.nextDependent := by
    rw [modify_nextDependent]
    exact Function.update_eq_self f s.nextDependent
  have hd : ((s.modify f Frec.release).frec b).dependent = (s.frec b).dependent := by
    by_cases e : b = f
    · subst e; simp [Frec.release]
    · simp [e]
  unfold Forwarder.unlinkDependent
  rw [hn, hd, modify_frecList]
  split
  · rfl
  · exact modify_comm s f b fun _ => rfl
  · exact modify_comm s f _ fun _ => rfl

end

theorem Graph.unhook (h : Graph s P) (hf : f ∈ s.frecList) :
    Graph (unhook s f) (fun g => P g ∨ g = f) := by
  -- releasing a record that already stands outside every list changes no link
  have release : ∀ t : Forwarder, f ∈ t.frecList → Graph t (fun g => P g ∨ g = f) →
      Graph (t.modify f Frec.release) (fun g => P g ∨ g = f) := by
    intro t ht hg
    exact hg.modify_inert ht (fun hn => absurd (Or.inr rfl) hn) ⟨rfl, rfl, rfl⟩
      fun a ha => by simp [Frec.release] at ha
  unfold Forward.unhook
  simp only [release_blockingQuery]
  cases hb : s.blockingQuery f with
  | none =>
    refine release s hf ⟨h.blank, h.fresh, h.listed,
      fun g hP => h.idle g (fun hp => hP (.inl hp)), fun c => ?_, h.acyclic, h.stash, h.stashed⟩
    obtain ⟨l, hl, hmem⟩ := h.waiting c
    refine ⟨l, hl, fun g => ?_⟩
    rw [hmem]
    have : s.blockingQuery g = some c → g ≠ f := by
      rintro hg rfl
      rw [hb] at hg
      cases hg
    tauto
  | some b =>
    simp only
    rw [unlinkDependent_release]
    refine release _ ?_ (h.unlinkDependent hb)
    rw [unlinkDependent_eq]
    exact hf

theorem unhook_active_of_ne (s : Forwarder) (h : g ≠ f) : (unhook s f).Active g ↔ s.Active g := by
  rw [Active, Active, Frec.sentto_of_core (unhook_core_of_ne s h)]

theorem Staffed.unhook (hs : ∀ c, c ≠ f → Staffed s c)
    (hg : s.blockingQuery f ≠ some g ∨ ((unhook s f).frec g).dependent ≠ none) :
    Staffed (unhook s f) g := by
  intro hact
  have e : g ≠ f := by
    rintro rfl
    exact hact (Frec.sentto_of_core (unhook_core_self s g))
  rw [Frec.flags_of_core (unhook_core_of_ne s e), hs g e ((unhook_active_of_ne s e).mp hact)]
  by_cases hb : s.blockingQuery f = some g
  · have hnew := hg.resolve_left (not_not.mpr hb)
    refine iff_of_true (fun hold => hnew ?_) hnew
    have hr : ((s.modify f Frec.release).frec g).dependent = none := by
      rw [modify_frec_of_ne e, hold]
    simp only [Forward.unhook, release_blockingQuery, hb]
    exact unlinkDependent_dependent_eq_none _ _ _ hr
  · rw [unhook_dependent_of_ne s hb]

/-- What is left to do once the blocking query, if it goes too, is freed. -/
theorem Freed.finish {t : Forwarder} {F : List FrecId} (hframe : t = { s with frec := t.frec })
    (hf : f ∈ s.frecList) (hcore : (t.frec f).core = (s.frec f).release.core)
    (hkept : ∀ g, g ≠ f → g ∉ F → (t.frec g).core = (s.frec g).core)
    (hidle : ∀ g ∈ F, ¬t.Active g ∧ (t.frec g).Idle) (hstaff : ∀ g, Staffed t g) (hfF : f ∉ F)
    (hgraph : Graph t (fun g => (P g ∨ g = f) ∧ g ∉ F)) :
    Freed s (t.modify f Frec.detach) P f (f :: F) := by
  have hstash : (t.frec f).stash = none := by
    have := congrArg Frec.stash hcore
    exact this
  have hsent : (t.frec f).sentto = none := Frec.sentto_of_core hcore
  refine ⟨mem_cons_self, ?_, fun g hg => ?_, fun g hg => ?_, fun g hact => ?_, ?_⟩
  · rw [hframe]
    rfl
  · by_cases e : g = f
    · subst e
      rw [Active, modify_frec_self]
      exact ⟨not_not.mpr hsent, rfl, rfl, hstash⟩
    · rw [Active, modify_frec_of_ne e]
      exact hidle g ((mem_cons.mp hg).resolve_left e)
  · rw [mem_cons, not_or] at hg
    rw [modify_frec_of_ne hg.1]
    exact hkept g hg.1 hg.2
  · by_cases e : g = f
    · subst e
      rw [Active, modify_frec_self] at hact
      exact absurd hsent hact
    · rw [Active, modify_frec_of_ne e] at hact
      rw [modify_frec_of_ne e]
      exact hstaff g hact
  have hft : f ∈ t.frecList := by
    rw [hframe]
    exact hf
  refine (hgraph.detach hft ⟨.inr rfl, hfF⟩ hstash).congr fun g => ?_
  have hb : g ≠ f → g ∉ F → t.blockingQuery g = s.blockingQuery g := fun h1 h2 =>
    Frec.blockingQuery_of_core (hkept g h1 h2)
  have hbF : g ∈ F → t.blockingQuery g = none := fun h => (hidle g h).2.blockingQuery
  by_cases e : g = f
  · simp [e]
  · by_cases hgF : g ∈ F
    · simp [e, hgF, hbF hgF]
    · simp [e, hgF, hb e hgF]

theorem Freed.unhook (h : Graph s P) (hf : f ∈ s.frecList) (hs : ∀ g, Staffed (unhook s f) g) :
    Freed s ((Forward.unhook s f).modify f Frec.detach) P f [f] := by
  refine Freed.finish (unhook_frame s f) hf (unhook_core_self s f)
    (fun g hg _ => unhook_core_of_ne s hg) (fun g hg => absurd hg not_mem_nil) hs
    not_mem_nil ((h.unhook hf).congr fun g => ?_)
  simp

theorem Graph.blockingChain_length (h : Graph s P) (hf : f ∈ s.frecList) {l : List FrecId}
    (hl : Chain s.blockingQuery (some f) l) : l.length ≤ s.frecList.length := by
  refine (List.Nodup.subperm hl.nodup fun g hg => ?_).length_le
  cases l with
  | nil => cases hg
  | cons a l =>
    rcases mem_cons.mp hg with rfl | hg
    · cases hl.1
      exact hf
    · obtain ⟨p, hp⟩ := hl.next_of_mem_tail hg
      exact h.listed p g hp

/-- The induction is on the chain of blocking queries, along which the frees cascade. A record
of `P` among them points at a record that is already free. -/
theorem freeFrecFrom_freed (depth : ℕ) {l : List FrecId} (h : Graph s P)
    (hs : ∀ c, c ≠ f → Staffed s c) (hf : f ∈ s.frecList) (hl : Chain s.blockingQuery (some f) l)
    (hlen : l.length ≤ depth)
    (hP : ∀ p ∈ l, P p → ∀ b, s.blockingQuery p = some b → ¬s.Active b ∧ ¬P b) :
    ∃ F ⊆ l, Freed s (freeFrecFrom depth s f) P f F := by
  induction depth generalizing s P f l with
  | zero =>
    rw [length_eq_zero_iff.mp (Nat.le_zero.mp hlen)] at hl
    cases hl
  | succ depth ih =>
    rw [freeFrecFrom_succ]
    cases l with
    | nil => cases hl
    | cons a l =>
    obtain ⟨ha, htail⟩ := id hl
    cases ha
    cases hb : s.blockingQuery f with
    | none =>
      exact ⟨[f], by simp, Freed.unhook h hf fun g => Staffed.unhook hs (.inl (by simp [hb]))⟩
    | some b =>
      rw [hb] at htail
      by_cases hd : ((unhook s f).frec b).dependent = none
      · simp only [hd, if_true]
        have hfl : f ∉ l := hl.not_mem_of_cons
        have hB := unhook_blockingQuery s f
        have hbl : b ∈ (unhook s f).frecList := by
          rw [unhook_frame]
          exact h.listed f b hb
        obtain ⟨F, hFl, hF⟩ := ih (h.unhook hf)
          (fun c hc => Staffed.unhook hs (.inl fun e => hc (Option.some.inj (e.symm.trans hb))))
          hbl (hB ▸ htail) (by simpa using hlen) (by
            intro p hp hPp c hc
            rw [hB] at hc
            have hcl : c ∈ l := htail.next_mem hp hc
            have hpf : p ≠ f := ne_of_mem_of_not_mem hp hfl
            have hcf : c ≠ f := ne_of_mem_of_not_mem hcl hfl
            obtain ⟨h1, h2⟩ := hP p (mem_cons_of_mem f hp) (hPp.resolve_right hpf) c hc
            exact ⟨fun hact => h1 ((unhook_active_of_ne s hcf).mp hact), fun h => h.elim h2 hcf⟩)
        have hfF : f ∉ F := fun hm => hfl (hFl hm)
        refine ⟨f :: F, cons_subset_cons f hFl, Freed.finish ?_ hf ?_ (fun g hg hgF => ?_) hF.idle
          hF.staffed hfF (hF.graph.congr fun g => ?_)⟩
        · rw [hF.frame, unhook_frame]
        · rw [hF.kept f hfF, unhook_core_self]
        · rw [hF.kept g hgF, unhook_core_of_ne s hg]
        · have : (unhook s f).blockingQuery g = some b → P g ∨ g = f :=
            (h.unhook hf).dependents_eq_nil hd
          tauto
      simp only [hd, if_false]
      refine ⟨[f], by simp, Freed.unhook h hf fun g => Staffed.unhook hs ?_⟩
      by_cases hgb : g = b
      · exact .inr (hgb ▸ hd)
      · exact .inl fun e => hgb (Option.some.inj (e.symm.trans hb))

section

variable (h : Graph s P) (hs : ∀ c, c ≠ f → Staffed s c) (hf : f ∈ s.frecList)
include h hs hf

theorem freeFrec_freed (hP : ∀ p, P p → ∀ b, s.blockingQuery p = some b → ¬s.Active b ∧ ¬P b) :
    ∃ F, Freed s (freeFrec s f) P f F := by
  obtain ⟨l, hl⟩ := h.acyclic f
  have hlen := h.blockingChain_length hf hl
  obtain ⟨F, -, hF⟩ := freeFrecFrom_freed (s.frecList.length + 1) h hs hf hl (by omega)
    fun p _ => hP p
  exact ⟨F, hF⟩

theorem freeFrec_unblocked (hb : s.blockingQuery f = none) :
    freeFrec s f = s.modify f (Frec.detach ∘ Frec.release) ∧ Freed s (freeFrec s f) P f [f] := by
  have heq : freeFrec s f = (unhook s f).modify f Frec.detach := by
    rw [freeFrec, freeFrecFrom_succ]
    simp only [hb]
  refine ⟨?_, heq ▸ Freed.unhook h hf fun g => Staffed.unhook hs (.inl (by simp [hb]))⟩
  rw [heq]
  simp only [unhook, release_blockingQuery, hb]
  simp [Forwarder.modify]

end

end Dnsmasq.Forward
