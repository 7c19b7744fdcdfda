import Dnsmasq.Forward.Validate

/-!
The graph of waiting queries. `Graph s P` says that the pointers of the table are in order, except
that the records of `P`, whose blocking query is already gone, stand outside every list.
-/
namespace Dnsmasq.Forward

open Lib Function

namespace Forwarder

variable {s : Forwarder} {f g : FrecId} {u : Frec → Frec}

@[simp] theorem modify_frec_self : (s.modify f u).frec f = u (s.frec f) := by
  simp [modify]

@[simp] theorem modify_frec_of_ne (h : g ≠ f) : (s.modify f u).frec g = s.frec g := by
  simp [modify, h]

@[simp] theorem modify_frecList : (s.modify f u).frecList = s.frecList := rfl

theorem modify_nextDependent :
    (s.modify f u).nextDependent = update s.nextDependent f (u (s.frec f)).nextDependent := by
  funext g
  by_cases h : g = f
  · subst h; simp [nextDependent]
  · simp [nextDependent, h]

theorem modify_blockingQuery :
    (s.modify f u).blockingQuery = update s.blockingQuery f (u (s.frec f)).blockingQuery := by
  funext g
  by_cases h : g = f
  · subst h; simp [blockingQuery]
  · simp [blockingQuery, h]

section

variable (o : Option Stash)

@[simp] theorem retrieve_frec : (s.retrieve o).frec = s.frec := by
  cases o <;> rfl

end

variable (s : Forwarder)

/-- Unlinking writes nothing but the two link fields, of the list it works on. -/
theorem unlinkDependent_frec (b f g : FrecId) : (s.unlinkDependent b f).frec g = { s.frec g with
      dependent := ((s.unlinkDependent b f).frec g).dependent
      nextDependent := ((s.unlinkDependent b f).frec g).nextDependent } := by
  unfold unlinkDependent
  split
  · rfl
  · by_cases e : g = b
    · subst e; simp
    · simp [e]
  rename_i a _
  by_cases e : g = a
  · subst e; simp
  · simp [e]

theorem unlinkDependent_dependent_of_ne {b g : FrecId} (f : FrecId) (hg : g ≠ b) :
    ((s.unlinkDependent b f).frec g).dependent = (s.frec g).dependent := by
  unfold unlinkDependent
  split
  · rfl
  · simp [hg]
  rename_i a _
  by_cases e : g = a
  · subst e; simp
  · simp [e]

theorem unlinkDependent_dependent (b f : FrecId) : ((s.unlinkDependent b f).frec b).dependent =
      (unlink s.nextDependent f s.frecList.length (s.frec b).dependent).1 := by
  unfold unlinkDependent unlink
  rcases findUp s.nextDependent f s.frecList.length none (s.frec b).dependent with _ | _ | a
  · rfl
  · simp
  · by_cases e : b = a
    · subst e; simp
    · simp [e]

theorem unlinkDependent_nextDependent (b f : FrecId) : (s.unlinkDependent b f).nextDependent =
      (unlink s.nextDependent f s.frecList.length (s.frec b).dependent).2 := by
  unfold unlinkDependent unlink
  rcases findUp s.nextDependent f s.frecList.length none (s.frec b).dependent with _ | _ | a
  · rfl
  · simp only [modify_nextDependent]
    exact update_eq_self b s.nextDependent
  · simp only [modify_nextDependent]

theorem unlinkDependent_dependent_eq_none (b f : FrecId) {g : FrecId}
    (hg : (s.frec g).dependent = none) : ((s.unlinkDependent b f).frec g).dependent = none := by
  by_cases e : g = b
  · subst e
    rw [unlinkDependent_dependent, hg, unlink_none]
  · rw [unlinkDependent_dependent_of_ne s f e, hg]

theorem unlinkDependent_blockingQuery (b f : FrecId) :
    (s.unlinkDependent b f).blockingQuery = s.blockingQuery := by
  funext g
  rw [blockingQuery, unlinkDependent_frec]
  rfl

theorem unlinkDependent_stash (b f g : FrecId) :
    ((s.unlinkDependent b f).frec g).stash = (s.frec g).stash := by
  rw [unlinkDependent_frec]

theorem unlinkDependent_eq (b f : FrecId) :
    s.unlinkDependent b f = { s with frec := (s.unlinkDependent b f).frec } := by
  unfold unlinkDependent
  split <;> rfl

def Active (f : FrecId) : Prop := (s.frec f).sentto ≠ none

instance (s : Forwarder) (f : FrecId) : Decidable (s.Active f) :=
  inferInstanceAs (Decidable ((s.frec f).sentto ≠ none))

/-- The records waiting for `b`, read off the pointers. -/
def Dependents (b : FrecId) (l : List FrecId) : Prop :=
  Chain s.nextDependent (s.frec b).dependent l

end Forwarder

open Forwarder

structure Frec.Idle (r : Frec) : Prop where
  blockingQuery : r.blockingQuery = none
  dependent : r.dependent = none
  stash : r.stash = none

theorem Frec.idle_blank : Frec.Idle {} := ⟨rfl, rfl, rfl⟩

structure Graph (s : Forwarder) (P : FrecId → Prop) : Prop where
  blank : ∀ f, f ∉ s.frecList → s.frec f = {}
  fresh : ∀ f ∈ s.frecList, f < s.nextFrec
  listed : ∀ f b, s.blockingQuery f = some b → b ∈ s.frecList
  idle : ∀ f, ¬P f → ¬s.Active f → (s.frec f).Idle
  waiting : ∀ b, ∃ l, s.Dependents b l ∧ ∀ f, f ∈ l ↔ s.blockingQuery f = some b ∧ ¬P f
  acyclic : ∀ f, ∃ l, Chain s.blockingQuery (some f) l
  stash : ∀ f g a b, (s.frec f).stash = some a → (s.frec g).stash = some b → a.key = b.key → f = g
  stashed : ∀ f a, (s.frec f).stash = some a → a.key < s.nextStash

/-- A record in use has somebody waiting for it exactly if it is a sub-query. -/
def Staffed (s : Forwarder) (b : FrecId) : Prop :=
  s.Active b → ((s.frec b).flags.subquery = true ↔ (s.frec b).dependent ≠ none)

namespace Graph

variable {s s' : Forwarder} {P Q : FrecId → Prop} {f b : FrecId}

section

variable (h : Graph s P)
include h

theorem congr (hPQ : ∀ f, P f ↔ Q f) : Graph s Q := by
  have : P = Q := funext fun f => propext (hPQ f)
  exact this ▸ h

theorem mem_of_active (hf : s.Active f) : f ∈ s.frecList := by
  by_contra hm
  rw [Active, h.blank f hm] at hf
  exact hf rfl

theorem mem_of_blocked (hf : s.blockingQuery f = some b) : f ∈ s.frecList := by
  by_contra hm
  rw [blockingQuery, h.blank f hm] at hf
  cases hf

/-- The links of a record decide its place in the graph; nothing else does. -/
theorem transport (hlist : s'.frecList = s.frecList) (hnext : s'.nextFrec = s.nextFrec)
    (hstash : s.nextStash ≤ s'.nextStash) (hblank : ∀ f, f ∉ s.frecList → s'.frec f = s.frec f)
    (hidle : ∀ f, ¬P f → ¬s'.Active f → ¬s.Active f)
    (hlinks : ∀ f, (s'.frec f).blockingQuery = (s.frec f).blockingQuery ∧
      (s'.frec f).dependent = (s.frec f).dependent ∧
      (s'.frec f).nextDependent = (s.frec f).nextDependent)
    (hkeep : ∀ f a, (s'.frec f).stash = some a → (s.frec f).stash = some a) : Graph s' P := by
  have hb : s'.blockingQuery = s.blockingQuery := funext fun f => (hlinks f).1
  have hn : s'.nextDependent = s.nextDependent := funext fun f => (hlinks f).2.2
  refine ⟨fun f hf => ?_, ?_, ?_, fun f hP hf => ?_, fun b => ?_, ?_,
    fun f g a b ha hb' => h.stash f g a b (hkeep f a ha) (hkeep g b hb'),
    fun f a ha => (h.stashed f a (hkeep f a ha)).trans_le hstash⟩
  · rw [hlist] at hf
    rw [hblank f hf, h.blank f hf]
  · rw [hlist, hnext]
    exact h.fresh
  · rw [hlist, hb]
    exact h.listed
  · obtain ⟨h1, h2, h3⟩ := h.idle f hP (hidle f hP hf)
    refine ⟨(hlinks f).1.trans h1, (hlinks f).2.1.trans h2, ?_⟩
    by_contra hne
    obtain ⟨a, ha⟩ := Option.ne_none_iff_exists'.mp hne
    rw [hkeep f a ha] at h3
    cases h3
  · simp only [Dependents, hn, hb, (hlinks b).2.1]
    exact h.waiting b
  · rw [hb]
    exact h.acyclic

/-- A chain of records in the table is no longer than the table. -/
theorem dependents_length {l : List FrecId} (hl : s.Dependents b l)
    (hmem : ∀ f, f ∈ l ↔ s.blockingQuery f = some b ∧ ¬P f) : l.length ≤ s.frecList.length :=
  (List.Nodup.subperm hl.nodup fun _ hf => h.mem_of_blocked ((hmem _).mp hf).1).length_le

theorem dependents_eq_nil (hb : (s.frec b).dependent = none)
    (hf : s.blockingQuery f = some b) : P f := by
  obtain ⟨l, hl, hmem⟩ := h.waiting b
  rw [Dependents, hb, Chain.none_iff] at hl
  subst hl
  by_contra hP
  exact List.not_mem_nil ((hmem f).mpr ⟨hf, hP⟩)

/-- A record may change everything but its links, as long as it stays in use. -/
theorem modify_inert {u : Frec → Frec} (hf : f ∈ s.frecList)
    (hact : ¬P f → (u (s.frec f)).sentto = none → (s.frec f).sentto = none)
    (hlinks : (u (s.frec f)).blockingQuery = (s.frec f).blockingQuery ∧
      (u (s.frec f)).dependent = (s.frec f).dependent ∧
      (u (s.frec f)).nextDependent = (s.frec f).nextDependent)
    (hkeep : ∀ a, (u (s.frec f)).stash = some a → (s.frec f).stash = some a) :
    Graph (s.modify f u) P := by
  refine h.transport rfl rfl le_rfl (fun g hg => ?_) (fun g hP hg => ?_) (fun g => ?_)
    (fun g a ha => ?_)
  · exact modify_frec_of_ne fun e => hg (e ▸ hf)
  · by_cases e : g = f
    · subst e
      simp only [Active, modify_frec_self, not_not] at hg ⊢
      exact hact hP hg
    · simpa [Active, e] using hg
  · by_cases e : g = f
    · subst e
      simpa using hlinks
    · simp [e]
  by_cases e : g = f
  · subst e
    exact hkeep a (by simpa using ha)
  · simpa [e] using ha

theorem unlinkDependent (hf : s.blockingQuery f = some b) :
    Graph (s.unlinkDependent b f) (fun g => P g ∨ g = f) := by
  obtain ⟨l, hl, hmem⟩ := h.waiting b
  have hlen := h.dependents_length hl hmem
  have hE := s.unlinkDependent_eq b f
  have hB := s.unlinkDependent_blockingQuery b f
  refine ⟨fun g hg => ?_, ?_, ?_, fun g hP hg => ?_, fun c => ?_, ?_, fun g g' a a' ha ha' => ?_,
    fun g a ha => ?_⟩
  · rw [hE] at hg
    have hgl : g ∉ l := fun hm => hg (h.mem_of_blocked ((hmem g).mp hm).1)
    have hnext : ((s.unlinkDependent b f).frec g).nextDependent = none := by
      change (s.unlinkDependent b f).nextDependent g = none
      rw [unlinkDependent_nextDependent, unlink_next_of_notMem hl hgl, nextDependent, h.blank g hg]
    rw [unlinkDependent_frec, hnext,
      unlinkDependent_dependent_eq_none s b f (by rw [h.blank g hg]), h.blank g hg]
  · rw [hE]
    exact h.fresh
  · rw [hB, hE]
    exact h.listed
  · rw [not_or] at hP
    have hidle := h.idle g hP.1 (by rwa [Active, unlinkDependent_frec] at hg)
    refine ⟨?_, unlinkDependent_dependent_eq_none s b f hidle.dependent, ?_⟩
    · exact (congrFun hB g).trans hidle.blockingQuery
    · rw [unlinkDependent_stash, hidle.stash]
  · simp only [Dependents, hB, unlinkDependent_nextDependent]
    by_cases hc : c = b
    · subst hc
      refine ⟨l.erase f, ?_, fun g => ?_⟩
      · rw [unlinkDependent_dependent]
        exact unlink_chain hl hlen
      · rw [hl.nodup.mem_erase_iff, hmem]
        tauto
    obtain ⟨l', hl', hmem'⟩ := h.waiting c
    refine ⟨l', ?_, fun g => ?_⟩
    · rw [unlinkDependent_dependent_of_ne s f hc]
      refine hl'.congr fun g hg => unlink_next_of_notMem hl (fun hm => hc ?_) _
      exact Option.some.inj (((hmem' g).mp hg).1.symm.trans ((hmem g).mp hm).1)
    rw [hmem']
    have : s.blockingQuery g = some c → g ≠ f := by
      rintro hg rfl
      exact hc (Option.some.inj (hg.symm.trans hf))
    tauto
  · rw [hB]
    exact h.acyclic
  · rw [unlinkDependent_stash] at ha ha'
    exact h.stash g g' a a' ha ha'
  · rw [unlinkDependent_stash] at ha
    rw [hE]
    exact h.stashed g a ha

/-- All pointers of a record outside every list cleared: those that waited for it are now
outside every list too. -/
theorem detach (hf : f ∈ s.frecList) (hP : P f) (hst : (s.frec f).stash = none) :
    Graph (s.modify f Frec.detach) (fun g => (P g ∨ s.blockingQuery g = some f) ∧ g ≠ f) := by
  have hB : (s.modify f Frec.detach).blockingQuery = update s.blockingQuery f none :=
    modify_blockingQuery
  have hN : (s.modify f Frec.detach).nextDependent = update s.nextDependent f none :=
    modify_nextDependent
  refine ⟨fun g hg => ?_, h.fresh, fun g c hg => ?_, fun g hg hact => ?_, fun c => ?_, ?_,
    fun g g' a a' ha ha' => ?_, fun g a ha => ?_⟩
  · rw [modify_frec_of_ne (ne_of_mem_of_not_mem hf hg).symm, h.blank g hg]
  · rw [hB] at hg
    by_cases e : g = f
    · subst e; simp at hg
    · exact h.listed g c (by simpa [e] using hg)
  · by_cases e : g = f
    · subst e
      rw [modify_frec_self]
      exact ⟨rfl, rfl, hst⟩
    · rw [Active, modify_frec_of_ne e] at hact
      rw [modify_frec_of_ne e]
      exact h.idle g (fun hp => hg ⟨.inl hp, e⟩) hact
  · simp only [Dependents, hB, hN]
    by_cases hc : c = f
    · subst hc
      refine ⟨[], by simp [Frec.detach], fun g => ?_⟩
      by_cases e : g = c
      · subst e; simp
      · simp +contextual [e]
    obtain ⟨l, hl, hmem⟩ := h.waiting c
    have hfl : f ∉ l := fun hm => ((hmem f).mp hm).2 hP
    refine ⟨l, ?_, fun g => ?_⟩
    · rw [modify_frec_of_ne hc]
      exact hl.update_of_notMem hfl none
    by_cases e : g = f
    · subst e; simp [hfl]
    rw [hmem, update_of_ne e]
    have : s.blockingQuery g = some c → s.blockingQuery g ≠ some f := by
      intro h1 h2
      exact hc (Option.some.inj (h1.symm.trans h2))
    tauto
  · rw [hB]
    exact acyclic_cut h.acyclic f
  · have key : ∀ g, ((s.modify f Frec.detach).frec g).stash = (s.frec g).stash := fun g => by
      by_cases e : g = f
      · subst e; simp [Frec.detach]
      · simp [e]
    rw [key] at ha ha'
    exact h.stash g g' a a' ha ha'
  have key : ((s.modify f Frec.detach).frec g).stash = (s.frec g).stash := by
    by_cases e : g = f
    · subst e; simp [Frec.detach]
    · simp [e]
  rw [key] at ha
  exact h.stashed g a ha

end

end Graph

end Dnsmasq.Forward
