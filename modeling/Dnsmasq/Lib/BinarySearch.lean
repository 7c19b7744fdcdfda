import Mathlib.Tactic

/-!
Binary search with a three-way comparison as C code writes it, with three different exits. The
comparison is partial, so that a probe outside the table is a fault.
-/
namespace BinarySearch

/-- How the loop ended: on an equal entry, on an entry that sorts after the key with
nothing left below it, or on the last entry that sorts before the key. Each exit carries
the probe and the final value of `low`. -/
inductive Exit where
  | found (probe low : ℕ)
  | before (probe low : ℕ)
  | after (probe low : ℕ)
  deriving DecidableEq, Repr

def run (cmp : ℕ → Option ℤ) : ℕ → ℕ → ℕ → Option Exit
  | 0, _, _ => none
  | fuel + 1, low, high =>
    let probe := (low + high) / 2
    match cmp probe with
    | none => none
    | some rc =>
      if rc = 0 then some (.found probe low)
      else if rc < 0 then
        if high = probe then some (.before probe low) else run cmp fuel low probe
      else
        if low = probe then some (.after probe low) else run cmp fuel probe high

/-- Along the table the comparison is first positive, then zero, then negative. -/
structure SignSorted (n : ℕ) (cmp : ℕ → Option ℤ) : Prop where
  total : ∀ i < n, ∃ rc, cmp i = some rc
  nonpos : ∀ i j, i ≤ j → j < n → ∀ a b, cmp i = some a → cmp j = some b → a ≤ 0 → b ≤ 0
  neg : ∀ i j, i ≤ j → j < n → ∀ a b, cmp i = some a → cmp j = some b → a < 0 → b < 0

/-- `low` is the start of the table or an entry that sorts before the key. -/
def LowOk (cmp : ℕ → Option ℤ) (low : ℕ) : Prop :=
  low = 0 ∨ ∃ rc, cmp low = some rc ∧ 0 < rc

def Exit.Sound (n : ℕ) (cmp : ℕ → Option ℤ) : Exit → Prop
  | .found probe low => probe < n ∧ low < n ∧ LowOk cmp low ∧ cmp probe = some 0
  | .before probe low => probe = 0 ∧ low = 0 ∧ 0 < n ∧
      ∀ j < n, ∃ rc, cmp j = some rc ∧ rc < 0
  | .after probe low => probe = low ∧ low < n ∧ (∃ rc, cmp low = some rc ∧ 0 < rc) ∧
      ∀ j, low < j → j < n → ∃ rc, cmp j = some rc ∧ rc < 0

variable {n : ℕ} {cmp : ℕ → Option ℤ}

theorem run_sound (hs : SignSorted n cmp) (fuel low high : ℕ) (hlow : low ≤ high)
    (hn : low < n) (hhigh : high ≤ n) (hok : LowOk cmp low)
    (hneg : ∀ j, high ≤ j → j < n → ∃ rc, cmp j = some rc ∧ rc < 0)
    (hfuel : high - low + 1 < fuel) : ∃ e, run cmp fuel low high = some e ∧ e.Sound n cmp := by
  induction fuel generalizing low high with
  | zero => omega
  | succ fuel ih =>
    have hprobe : (low + high) / 2 < n := by omega
    obtain ⟨rc, hrc⟩ := hs.total _ hprobe
    simp only [run, hrc]
    split_ifs with h0 hlt hhp hlp
    · exact ⟨_, rfl, hprobe, hn, hok, by rw [hrc, h0]⟩
    · have hz : low = 0 := by
        rcases hok with hz | ⟨a, ha, hpos⟩
        · exact hz
        · rw [show (low + high) / 2 = low by omega, ha] at hrc
          cases hrc
          omega
      subst hz
      refine ⟨_, rfl, by omega, rfl, hn, fun j hj => hneg j (by omega) hj⟩
    · exact ih low _ (by omega) hn (by omega) hok
        (fun j hj hjn => (hs.total j hjn).imp fun b hb => ⟨hb, hs.neg _ j hj hjn rc b hrc hb hlt⟩)
        (by omega)
    · have hpos : 0 < rc := by omega
      refine ⟨_, rfl, by omega, hn, ⟨rc, by rw [hlp]; exact hrc, hpos⟩, fun j hj hjn => ?_⟩
      exact hneg j (by omega) hjn
    · exact ih _ high (by omega) hprobe hhigh (.inr ⟨rc, hrc, by omega⟩) hneg (by omega)

end BinarySearch
