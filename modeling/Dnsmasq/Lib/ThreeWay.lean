import Mathlib.Tactic

/-!
Three-way comparisons in the manner of C, which return a negative number, zero or a positive
number, and lexicographic orders on lists.
-/
namespace ThreeWay

open List

/-- The number `c` reports how `x` and `y` compare. -/
def Reports {α : Type*} [LinearOrder α] (c : ℤ) (x y : α) : Prop :=
  (c < 0 ↔ x < y) ∧ (c = 0 ↔ x = y)

variable {α β : Type*} [LinearOrder α] [LinearOrder β] {c : ℤ} {x y : α}

theorem Reports.nonneg (h : Reports c x y) : 0 ≤ c ↔ y ≤ x := by
  rw [← not_lt, ← not_lt, h.1]

theorem Reports.pos (h : Reports c x y) : 0 < c ↔ y < x := by
  rw [lt_iff_le_and_ne, lt_iff_le_and_ne, h.nonneg, ne_comm, ne_eq, h.2, eq_comm]

theorem Reports.of_lt (hc : c < 0) (h : x < y) : Reports c x y :=
  ⟨by simp [hc, h], by constructor <;> intro h' <;> [omega; exact absurd h' h.ne]⟩

theorem Reports.of_gt (hc : 0 < c) (h : y < x) : Reports c x y :=
  ⟨by constructor <;> intro h' <;> [omega; exact absurd h' h.asymm],
    by constructor <;> intro h' <;> [omega; exact absurd h' h.ne']⟩

theorem Reports.of_eq (hc : c = 0) (h : x = y) : Reports c x y := by
  subst hc h
  simp [Reports]

theorem Reports.congr {x' y' : β} (h : Reports c x y) (hlt : x' < y' ↔ x < y)
    (heq : x' = y' ↔ x = y) : Reports c x' y' := ⟨h.1.trans hlt.symm, h.2.trans heq.symm⟩

theorem Reports.cons {xs ys : List α} (h : Reports c xs ys) (hxy : x = y) :
    Reports c (x :: xs) (y :: ys) := by
  subst hxy
  exact h.congr (by simp) (by simp)

end ThreeWay
