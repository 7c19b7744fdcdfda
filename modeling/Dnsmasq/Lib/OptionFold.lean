import Mathlib.Tactic

/-!
Loops whose body may fail, as folds in `Option`: what every turn establishes and keeps, the
whole loop establishes and keeps, and then it does not fail.
-/
namespace Dnsmasq.Lib

open List

theorem foldlM_some {σ β : Type*} {f : σ → β → Option σ} {J : σ → Prop} {l : List β}
    (hstep : ∀ x ∈ l, ∀ s, J s → ∃ s', f s x = some s' ∧ J s') {s : σ} (h : J s) :
    ∃ s', l.foldlM f s = some s' ∧ J s' := by
  induction l generalizing s with
  | nil => exact ⟨s, rfl, h⟩
  | cons x l ih =>
    obtain ⟨t, ht, hJ⟩ := hstep x mem_cons_self s h
    obtain ⟨s', hs', hJ'⟩ := ih (fun y hy => hstep y (mem_cons_of_mem x hy)) hJ
    refine ⟨s', ?_, hJ'⟩
    rw [foldlM_cons, ht]
    exact hs'

theorem foldlM_range_some {σ : Type*} {f : σ → ℕ → Option σ} {J : ℕ → σ → Prop} {n : ℕ}
    (hstep : ∀ i < n, ∀ s, J i s → ∃ s', f s i = some s' ∧ J (i + 1) s') {s : σ} (h : J 0 s) :
    ∃ s', (List.range n).foldlM f s = some s' ∧ J n s' := by
  induction n with
  | zero => exact ⟨s, rfl, h⟩
  | succ n ih =>
    obtain ⟨t, ht, hJ⟩ := ih fun i hi => hstep i (Nat.lt_succ_of_lt hi)
    obtain ⟨s', hs', hJ'⟩ := hstep n (Nat.lt_succ_self n) t hJ
    refine ⟨s', ?_, hJ'⟩
    rw [range_succ, foldlM_append, ht]
    simp [hs']

end Dnsmasq.Lib
