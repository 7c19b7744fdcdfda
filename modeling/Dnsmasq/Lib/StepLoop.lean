import Mathlib.Tactic

/-!
Loops that run one step after another until a step exits with a result, and the rule by
which an invariant and a measure give that the loop exits and what it exits with.
-/
namespace Dnsmasq.StepLoop

variable {σ ρ : Type*}

/-- Runs `step` until it exits; `none` when the fuel is used up first. -/
def runLoop (step : σ → σ ⊕ ρ) : ℕ → σ → Option ρ
  | 0, _ => none
  | fuel + 1, s =>
    match step s with
    | .inl s' => runLoop step fuel s'
    | .inr r => some r

variable {step : σ → σ ⊕ ρ} {fuel : ℕ} {s : σ}

/-- The loop exits when a measure falls at every step, and its result is correct for the
state it started in when every step passes the correctness of a result backwards. -/
theorem runLoop_spec {Inv : σ → Prop} {spec : σ → ρ → Prop} (m : σ → ℕ)
    (stay : ∀ s s', Inv s → step s = .inl s' → Inv s' ∧ m s' < m s ∧ ∀ r, spec s' r → spec s r)
    (exit : ∀ s r, Inv s → step s = .inr r → spec s r) (hs : Inv s)
    (hfuel : m s < fuel) : ∃ r, runLoop step fuel s = some r ∧ spec s r := by
  induction fuel generalizing s with
  | zero => omega
  | succ fuel ih =>
    rw [runLoop]
    cases hstep : step s with
    | inl s' =>
      obtain ⟨hs', hm, hspec⟩ := stay s s' hs hstep
      obtain ⟨r, hr, hr'⟩ := ih hs' (by omega)
      exact ⟨r, hr, hspec r hr'⟩
    | inr r => exact ⟨r, rfl, exit s r hs hstep⟩

theorem runLoop_exits (Inv : σ → Prop) (m : σ → ℕ)
    (stay : ∀ s s', Inv s → step s = .inl s' → Inv s' ∧ m s' < m s) (hs : Inv s)
    (hfuel : m s < fuel) : ∃ r, runLoop step fuel s = some r := by
  induction fuel generalizing s with
  | zero => omega
  | succ fuel ih =>
    rw [runLoop]
    cases hstep : step s with
    | inl s' =>
      obtain ⟨hs', hm⟩ := stay s s' hs hstep
      exact ih hs' (by omega)
    | inr r => exact ⟨r, rfl⟩

theorem eq_some_join {step : σ → σ ⊕ Option ρ} (h : ∃ r, runLoop step fuel s = some r) :
    runLoop step fuel s = some (runLoop step fuel s).join := by
  obtain ⟨r, hr⟩ := h
  rw [hr]
  rfl

end Dnsmasq.StepLoop
