import Mathlib.Tactic

/-!
Computations that may fail with an error or not return at all.
-/
namespace Dnsmasq.Lib

/-- A value, an error, or a panic. -/
inductive Outcome (ε α : Type) where
  | ok (a : α)
  | err (e : ε)
  | panic
  deriving DecidableEq, Repr

namespace Outcome

variable {ε ε' α β : Type}

protected def bind (x : Outcome ε α) (f : α → Outcome ε β) : Outcome ε β :=
  match x with
  | ok a => f a
  | err e => err e
  | panic => panic

instance : Monad (Outcome ε) where
  pure := ok
  bind := Outcome.bind

@[simp] theorem ok_bind (a : α) (f : α → Outcome ε β) : (ok a >>= f) = f a := rfl

@[simp] theorem err_bind (e : ε) (f : α → Outcome ε β) : (err e >>= f) = err e := rfl

@[simp] theorem panic_bind (f : α → Outcome ε β) : (panic >>= f) = (panic : Outcome ε β) := rfl

@[simp] theorem pure_eq (a : α) : (pure a : Outcome ε α) = ok a := rfl

theorem bind_assoc {γ : Type} (x : Outcome ε α) (f : α → Outcome ε β) (g : β → Outcome ε γ) :
    (x >>= f) >>= g = x >>= fun a => f a >>= g := by
  cases x <;> rfl

variable {x : Outcome ε α} {f : α → Outcome ε β} {data : List α} {i start stop : ℕ}

theorem bind_eq_ok {b : β} : (x >>= f) = ok b ↔ ∃ a, x = ok a ∧ f a = ok b := by
  cases x <;> simp

def Safe (x : Outcome ε α) : Prop := x ≠ panic

@[simp] theorem safe_ok (a : α) : (ok a : Outcome ε α).Safe := nofun

@[simp] theorem safe_err (e : ε) : (err e : Outcome ε α).Safe := nofun

theorem safe_bind_iff : (x >>= f).Safe ↔ x.Safe ∧ ∀ a, x = ok a → (f a).Safe := by
  cases x with
  | ok a => simp [Safe]
  | err e => simp [Safe]
  | panic => simp [Safe]

theorem Safe.bind (hx : x.Safe) (hf : ∀ a, x = ok a → (f a).Safe) :
    (x >>= f).Safe := safe_bind_iff.mpr ⟨hx, hf⟩

def check (c : Bool) (e : ε) : Outcome ε Unit := if c then ok () else err e

@[simp] theorem check_true (e : ε) : check true e = ok () := rfl

@[simp] theorem check_false (e : ε) : check false e = err e := rfl

@[simp] theorem safe_check (c : Bool) (e : ε) : (check c e).Safe := by
  cases c <;> nofun

theorem check_eq_ok {c : Bool} {e : ε} {u : Unit} : check c e = ok u ↔ c = true := by
  cases c <;> simp [check]

def mapErr (f : ε → ε') : Outcome ε α → Outcome ε' α
  | ok a => ok a
  | err e => err (f e)
  | panic => panic

theorem safe_mapErr_iff {f : ε → ε'} : (x.mapErr f).Safe ↔ x.Safe := by
  cases x <;> simp [mapErr, Safe]

theorem mapErr_eq_ok {f : ε → ε'} {a : α} : x.mapErr f = ok a ↔ x = ok a := by
  cases x <;> simp [mapErr]

def index (data : List α) (i : ℕ) : Outcome ε α :=
  match data[i]? with
  | some a => ok a
  | none => panic

def slice (data : List α) (start stop : ℕ) : Outcome ε (List α) :=
  if start ≤ stop ∧ stop ≤ data.length then ok ((data.take stop).drop start) else panic

def sliceFrom (data : List α) (start : ℕ) : Outcome ε (List α) := slice data start data.length

def sub (a b : ℕ) : Outcome ε ℕ := if b ≤ a then ok (a - b) else panic

theorem safe_index (h : i < data.length) : (index data i : Outcome ε α).Safe := by
  simp [index, h, safe_ok]

theorem safe_slice_iff :
    (slice data start stop : Outcome ε (List α)).Safe ↔ start ≤ stop ∧ stop ≤ data.length := by
  unfold slice
  split <;> simp_all [Safe]

theorem safe_sliceFrom_iff :
    (sliceFrom data start : Outcome ε (List α)).Safe ↔ start ≤ data.length := by
  simp [sliceFrom, safe_slice_iff]

theorem length_of_slice {part : List α}
    (h : (slice data start stop : Outcome ε (List α)) = ok part) : part.length = stop - start := by
  unfold slice at h
  split at h
  · cases h
    simp
    omega
  · cases h

section Loops

variable {σ ρ : Type}

/-- Runs `step` until it exits; a loop that does not exit within the fuel does not return. -/
def loop (step : σ → Outcome ε (σ ⊕ ρ)) : ℕ → σ → Outcome ε ρ
  | 0, _ => panic
  | fuel + 1, s => step s >>= Sum.elim (loop step fuel) ok

theorem loop_succ (step : σ → Outcome ε (σ ⊕ ρ)) (fuel : ℕ) (s : σ) :
    loop step (fuel + 1) s = step s >>= Sum.elim (loop step fuel) ok := rfl

variable {step : σ → Outcome ε (σ ⊕ ρ)} {fuel n m : ℕ} {s t : σ} {f : σ → Outcome ε (α × σ)}

/-- Steps that keep an invariant, do not panic and make a measure fall end the loop. -/
theorem safe_loop (Inv : σ → Prop) (m : σ → ℕ) (hsafe : ∀ s, Inv s → (step s).Safe)
    (hstay : ∀ s s', Inv s → step s = ok (.inl s') → Inv s' ∧ m s' < m s) (hs : Inv s)
    (hfuel : m s < fuel) : (loop step fuel s).Safe := by
  induction fuel generalizing s with
  | zero => omega
  | succ fuel ih =>
    apply (hsafe s hs).bind
    intro turn hturn
    cases turn with
    | inl s' =>
      obtain ⟨hs', hm⟩ := hstay s s' hs hturn
      exact ih hs' (by omega)
    | inr r => exact safe_ok r

/-- A result comes from a state that the steps reached. -/
theorem exit_of_loop {Inv : σ → Prop}
    (hstay : ∀ s s', Inv s → step s = ok (.inl s') → Inv s') {r : ρ} (hs : Inv s)
    (h : loop step fuel s = ok r) : ∃ s', Inv s' ∧ step s' = ok (.inr r) := by
  induction fuel generalizing s with
  | zero => cases h
  | succ fuel ih =>
    obtain ⟨turn, hturn, hrest⟩ := bind_eq_ok.mp h
    cases turn with
    | inl s' => exact ih (hstay s s' hs hturn) hrest
    | inr r' =>
      cases hrest
      exact ⟨s, hs, hturn⟩

/-- `n` values read one after the other. -/
def times (f : σ → Outcome ε (α × σ)) : ℕ → σ → Outcome ε (List α × σ)
  | 0, s => ok ([], s)
  | n + 1, s => do
      let (a, s) ← f s
      let (rest, s) ← times f n s
      return (a :: rest, s)

/-- `n` reads from `s` succeed and end in `t`. -/
def Reaches (f : σ → Outcome ε (α × σ)) : ℕ → σ → σ → Prop
  | 0, s, t => s = t
  | n + 1, s, t => ∃ a s', f s = ok (a, s') ∧ Reaches f n s' t

theorem reaches_of_times {as : List α} (h : times f n s = ok (as, t)) : Reaches f n s t := by
  induction n generalizing s as with
  | zero =>
    cases h
    rfl
  | succ n ih =>
    obtain ⟨⟨a, s'⟩, hf, h⟩ := bind_eq_ok.mp h
    obtain ⟨⟨rest, t'⟩, hrest, h⟩ := bind_eq_ok.mp h
    cases h
    exact ⟨a, s', hf, ih hrest⟩

theorem times_of_reaches (h : Reaches f n s t) : ∃ as, times f n s = ok (as, t) := by
  induction n generalizing s with
  | zero =>
    cases h
    exact ⟨[], rfl⟩
  | succ n ih =>
    obtain ⟨a, s', hf, h⟩ := h
    obtain ⟨as, has⟩ := ih h
    refine ⟨a :: as, ?_⟩
    rw [times, hf, ok_bind]
    dsimp only
    rw [has]
    rfl

theorem safe_times_iff : (times f n s).Safe ↔ ∀ k < n, ∀ t, Reaches f k s t → (f t).Safe := by
  induction n generalizing s with
  | zero => exact ⟨nofun, fun _ => safe_ok _⟩
  | succ n ih =>
    rw [times, safe_bind_iff]
    constructor
    · rintro ⟨hf, hrest⟩ k hk t hreach
      cases k with
      | zero =>
        cases hreach
        exact hf
      | succ k =>
        obtain ⟨a, s', ha, hreach⟩ := hreach
        exact ih.mp (safe_bind_iff.mp (hrest _ ha)).1 k (by omega) t hreach
    intro h
    refine ⟨h 0 (by omega) s rfl, fun p hp => ?_⟩
    apply Safe.bind _ fun _ _ => safe_ok _
    apply ih.mpr
    intro k hk t hreach
    exact h (k + 1) (by omega) t ⟨p.1, p.2, hp, hreach⟩

theorem reaches_add : Reaches f (m + n) s t ↔ ∃ u, Reaches f m s u ∧ Reaches f n u t := by
  induction m generalizing s with
  | zero => simp [Reaches]
  | succ m ih =>
    rw [Nat.succ_add]
    constructor
    · rintro ⟨a, s', hf, h⟩
      obtain ⟨u, hu, ht⟩ := ih.mp h
      exact ⟨u, ⟨a, s', hf, hu⟩, ht⟩
    · rintro ⟨u, ⟨a, s', hf, hu⟩, ht⟩
      exact ⟨a, s', hf, ih.mpr ⟨u, hu, ht⟩⟩

theorem forall_reaches_add_iff {P : σ → Prop} : (∀ k < m + n, ∀ t, Reaches f k s t → P t) ↔
      (∀ k < m, ∀ t, Reaches f k s t → P t) ∧ ∀ u, Reaches f m s u → ∀ k < n, ∀ t,
      Reaches f k u t → P t := by
  constructor
  · intro h
    refine ⟨fun k hk => h k (by omega), fun u hu k hk t ht => h (m + k) (by omega) t ?_⟩
    exact reaches_add.mpr ⟨u, hu, ht⟩
  rintro ⟨hfirst, hrest⟩ k hk t ht
  by_cases hkm : k < m
  · exact hfirst k hkm t ht
  · obtain ⟨j, rfl⟩ := Nat.exists_eq_add_of_le (Nat.le_of_not_lt hkm)
    obtain ⟨u, hu, ht⟩ := reaches_add.mp ht
    exact hrest u hu j (by omega) t ht

/-- What follows `m` reads, when it panics depending only on where they ended. -/
theorem safe_times_bind_iff {g : List α × σ → Outcome ε β} {Q : σ → Prop}
    (hg : ∀ p, (g p).Safe ↔ Q p.2) :
    (times f m s >>= g).Safe ↔ (∀ k < m, ∀ t, Reaches f k s t → (f t).Safe) ∧
    ∀ u, Reaches f m s u → Q u := by
  rw [safe_bind_iff, safe_times_iff]
  refine and_congr_right fun _ => ⟨fun h u hu => ?_, fun h p hp => ?_⟩
  · obtain ⟨as, has⟩ := times_of_reaches hu
    exact (hg _).mp (h _ has)
  · exact (hg p).mpr (h p.2 (reaches_of_times hp))

end Loops

end Outcome

end Dnsmasq.Lib
