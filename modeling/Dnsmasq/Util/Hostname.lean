import Mathlib.Tactic

/-!
Domain names as the C sources hold them: the bytes before the terminating NUL, compared
without regard to ASCII case by `hostname_order` and checked by `check_name`.
-/
namespace Dnsmasq

abbrev CString := List UInt8

def dot : UInt8 := 46

/-- Only `A` to `Z` are folded; the comparison never consults the locale. -/
def lower (c : UInt8) : UInt8 := if 65 ≤ c ∧ c ≤ 90 then c + 32 else c

/-- The terminating NUL sorts before every byte of a longer name. -/
def hostnameOrder : CString → CString → ℤ
  | [], [] => 0
  | [], _ :: _ => -1
  | _ :: _, [] => 1
  | a :: as, b :: bs =>
    let c1 := (lower a).toNat
    let c2 := (lower b).toNat
    if c1 < c2 then -1 else if c2 < c1 then 1 else hostnameOrder as bs

def hostnameIsequal (a b : CString) : Bool := hostnameOrder a b = 0

def maxdname : ℕ := 1025

/-- The longest run of characters without a dot is at most that of a label. -/
def labelsFit : ℕ → CString → Bool
  | _, [] => true
  | gap, c :: s => if c = dot then labelsFit 0 s else gap < 63 && labelsFit (gap + 1) s

/-- The name without the dot at its end, if it can be one. Without IDN, all characters are
those of ASCII. -/
def checkName (name : CString) : Option CString :=
  if name.length = 0 ∨ maxdname < name.length then none
  else
    let dotted := name.getLast? = some dot
    let s := if dotted then name.dropLast else name
    if labelsFit 0 s && s.all (fun c => 32 ≤ c && c < 127) &&
      (dotted || s.any fun c => c ≠ 32 && c ≠ dot) then some s
    else none

def foldCase (a : CString) : CString := a.map lower

theorem hostnameOrder_eq_zero_iff (a b : CString) :
    hostnameOrder a b = 0 ↔ foldCase a = foldCase b := by
  induction a generalizing b with
  | nil => cases b <;> simp [hostnameOrder, foldCase]
  | cons x xs ih =>
    cases b with
    | nil => simp [hostnameOrder, foldCase]
    | cons y ys =>
      have ih' := ih ys
      simp only [foldCase] at ih' ⊢
      simp only [hostnameOrder, List.map_cons, List.cons.injEq, ← UInt8.toNat_inj]
      split_ifs with h1 h2
      · simp [h1.ne]
      · simp [h2.ne']
      · rw [ih']
        simp [le_antisymm (not_lt.mp h2) (not_lt.mp h1)]

@[simp] theorem hostnameOrder_self (a : CString) : hostnameOrder a a = 0 :=
  (hostnameOrder_eq_zero_iff a a).mpr rfl

theorem hostnameIsequal_comm (a b : CString) : hostnameIsequal a b = hostnameIsequal b a := by
  simp only [hostnameIsequal, hostnameOrder_eq_zero_iff, eq_comm]

variable {a b c : CString}

theorem hostnameIsequal_symm (h : hostnameIsequal a b = true) : hostnameIsequal b a = true := by
  rwa [hostnameIsequal_comm]

theorem hostnameIsequal_trans (h : hostnameIsequal a b = true) (h' : hostnameIsequal b c = true) :
    hostnameIsequal a c = true := by
  simp only [hostnameIsequal, decide_eq_true_eq, hostnameOrder_eq_zero_iff] at h h' ⊢
  exact h.trans h'

theorem hostnameOrder_swap (a b : CString) : hostnameOrder b a = -hostnameOrder a b := by
  induction a generalizing b with
  | nil => cases b <;> simp [hostnameOrder]
  | cons x xs ih =>
    cases b with
    | nil => simp [hostnameOrder]
    | cons y ys =>
      simp only [hostnameOrder]
      rcases lt_trichotomy (lower x).toNat (lower y).toNat with h | h | h
      · simp [h, h.not_gt]
      · simp [h, ih ys]
      · simp [h, h.not_gt]

theorem hostnameOrder_neg_trans (hab : hostnameOrder a b ≤ 0)
    (hbc : hostnameOrder b c < 0) : hostnameOrder a c < 0 := by
  induction a generalizing b c with
  | nil =>
    cases c with
    | nil => cases b <;> simp [hostnameOrder] at hbc
    | cons z zs => simp [hostnameOrder]
  | cons x xs ih =>
    cases b with
    | nil => simp [hostnameOrder] at hab
    | cons y ys =>
      cases c with
      | nil => simp [hostnameOrder] at hbc
      | cons z zs =>
        simp only [hostnameOrder] at hab hbc ⊢
        split_ifs at hab hbc ⊢ <;> first | omega | exact ih hab hbc

theorem hostnameOrder_nonpos_trans (hab : hostnameOrder a b ≤ 0)
    (hbc : hostnameOrder b c ≤ 0) : hostnameOrder a c ≤ 0 := by
  rcases hbc.lt_or_eq with h | h
  · exact (hostnameOrder_neg_trans hab h).le
  by_contra hc
  have hca : hostnameOrder c a < 0 := by rw [hostnameOrder_swap]; omega
  have hba := hostnameOrder_neg_trans h.le hca
  rw [hostnameOrder_swap] at hba
  omega

theorem hostnameOrder_neg_nonpos_trans (hab : hostnameOrder a b < 0)
    (hbc : hostnameOrder b c ≤ 0) : hostnameOrder a c < 0 := by
  by_contra hc
  have hca : hostnameOrder c a ≤ 0 := by rw [hostnameOrder_swap]; omega
  have hba := hostnameOrder_nonpos_trans hbc hca
  rw [hostnameOrder_swap] at hba
  omega

end Dnsmasq
