import Dnsmasq.Lib.Glob
import Dnsmasq.Lib.StepLoop
import Dnsmasq.Util.Hostname

/-!
The glob matcher of `pattern.c`: one pass over value and pattern that remembers a single
place to restart from, the last `*` it went by.
-/
namespace Dnsmasq.Pattern

open List Option Dnsmasq.Glob Dnsmasq.StepLoop

def asterisk : UInt8 := 42

/-- The matcher folds `a` to `z` to upper case on both sides. -/
def upper (c : UInt8) : UInt8 := if 97 ≤ c ∧ c ≤ 122 then c - 32 else c

/-- The four indices of `is_string_matching_glob_pattern`. -/
structure Scan where
  valueIndex : ℕ
  nextValueIndex : ℕ
  patternIndex : ℕ
  nextPatternIndex : ℕ
deriving DecidableEq, Repr

/-- The tail of the loop body, reached when nothing matched at the current indices. -/
def Scan.restart (s : Scan) : Scan ⊕ Bool :=
  if s.nextValueIndex ≠ 0 then
    .inl { s with patternIndex := s.nextPatternIndex, valueIndex := s.nextValueIndex }
  else .inr false

section

variable (value pattern : CString)

/-- One turn of the `while` loop; an index past its end reads as `none`. -/
def globStep (s : Scan) : Scan ⊕ Bool :=
  match pattern[s.patternIndex]?, value[s.valueIndex]? with
  | none, none => .inr true
  | none, some _ => s.restart
  | some p, v =>
    if upper p = asterisk then
      .inl { s with
        nextPatternIndex := s.patternIndex
        patternIndex := s.patternIndex + 1
        nextValueIndex := if v.isSome then s.valueIndex + 1 else 0 }
    else if v.map upper = some (upper p) then
      .inl { s with patternIndex := s.patternIndex + 1, valueIndex := s.valueIndex + 1 }
    else s.restart

/-- The source has no bound on the number of turns; `globFuel` always suffices. -/
def globFuel : ℕ := (2 * value.length + 1) * (pattern.length + 1)

def isStringMatchingGlobPattern : Option Bool :=
  runLoop (globStep value pattern) (globFuel value pattern) ⟨0, 0, 0, 0⟩

/-- What a glob means: `*` stands for any sequence, letters are compared ignoring case. -/
def GlobMatches : Prop :=
  Matches (· = asterisk) (fun a b => lower a = lower b) value pattern

end

variable {p v : CString} {a b : UInt8} {s : Scan}

theorem globMatches_star_nil : GlobMatches [] (asterisk :: p) ↔ GlobMatches [] p :=
  matches_wild_nil rfl

theorem globMatches_star_cons : GlobMatches (a :: v) (asterisk :: p) ↔
      GlobMatches (a :: v) p ∨ GlobMatches v (asterisk :: p) :=
  matches_wild_cons rfl

theorem globMatches_char (hb : b ≠ asterisk) :
    GlobMatches v (b :: p) ↔ ∃ a v', v = a :: v' ∧ lower a = lower b ∧ GlobMatches v' p :=
  matches_char hb

theorem upper_eq_asterisk {c : UInt8} : upper c = asterisk ↔ c = asterisk := by
  unfold upper asterisk
  grind

theorem lower_upper (c : UInt8) : lower (upper c) = lower c := by
  unfold lower upper
  grind

theorem upper_lower (c : UInt8) : upper (lower c) = upper c := by
  unfold lower upper
  grind

theorem upper_eq_iff : upper a = upper b ↔ lower a = lower b :=
  ⟨fun h => by rw [← lower_upper, h, lower_upper], fun h => by rw [← upper_lower, h, upper_lower]⟩

variable {value pattern : CString}

/-- The remembered `*` lies right before the ordinary pattern characters that matched so
far, and it was last tried one place before the next place to try it at. -/
structure Restarts (value pattern : CString) (s : Scan) : Prop where
  next_le : s.nextValueIndex ≤ value.length
  star : pattern[s.nextPatternIndex]? = some asterisk
  run : s.patternIndex = s.nextPatternIndex ∧ s.valueIndex = s.nextValueIndex ∨
    ∃ q, pattern.drop s.nextPatternIndex = asterisk :: q ++ pattern.drop s.patternIndex ∧
      (∀ b ∈ q, b ≠ asterisk) ∧ s.patternIndex = s.nextPatternIndex + 1 + q.length ∧
      s.valueIndex + 1 = s.nextValueIndex + q.length

structure Scan.Inv (value pattern : CString) (s : Scan) : Prop where
  value_le : s.valueIndex ≤ value.length
  pattern_le : s.patternIndex ≤ pattern.length
  restarts : s.nextValueIndex ≠ 0 → Restarts value pattern s

/-- What is still to be tried in state `s`: the rest at the current indices, or a restart. -/
def Scan.Pending (value pattern : CString) (s : Scan) : Prop :=
  GlobMatches (value.drop s.valueIndex) (pattern.drop s.patternIndex) ∨
    s.nextValueIndex ≠ 0 ∧
      GlobMatches (value.drop s.nextValueIndex) (pattern.drop s.nextPatternIndex)

theorem drop_of_getElem? {α : Type*} {l : List α} {i : ℕ} {a : α} (h : l[i]? = some a) :
    l.drop i = a :: l.drop (i + 1) := by
  obtain ⟨hi, rfl⟩ := List.getElem?_eq_some_iff.mp h
  exact drop_eq_getElem_cons hi

theorem Scan.pending_of_star (h : s.Inv value pattern)
    (hp : pattern[s.patternIndex]? = some asterisk) : s.Pending value pattern ↔
      GlobMatches (value.drop s.valueIndex) (pattern.drop s.patternIndex) := by
  refine ⟨?_, .inl⟩
  rintro (hm | ⟨hn, hm⟩)
  · exact hm
  obtain ⟨_, _, ⟨hpi, hvi⟩ | ⟨q, hq, hplain, hpi, hvi⟩⟩ := h.restarts hn
  · rwa [hpi, hvi]
  rw [drop_of_getElem? hp] at hq ⊢
  rw [hq] at hm
  have hlate := hm.of_earlier rfl rfl hplain
  rw [drop_drop, show s.nextValueIndex + q.length = s.valueIndex + 1 by omega,
    ← drop_drop] at hlate
  exact hlate.of_drop rfl

/-- The places left to restart at; right after a restart one of them is used up. -/
def Scan.restartsLeft (value : CString) (s : Scan) : ℕ :=
  if s.nextValueIndex = 0 then 2 * (value.length - s.valueIndex)
  else 2 * (value.length - s.nextValueIndex) + if s.nextPatternIndex < s.patternIndex then 1 else 0

/-- Lexicographic in the places left to restart at and the rest of the pattern. -/
def Scan.measure (value pattern : CString) (s : Scan) : ℕ :=
  s.restartsLeft value * (pattern.length + 1) + (pattern.length - s.patternIndex)

theorem Scan.measure_lt {s' : Scan} (h : s'.restartsLeft value < s.restartsLeft value ∨
      s'.restartsLeft value ≤ s.restartsLeft value ∧ s.patternIndex < s'.patternIndex ∧
        s.patternIndex < pattern.length) : s'.measure value pattern < s.measure value pattern := by
  unfold Scan.measure
  rcases h with h | ⟨h, hp, hlt⟩
  · have := Nat.mul_le_mul_right (pattern.length + 1) (Nat.succ_le_of_lt h)
    rw [Nat.succ_mul] at this
    omega
  · have := Nat.mul_le_mul_right (pattern.length + 1) h
    omega

/-- One turn of the loop from `s`: it keeps the invariant and what is pending and comes
nearer to the end, or exits with the answer. -/
def Turn (value pattern : CString) (s : Scan) : Scan ⊕ Bool → Prop
  | .inl s' => s'.Inv value pattern ∧ s'.measure value pattern < s.measure value pattern ∧
      (s'.Pending value pattern ↔ s.Pending value pattern)
  | .inr r => r = true ↔ s.Pending value pattern

section

variable (h : s.Inv value pattern)
include h

theorem Scan.Inv.turn_restart (hp : pattern[s.patternIndex]? ≠ some asterisk)
    (hm : ¬GlobMatches (value.drop s.valueIndex) (pattern.drop s.patternIndex)) :
    Turn value pattern s s.restart := by
  have hpend : s.Pending value pattern ↔ s.nextValueIndex ≠ 0 ∧
      GlobMatches (value.drop s.nextValueIndex) (pattern.drop s.nextPatternIndex) :=
    or_iff_right hm
  unfold Scan.restart
  split_ifs with hn
  · obtain ⟨hle, hstar, ⟨hpi, -⟩ | ⟨q, -, -, hpi, -⟩⟩ := h.restarts hn
    · exact absurd hstar (hpi ▸ hp)
    have hlt := (List.getElem?_eq_some_iff.mp hstar).1
    refine ⟨⟨hle, hlt.le, fun _ => ⟨hle, hstar, .inl ⟨rfl, rfl⟩⟩⟩, Scan.measure_lt (.inl ?_), ?_⟩
    · simp only [Scan.restartsLeft, hn, if_false, lt_irrefl]
      rw [if_pos (by omega)]
      omega
    · rw [hpend]
      simp [Scan.Pending, hn]
  · simp [Turn, hpend, hn]

theorem Scan.Inv.turn_star (hp : pattern[s.patternIndex]? = some asterisk) :
    Turn value pattern s (.inl { s with
      nextPatternIndex := s.patternIndex
      patternIndex := s.patternIndex + 1
      nextValueIndex := if value[s.valueIndex]?.isSome then s.valueIndex + 1 else 0 }) := by
  have hlt := (List.getElem?_eq_some_iff.mp hp).1
  have hpd := drop_of_getElem? hp
  have hpend := s.pending_of_star h hp
  rw [hpd] at hpend
  cases hv : value[s.valueIndex]? with
  | some a =>
    have hvlt := (List.getElem?_eq_some_iff.mp hv).1
    have hvd := drop_of_getElem? hv
    refine ⟨⟨h.value_le, hlt, fun _ =>
      ⟨hvlt, hp, .inr ⟨[], by simpa using hpd, by simp, rfl, rfl⟩⟩⟩,
      Scan.measure_lt (.inr ⟨?_, Nat.lt_succ_self _, hlt⟩), ?_⟩
    · -- the new place to restart at is no earlier than the old one
      simp only [Scan.restartsLeft, isSome_some, if_true, Nat.succ_ne_zero, if_false,
        Nat.lt_succ_self]
      split_ifs with hn hrun
      · omega
      · obtain ⟨-, -, ⟨hpi, -⟩ | ⟨q, -, -, -, hvi⟩⟩ := h.restarts hn <;> omega
      · obtain ⟨-, -, ⟨-, hvi⟩ | ⟨q, -, -, hpi, -⟩⟩ := h.restarts hn <;> omega
    · rw [hpend]
      simp only [Scan.Pending, isSome_some, if_true, hpd, hvd]
      simp [globMatches_star_cons]
  | none =>
    rw [List.getElem?_eq_none_iff] at hv
    refine ⟨⟨h.value_le, hlt, fun hn => absurd rfl hn⟩,
      Scan.measure_lt (.inr ⟨?_, Nat.lt_succ_self _, hlt⟩), ?_⟩
    · simp [Scan.restartsLeft, Nat.sub_eq_zero_of_le hv]
    · rw [hpend]
      simp only [Scan.Pending, isSome_none, drop_eq_nil_of_le hv]
      simp [globMatches_star_nil]

theorem Scan.Inv.turn_char
    (hv : value[s.valueIndex]? = some a) (hp : pattern[s.patternIndex]? = some b)
    (hb : b ≠ asterisk) (hab : lower a = lower b) : Turn value pattern s (.inl { s with
      patternIndex := s.patternIndex + 1, valueIndex := s.valueIndex + 1 }) := by
  have hlt := (List.getElem?_eq_some_iff.mp hp).1
  have hvlt := (List.getElem?_eq_some_iff.mp hv).1
  have hpd := drop_of_getElem? hp
  -- an attempt that reads an ordinary character is already past the remembered `*`
  have hrun : s.nextValueIndex ≠ 0 → ∃ q,
      pattern.drop s.nextPatternIndex = asterisk :: q ++ pattern.drop s.patternIndex ∧
        (∀ b ∈ q, b ≠ asterisk) ∧ s.patternIndex = s.nextPatternIndex + 1 + q.length ∧
        s.valueIndex + 1 = s.nextValueIndex + q.length := by
    intro hn
    obtain ⟨-, hstar, ⟨hpi, -⟩ | hrun⟩ := h.restarts hn
    · rw [← hpi, hp] at hstar
      exact absurd (Option.some.inj hstar) hb
    · exact hrun
  refine ⟨⟨hvlt, hlt, fun hn => ?_⟩, Scan.measure_lt (.inr ⟨?_, Nat.lt_succ_self _, hlt⟩), ?_⟩
  · obtain ⟨q, hq, hplain, hpi, hvi⟩ := hrun hn
    refine ⟨(h.restarts hn).next_le, (h.restarts hn).star,
      .inr ⟨q ++ [b], by simpa [hpd] using hq, ?_, ?_, ?_⟩⟩
    · simpa [or_imp, forall_and] using ⟨hplain, hb⟩
    · simp only [hpi, length_append, length_singleton]
      omega
    · simp only [length_append, length_singleton]
      omega
  · by_cases hn : s.nextValueIndex = 0
    · simp only [Scan.restartsLeft, hn, if_true]
      omega
    · simp only [Scan.restartsLeft, hn, if_false]
      rw [if_pos (by omega), if_pos (by omega)]
  · refine or_congr ?_ Iff.rfl
    rw [hpd, drop_of_getElem? hv, globMatches_char hb]
    simp [hab]

theorem Scan.Inv.turn : Turn value pattern s (globStep value pattern s) := by
  unfold globStep
  split
  next hp hv =>
    rw [getElem?_eq_none_iff] at hp hv
    simp [Turn, Scan.Pending, drop_eq_nil_of_le hp, drop_eq_nil_of_le hv, GlobMatches]
  next a hp hv =>
    apply h.turn_restart (by simp [hp])
    rw [getElem?_eq_none_iff] at hp
    simp [GlobMatches, drop_eq_nil_of_le hp, drop_of_getElem? hv]
  next b hp =>
    by_cases hb : b = asterisk
    · subst hb
      exact h.turn_star hp
    rw [if_neg (mt upper_eq_asterisk.mp hb)]
    split
    next hab =>
      obtain ⟨a, hv, hab⟩ := map_eq_some_iff.mp hab
      exact h.turn_char hv hp hb (upper_eq_iff.mp hab)
    next hab =>
      apply h.turn_restart (by simpa [hp] using hb)
      rw [drop_of_getElem? hp, globMatches_char hb]
      rintro ⟨a, v, hv, ha, -⟩
      have hget : value[s.valueIndex]? = some a := by
        rw [← Nat.add_zero s.valueIndex, ← getElem?_drop, hv, getElem?_cons_zero]
      exact hab (by simp [hget, upper_eq_iff.mpr ha])

end

theorem isStringMatchingGlobPattern_spec (value pattern : CString) :
    ∃ r, isStringMatchingGlobPattern value pattern = some r ∧
      (r = true ↔ GlobMatches value pattern) := by
  have hinit : Scan.Inv value pattern ⟨0, 0, 0, 0⟩ :=
    ⟨Nat.zero_le _, Nat.zero_le _, fun h => absurd rfl h⟩
  have hfuel : Scan.measure value pattern ⟨0, 0, 0, 0⟩ < globFuel value pattern := by
    simp only [Scan.measure, Scan.restartsLeft, globFuel, if_true, Nat.sub_zero, Nat.add_mul]
    omega
  have stay : ∀ s s' : Scan, s.Inv value pattern → globStep value pattern s = .inl s' →
      s'.Inv value pattern ∧ s'.measure value pattern < s.measure value pattern ∧
        ∀ r, (r = true ↔ s'.Pending value pattern) → (r = true ↔ s.Pending value pattern) := by
    intro s s' hs hstep
    have hturn := hs.turn
    rw [hstep] at hturn
    exact ⟨hturn.1, hturn.2.1, fun r hr => hr.trans hturn.2.2⟩
  have exit : ∀ (s : Scan) (r : Bool), s.Inv value pattern → globStep value pattern s = .inr r →
      (r = true ↔ s.Pending value pattern) := by
    intro s r hs hstep
    have hturn := hs.turn
    rwa [hstep] at hturn
  simpa [Scan.Pending, isStringMatchingGlobPattern] using
    runLoop_spec (Scan.measure value pattern) stay exit hinit hfuel

theorem isStringMatchingGlobPattern_iff :
    isStringMatchingGlobPattern value pattern = some true ↔ GlobMatches value pattern := by
  obtain ⟨r, hr, hspec⟩ := isStringMatchingGlobPattern_spec value pattern
  rw [hr, ← hspec, Option.some.injEq]

instance : DecidableRel GlobMatches := fun _ _ =>
  decidable_of_iff _ isStringMatchingGlobPattern_iff

/-- The matcher returns, and says whether the value is one that the glob stands for. -/
theorem isStringMatchingGlobPattern_eq (value pattern : CString) :
    isStringMatchingGlobPattern value pattern = some (decide (GlobMatches value pattern)) := by
  obtain ⟨r, hr, hspec⟩ := isStringMatchingGlobPattern_spec value pattern
  rw [hr, some_inj, Bool.eq_iff_iff, hspec, decide_eq_true_iff]

example : GlobMatches "mail-12.eu".toUTF8.toList "M*-*2.*".toUTF8.toList := by decide +kernel

end Dnsmasq.Pattern
