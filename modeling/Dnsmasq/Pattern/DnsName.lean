import Dnsmasq.Pattern.Glob

/-!
DNS names and DNS name patterns of `pattern.c`: the two validators, which share one scan, and
the label by label comparison of a name with a pattern.
-/
namespace Dnsmasq.Pattern

open List Option

def hyphen : UInt8 := 45

def isDigit (c : UInt8) : Bool := 48 ≤ c && c ≤ 57

def isLetter (c : UInt8) : Bool := (65 ≤ c && c ≤ 90) || (97 ≤ c && c ≤ 122)

/-- Why a name or a pattern is refused, one for each log line. -/
inductive Invalid where
  | invalidCharacter
  | emptyLabel
  | startsWithHyphen
  | wildcardsInLabel
  | endsWithHyphen
  | labelTooLong
  | notEnoughLabels
  | wildcardInFinalLabels
  | finalLabelNumeric
  | localPseudoTld
  | invalidLength
deriving DecidableEq, Repr

/-- The variables of the scan. `label` holds the bytes since `label`, none while that is
`NULL`; the wildcard counters stay untouched for a name. -/
structure NameScan where
  numBytes : ℕ := 0
  numLabels : ℕ := 0
  label : CString := []
  isLabelNumeric : Bool := true
  numWildcards : ℕ := 0
  previousLabelHasWildcard : Bool := true
deriving DecidableEq, Repr

/-- The checks at the end of a label, made at each dot and at the end of the string. -/
def NameScan.endLabel (s : NameScan) : Except Invalid NameScan :=
  if s.label = [] then .error .emptyLabel
  else if s.label.getLast? = some hyphen then .error .endsWithHyphen
  else if s.label.length - s.numWildcards > 63 then .error .labelTooLong
  else .ok { s with numLabels := s.numLabels + 1 }

/-- Wildcards do not count towards the length of a pattern. -/
def NameScan.count (s : NameScan) (c : UInt8) : NameScan :=
  if c = asterisk then s else { s with numBytes := s.numBytes + 1 }

/-- One turn of the scan at a byte of the string; `wildcards` tells a pattern from a name. -/
def NameScan.byte (wildcards : Bool) (s : NameScan) (c : UInt8) : Except Invalid NameScan := do
  if ¬(wildcards ∧ c = asterisk) ∧ c ≠ hyphen ∧ c ≠ dot ∧ ¬isDigit c ∧ ¬isLetter c then
    .error .invalidCharacter
  else
    let s := s.count c
    if c = dot then
      let s ← s.endLabel
      return { s with
        label := []
        isLabelNumeric := true
        previousLabelHasWildcard := s.numWildcards ≠ 0
        numWildcards := 0 }
    else if s.label = [] ∧ c = hyphen then .error .startsWithHyphen
    else if c = asterisk ∧ 2 ≤ s.numWildcards then .error .wildcardsInLabel
    else return { s with
      label := s.label ++ [c]
      isLabelNumeric := s.isLabelNumeric && isDigit c
      numWildcards := if c = asterisk then s.numWildcards + 1 else s.numWildcards }

def NameScan.finish (wildcards : Bool) (s : NameScan) : Except Invalid Unit := do
  let s ← s.endLabel
  if s.numLabels < 2 then .error .notEnoughLabels
  else if wildcards ∧ (s.numWildcards ≠ 0 ∨ s.previousLabelHasWildcard) then
    .error .wildcardInFinalLabels
  else if s.isLabelNumeric then .error .finalLabelNumeric
  else if foldCase s.label = "local".toUTF8.toList then .error .localPseudoTld
  else if s.numBytes < 1 ∨ 253 < s.numBytes then .error .invalidLength
  else return ()

def NameScan.run (wildcards : Bool) : NameScan → CString → Except Invalid Unit
  | s, [] => s.finish wildcards
  | s, c :: cs => do
    let s ← s.byte wildcards c
    s.run wildcards cs

def isValidDnsName (value : CString) : Except Invalid Unit := NameScan.run false {} value

def isValidDnsNamePattern (value : CString) : Except Invalid Unit := NameScan.run true {} value

/-- The `do … while` loop; `n` and `p` are what is left of the name and of the pattern. The
result is computed from where they stop, also when the loop was left by the `break`. -/
def matchLabels : ℕ → CString → CString → Option Bool
  | 0, _, _ => none
  | fuel + 1, n, p => do
    let nameLabel := n.takeWhile (· ≠ dot)
    let n := n.dropWhile (· ≠ dot)
    let patternLabel := p.takeWhile (· ≠ dot)
    let p := p.dropWhile (· ≠ dot)
    if ← isStringMatchingGlobPattern nameLabel patternLabel then
      let n := n.tail
      let p := p.tail
      if n ≠ [] ∧ p ≠ [] then matchLabels fuel n p
      else return n.isEmpty && p.isEmpty
    else return n.isEmpty && p.isEmpty

def isDnsNameMatchingPattern (name pattern : CString) : Option Bool :=
  matchLabels (name.length + 1) name pattern

def labels (s : CString) : List CString := s.splitOn dot

/-- Same number of labels, and each one matches the one at its place in the pattern. -/
def LabelsMatch (name pattern : CString) : Prop :=
  List.Forall₂ GlobMatches (labels name) (labels pattern)

def finalLabel (s : CString) : CString := (labels s).getLastD []

variable {l : CString} {s s' : NameScan} {wildcards : Bool}

theorem labels_of_notMem (h : dot ∉ l) : labels l = [l] :=
  splitOn_eq_singleton h

theorem labels_append_dot (h : dot ∉ l) (s : CString) : labels (l ++ dot :: s) = l :: labels s :=
  splitOn_append_cons_self_of_not_mem h s

theorem labels_ne_nil (s : CString) : labels s ≠ [] := splitOn_ne_nil _ _

theorem labels_cases (s : CString) :
    s.dropWhile (· ≠ dot) = [] ∧ labels s = [s.takeWhile (· ≠ dot)] ∨
      ∃ rest, s.dropWhile (· ≠ dot) = dot :: rest ∧
        labels s = s.takeWhile (· ≠ dot) :: labels rest ∧ rest.length < s.length := by
  induction s with
  | nil => exact .inl ⟨rfl, rfl⟩
  | cons c s ih =>
    by_cases hc : c = dot
    · subst hc
      exact .inr ⟨s, by simp, by simpa using labels_append_dot (not_mem_nil) s, by simp⟩
    have hl : labels (c :: s) = (labels s).modifyHead (c :: ·) := by
      simp [labels, splitOn_cons_eq_if_modifyHead, hc]
    rw [hl, dropWhile_cons_of_pos (by simpa using hc),
      takeWhile_cons_of_pos (by simpa using hc)]
    obtain ⟨hd, hs⟩ | ⟨rest, hd, hs, hlt⟩ := ih
    · exact .inl ⟨hd, by rw [hs]; rfl⟩
    · exact .inr ⟨rest, hd, by rw [hs]; rfl, by simp; omega⟩

/-- A label as far as it is checked before it ends. -/
@[mk_iff] structure Begun (l : CString) : Prop where
  chars : ∀ c ∈ l, isLetter c ∨ isDigit c ∨ c = hyphen ∨ c = asterisk
  head : l.head? ≠ some hyphen
  wildcards : l.count asterisk ≤ 2

/-- A label of a pattern; one without wildcards is a label of a name. -/
structure IsLabel (l : CString) : Prop extends Begun l where
  ne_nil : l ≠ []
  last : l.getLast? ≠ some hyphen
  length : l.length - l.count asterisk ≤ 63

/-- What is asked of all the labels, and of their length `n` with the dots and without the
wildcards. -/
@[mk_iff] structure AreLabels (ls : List CString) (n : ℕ) : Prop where
  two : 2 ≤ ls.length
  wildcards : ∀ l ∈ ls.reverse.take 2, asterisk ∉ l
  numeric : (ls.getLastD []).all isDigit = false
  notLocal : foldCase (ls.getLastD []) ≠ "local".toUTF8.toList
  length : n ≤ 253

def IsDnsNamePattern (value : CString) : Prop :=
  (∀ l ∈ labels value, IsLabel l) ∧ AreLabels (labels value) (value.length - value.count asterisk)

/-- The scan at a place in a label, after the labels `done`. -/
def NameScan.after (n : ℕ) (done : List CString) (l : CString) : NameScan where
  numBytes := n
  numLabels := done.length
  label := l
  isLabelNumeric := l.all isDigit
  numWildcards := l.count asterisk
  previousLabelHasWildcard := done.getLast?.all fun l => l.count asterisk ≠ 0

variable {n : ℕ} {done : List CString} {c : UInt8} {cs : CString}

theorem check_iff {p : Prop} [Decidable p] {e : Invalid} {α : Type} {x : Except Invalid α} {r : α} :
    (if p then .error e else x) = .ok r ↔ ¬p ∧ x = .ok r := by
  split_ifs with h <;> simp [h]

theorem bind_iff {α β : Type} {x : Except Invalid α} {f : α → Except Invalid β} {r : β} :
    (x >>= f) = .ok r ↔ ∃ a, x = .ok a ∧ f a = .ok r := by
  cases x <;> simp [bind, Except.bind]

theorem Begun.dot_notMem (h : Begun l) : dot ∉ l := by
  intro hmem
  have := h.chars dot hmem
  revert this
  decide

theorem Begun.of_append (h : Begun (l ++ cs)) : Begun l := by
  refine ⟨fun c hc => h.chars c (mem_append_left cs hc), fun hl => h.head ?_, ?_⟩
  · rw [head?_append, hl, some_or]
  · have := h.wildcards
    rw [count_append] at this
    omega

theorem Begun.endLabel_iff (h : Begun l) {s : NameScan} :
    (NameScan.after n done l).endLabel = .ok s ↔
      IsLabel l ∧ { NameScan.after n done l with numLabels := done.length + 1 } = s := by
  unfold NameScan.endLabel
  rw [check_iff, check_iff, check_iff, Except.ok.injEq]
  exact ⟨fun ⟨h1, h2, h3, h4⟩ => ⟨⟨h, h1, h2, le_of_not_gt h3⟩, h4⟩,
    fun ⟨hl, h4⟩ => ⟨hl.ne_nil, hl.last, hl.length.not_gt, h4⟩⟩

theorem Begun.finish_iff (h : Begun l) (hn : done ≠ [] → 1 ≤ n) :
    (NameScan.after n done l).finish true = .ok () ↔ IsLabel l ∧ AreLabels (done ++ [l]) n := by
  unfold NameScan.finish
  simp only [bind_iff, h.endLabel_iff, and_assoc, exists_and_left, exists_eq_left']
  rw [check_iff, check_iff, check_iff, check_iff, areLabels_iff]
  obtain rfl | ⟨L, b, rfl⟩ := eq_nil_or_concat' done
  · simp
  · have hn := hn (by simp)
    simp [NameScan.after, pure, Except.pure, count_eq_zero, Nat.one_le_iff_ne_zero.mp hn]

theorem Begun.dot_iff (h : Begun l) : (NameScan.after n done l).run true (dot :: cs) = .ok () ↔
    IsLabel l ∧ (NameScan.after (n + 1) (done ++ [l]) []).run true cs = .ok () := by
  have hcount : (NameScan.after n done l).count dot = NameScan.after (n + 1) done l := rfl
  rw [NameScan.run, bind_iff, NameScan.byte, if_neg (by decide)]
  simp only [if_true, hcount, bind_iff, h.endLabel_iff, and_assoc, exists_and_left, exists_eq_left']
  simp [NameScan.after, pure, Except.pure]

theorem Begun.concat_iff (h : Begun l) : Begun (l ++ [c]) ↔
    (isLetter c ∨ isDigit c ∨ c = hyphen ∨ c = asterisk) ∧ (l = [] → c ≠ hyphen) ∧
      (c = asterisk → l.count asterisk ≤ 1) := by
  have hhead : (l ++ [c]).head? ≠ some hyphen ↔ (l = [] → c ≠ hyphen) := by
    cases l with
    | nil => simp
    | cons b l => simpa using h.head
  have hcount : (l ++ [c]).count asterisk ≤ 2 ↔ (c = asterisk → l.count asterisk ≤ 1) := by
    have := h.wildcards
    by_cases hc : c = asterisk <;> simp [hc, this]
  rw [begun_iff, hhead, hcount, forall_mem_append, and_iff_right h.chars, forall_mem_singleton]

theorem Begun.byte_iff (h : Begun l) (hc : c ≠ dot) : (NameScan.after n done l).run true
    (c :: cs) = .ok () ↔
    Begun (l ++ [c]) ∧ (NameScan.after (n + if c = asterisk then 0 else 1) done (l ++ [c])).run true
    cs = .ok () := by
  rw [NameScan.run, bind_iff, NameScan.byte, h.concat_iff]
  simp only [check_iff, hc, if_false]
  by_cases hstar : c = asterisk
  · subst hstar
    simp [NameScan.after, NameScan.count, pure, Except.pure]
  · simp [NameScan.after, NameScan.count, hstar, hc, pure, Except.pure]
    grind

theorem mem_labels (h : dot ∉ l) (cs : CString) : l ++ cs.takeWhile (· ≠ dot) ∈ labels
    (l ++ cs) := by
  have htake : (l ++ cs).takeWhile (· ≠ dot) = l ++ cs.takeWhile (· ≠ dot) := by
    apply takeWhile_append_of_pos
    intro a ha
    simpa using ne_of_mem_of_not_mem ha h
  rw [← htake]
  obtain ⟨-, hl⟩ | ⟨rest, -, hl, -⟩ := labels_cases (l ++ cs) <;> simp [hl]

/-- From a place in a label on, the scan accepts the labels of the grammar. -/
theorem Begun.run_iff (h : Begun l) (hn : done ≠ [] → 1 ≤ n) :
    (NameScan.after n done l).run true cs = .ok () ↔ (∀ x ∈ labels (l ++ cs), IsLabel x) ∧
      AreLabels (done ++ labels (l ++ cs)) (n + (cs.length - cs.count asterisk)) := by
  induction cs generalizing n done l with
  | nil => simpa [NameScan.run, labels_of_notMem h.dot_notMem] using h.finish_iff hn
  | cons c cs ih =>
    have hle : cs.count asterisk ≤ cs.length := count_le_length
    by_cases hc : c = dot
    · subst hc
      have hcount : (dot :: cs).length - (dot :: cs).count asterisk = 1 +
          (cs.length - cs.count asterisk) := by
        rw [count_cons_of_ne (by decide), length_cons]
        omega
      rw [h.dot_iff, ih ⟨by simp, by simp, by simp⟩ fun _ => Nat.le_add_left 1 n,
        labels_append_dot h.dot_notMem, hcount]
      simp [and_assoc, Nat.add_assoc]
    rw [h.byte_iff hc]
    by_cases hb : Begun (l ++ [c])
    · have hcount : n + ((c :: cs).length - (c :: cs).count asterisk) =
          n + (if c = asterisk then 0 else 1) + (cs.length - cs.count asterisk) := by
        by_cases hstar : c = asterisk <;> simp [hstar]
        omega
      rw [and_iff_right hb, ih hb fun hd => (hn hd).trans (Nat.le_add_right n _), hcount]
      simp
    · refine iff_of_false (fun h => hb h.1) fun hall => hb ?_
      have hfirst := hall.1 _ (mem_labels h.dot_notMem (c :: cs))
      rw [takeWhile_cons_of_pos (by simpa using hc), ← singleton_append, ← append_assoc] at hfirst
      exact hfirst.toBegun.of_append

theorem NameScan.eq_of_endLabel (h : s.endLabel = .ok s') :
    { s with numLabels := s.numLabels + 1 } = s' := by
  rw [NameScan.endLabel, check_iff, check_iff, check_iff, Except.ok.injEq] at h
  exact h.2.2.2

/-- No wildcard was seen. -/
structure NameScan.Plain (s : NameScan) : Prop where
  current : s.numWildcards = 0
  previous : s.numLabels ≠ 0 → s.previousLabelHasWildcard = false

theorem NameScan.Plain.byte (h : s.Plain) (hc : c ≠ asterisk) (hs : s.byte wildcards c = .ok s') :
    s'.Plain := by
  have hcount : s.count c = { s with numBytes := s.numBytes + 1 } := if_neg hc
  rw [NameScan.byte, check_iff, hcount] at hs
  by_cases hdot : c = dot
  · simp only [hdot, if_true, bind_iff] at hs
    obtain ⟨-, t, ht, hs⟩ := hs
    cases hs
    rw [← eq_of_endLabel ht]
    exact ⟨rfl, fun _ => by simp [h.current]⟩
  · simp only [hdot, if_false, check_iff, hc] at hs
    cases hs.2.2.2
    exact ⟨h.current, h.previous⟩

theorem NameScan.Plain.run_iff (h : s.Plain) : s.run false cs = .ok () ↔ s.run true cs = .ok () ∧
    asterisk ∉ cs := by
  induction cs generalizing s with
  | nil =>
    rw [NameScan.run, NameScan.run, NameScan.finish, NameScan.finish, bind_iff, bind_iff,
      and_iff_left not_mem_nil]
    refine exists_congr fun t => and_congr_right fun ht => ?_
    rw [← eq_of_endLabel ht]
    by_cases hfirst : s.numLabels = 0
    · simp [hfirst]
    · simp [h.current, h.previous hfirst]
  | cons c cs ih =>
    rw [NameScan.run, NameScan.run, bind_iff, bind_iff]
    by_cases hc : c = asterisk
    · subst hc
      have herr : s.byte false asterisk = .error .invalidCharacter := by
        rw [NameScan.byte, if_pos (by decide)]
      simp [herr]
    · have heq : s.byte true c = s.byte false c := by simp [NameScan.byte, hc]
      rw [heq, mem_cons, not_or, and_iff_right (Ne.symm hc), ← exists_and_right]
      refine exists_congr fun t => ?_
      rw [and_assoc]
      exact and_congr_right fun ht => ih (h.byte hc ht)

theorem runTrue_iff (value : CString) : NameScan.run true {} value = .ok () ↔
    IsDnsNamePattern value := by
  have hbegun : Begun [] := ⟨by simp, by simp, by simp⟩
  have hrun : (NameScan.after 0 [] []).run true value = .ok () ↔ _ := hbegun.run_iff (by simp)
  rw [Nat.zero_add] at hrun
  exact hrun

theorem runFalse_iff (value : CString) :
    NameScan.run false {} value = .ok () ↔ IsDnsNamePattern value ∧ asterisk ∉ value := by
  rw [← runTrue_iff]
  exact NameScan.Plain.run_iff ⟨rfl, fun h => absurd rfl h⟩

/-- The two validators accept exactly the names and the patterns of the grammar. -/
theorem isValidDnsName_iff (value : CString) :
    (isValidDnsNamePattern value = .ok () ↔ IsDnsNamePattern value) ∧
      (isValidDnsName value = .ok () ↔ IsDnsNamePattern value ∧ asterisk ∉ value) :=
  ⟨runTrue_iff value, runFalse_iff value⟩

/-- The comparison always returns, and returns 1 when as many labels are left on both sides
and all but the last match: a `break` at the last one leaves both pointers at their ends. -/
theorem matchLabels_spec {fuel : ℕ} {n p : CString} (hn : ∀ l ∈ labels n, l ≠ [])
    (hp : ∀ l ∈ labels p, l ≠ []) (hfuel : n.length < fuel) : ∃ r, matchLabels fuel n p = some r ∧
      (r = true ↔ List.Forall₂ GlobMatches (labels n).dropLast (labels p).dropLast) := by
  induction fuel generalizing n p with
  | zero => omega
  | succ fuel ih =>
    obtain ⟨m, hm, hspec⟩ :=
      isStringMatchingGlobPattern_spec (n.takeWhile (· ≠ dot)) (p.takeWhile (· ≠ dot))
    simp only [matchLabels, hm, bind_eq_bind, bind_some]
    have hne : ∀ {s s' : CString}, (∀ l ∈ labels s, l ≠ []) →
        labels s = s.takeWhile (· ≠ dot) :: labels s' → s' ≠ [] ∧ ∀ l ∈ labels s', l ≠ [] := by
      rintro s s' hs hl
      have hs' : ∀ l ∈ labels s', l ≠ [] := fun l h => hs l (by simp [hl, h])
      exact ⟨by rintro rfl; simp [labels] at hs', hs'⟩
    obtain ⟨hnd, hnl⟩ | ⟨n', hnd, hnl, hlt⟩ := labels_cases n <;>
      obtain ⟨hpd, hpl⟩ | ⟨p', hpd, hpl, -⟩ := labels_cases p
    · -- the last label of both: the result does not depend on the comparison
      rw [hnd, hpd, hnl, hpl]
      cases m <;> simp
    · rw [hnd, hpd, hnl, hpl]
      refine ⟨false, by cases m <;> simp [(hne hp hpl).1], ?_⟩
      simp [dropLast_cons_of_ne_nil (labels_ne_nil p')]
    · rw [hnd, hpd, hnl, hpl]
      refine ⟨false, by cases m <;> simp [(hne hn hnl).1], ?_⟩
      simp [dropLast_cons_of_ne_nil (labels_ne_nil n')]
    obtain ⟨hn', hnall⟩ := hne hn hnl
    obtain ⟨hp', hpall⟩ := hne hp hpl
    rw [hnd, hpd, hnl, hpl, dropLast_cons_of_ne_nil (labels_ne_nil n'),
      dropLast_cons_of_ne_nil (labels_ne_nil p'), forall₂_cons, ← hspec]
    cases m with
    | false => exact ⟨false, by simp, by simp⟩
    | true =>
      obtain ⟨r, hr, hr'⟩ := ih hnall hpall (by omega)
      exact ⟨r, by simpa [hn', hp'] using hr, by simpa using hr'⟩

/-- The result agrees with the comparison of all labels exactly where the final label does
not decide: it is never looked at when everything before it agrees. -/
theorem isDnsNameMatchingPattern_iff_labelsMatch {name pattern : CString}
    (hn : isValidDnsName name = .ok ()) (hp : isValidDnsNamePattern pattern = .ok ()) :
    ∃ r, isDnsNameMatchingPattern name pattern = some r ∧ ((r = true ↔ LabelsMatch name pattern) ↔
        (List.Forall₂ GlobMatches (labels name).dropLast (labels pattern).dropLast →
          GlobMatches (finalLabel name) (finalLabel pattern))) := by
  obtain ⟨r, hr, hspec⟩ :=
    matchLabels_spec (fun l hl => (((runFalse_iff name).mp hn).1.1 l hl).ne_nil)
      (fun l hl => (((runTrue_iff pattern).mp hp).1 l hl).ne_nil) (Nat.lt_succ_self _)
  refine ⟨r, hr, ?_⟩
  have hlast : ∀ s, labels s = (labels s).dropLast ++ [finalLabel s] := fun s => by
    rw [finalLabel, getLastD_eq_getLast?, getLast?_eq_some_getLast (labels_ne_nil s),
      getD_some, dropLast_concat_getLast]
  have hall : LabelsMatch name pattern ↔
      List.Forall₂ GlobMatches (labels name).dropLast (labels pattern).dropLast ∧
        GlobMatches (finalLabel name) (finalLabel pattern) := by
    rw [LabelsMatch, hlast name, hlast pattern, ← forall₂_reverse_iff, and_comm]
    simp
  tauto

theorem isDnsNameMatchingPattern_subdomain :
    isValidDnsName "www.example.com".toUTF8.toList = .ok () ∧
    isValidDnsNamePattern "*.Example.com".toUTF8.toList = .ok () ∧
    ∃ r, isDnsNameMatchingPattern "www.example.com".toUTF8.toList "*.Example.com".toUTF8.toList
      = some r ∧
      (r = true ↔ LabelsMatch "www.example.com".toUTF8.toList "*.Example.com".toUTF8.toList) := by
  have hn : isValidDnsName "www.example.com".toUTF8.toList = .ok () := by decide +kernel
  have hp : isValidDnsNamePattern "*.Example.com".toUTF8.toList = .ok () := by decide +kernel
  obtain ⟨r, hr, h⟩ := isDnsNameMatchingPattern_iff_labelsMatch hn hp
  exact ⟨hn, hp, r, hr, h.mpr fun _ => by decide +kernel⟩

/-- The final labels `org` and `com` differ, and the name is still accepted. -/
theorem isDnsNameMatchingPattern_otherTld : isValidDnsName "example.org".toUTF8.toList = .ok () ∧
    isValidDnsNamePattern "example.com".toUTF8.toList = .ok () ∧
    isDnsNameMatchingPattern "example.org".toUTF8.toList "example.com".toUTF8.toList = some true ∧
    ¬LabelsMatch "example.org".toUTF8.toList "example.com".toUTF8.toList := by
  refine ⟨by decide +kernel, by decide +kernel, by decide +kernel, ?_⟩
  unfold LabelsMatch
  decide +kernel

end Dnsmasq.Pattern
