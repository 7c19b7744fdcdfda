import Mathlib.Data.List.TakeWhile
import Dnsmasq.Util.Hostname

/-!
Numbers and octet strings as the lease file has them: what `printf` writes for `%lu` and
`%.2x`, what `atol` and `strtoul` read, and `parse_hex` of `util.c`.
-/
namespace Dnsmasq.LeaseFile

open List

abbrev Bytes := List UInt8

def isSpace (c : UInt8) : Bool := c == 32 || (9 ≤ c && c ≤ 13)

def isDigit (c : UInt8) : Bool := 48 ≤ c && c ≤ 57

def star : UInt8 := 42
def colon : UInt8 := 58
def hyphen : UInt8 := 45

def decimal (n : ℕ) : CString :=
  if n = 0 then [48] else ((Nat.digits 10 n).map fun d => UInt8.ofNat (48 + d)).reverse

def leadingNumber (s : CString) : ℕ :=
    (s.takeWhile isDigit).foldl (fun n c => n * 10 + (c.toNat - 48)) 0

def sign : CString → Bool × CString
  | 45 :: s => (true, s)
  | 43 :: s => (false, s)
  | s => (false, s)

/-- A `long`, taken as an `unsigned long`. -/
def atol (s : CString) : ℕ :=
  let (negative, s) := sign s
  if negative then (2 ^ 64 - min (leadingNumber s) (2 ^ 63)) % 2 ^ 64
    else min (leadingNumber s) (2 ^ 63 - 1)

def strtoul (s : CString) : ℕ :=
  let (negative, s) := sign s
  if negative then (2 ^ 64 - min (leadingNumber s) (2 ^ 64 - 1)) % 2 ^ 64
    else min (leadingNumber s) (2 ^ 64 - 1)

def hexDigit (n : ℕ) : UInt8 := if n < 10 then UInt8.ofNat (48 + n) else UInt8.ofNat (87 + n)

def hexByte (b : UInt8) : CString := [hexDigit (b.toNat / 16), hexDigit (b.toNat % 16)]

/-- A number in two digits at least. -/
def hexText (n : ℕ) : CString :=
  let digits := Nat.digits 16 n
  ((digits ++ replicate (2 - digits.length) 0).map hexDigit).reverse

def colonHex : Bytes → CString
  | [] => []
  | [b] => hexByte b
  | b :: bs => hexByte b ++ colon :: colonHex bs

def hexValue (c : UInt8) : Option ℕ :=
  if isDigit c then some (c.toNat - 48)
  else if 97 ≤ c && c ≤ 102 then some (c.toNat - 87)
  else if 65 ≤ c && c ≤ 70 then some (c.toNat - 55)
  else none

def isXdigit (c : UInt8) : Bool := (hexValue c).isSome

def strtol16 (s : CString) : ℕ :=
  (s.takeWhile isXdigit).foldl (fun n c => n * 16 + (hexValue c).getD 0) 0

def isSep (c : UInt8) : Bool := c == colon || c == hyphen || c == 32

def hexRuns : CString → CString → List (CString × Option UInt8)
  | [], run => [(run.reverse, none)]
  | c :: s, run => if isSep c then (run.reverse, some c) :: hexRuns s [] else hexRuns s (c :: run)

def pairs : CString → List CString
  | [] => []
  | [a] => [[a]]
  | a :: b :: s => [a, b] :: pairs s

/-- The octets so far and the hardware type, if one is still expected. -/
structure HexState where
  out : Bytes := []
  macType : ℕ := 0
  pending : Bool

/-- For a `*` nothing is written. The octets replace the text they come from, so that this
leaves what is there: a character, or the NUL that replaced a separator. -/
def untouched (text : CString) (i : ℕ) : UInt8 :=
  match text[i]? with
  | some c => if isSep c then 0 else c
  | none => 0

def hexRun (text : CString) (maxlen : ℕ) (st : HexState) (run : CString × Option UInt8) :
    Option HexState :=
  let octets := (pairs run.1).take (maxlen - st.out.length)
  if run.1.any fun c => c != star && !isXdigit c then none
  else if run.1.isEmpty then some st
  else if run.2 == some hyphen && st.out.isEmpty && st.pending then
    some { st with macType := strtol16 run.1, pending := false }
  else if run.1 == [star] then some { st with out := st.out ++ [untouched text st.out.length] }
  else if octets.any (·.contains star) then none
  else some { st with out := st.out ++ octets.map fun p => UInt8.ofNat (strtol16 p) }

def hexLoop (text : CString) (maxlen : ℕ) : List (CString × Option UInt8) → HexState →
    Option HexState
  | [], st => some st
  | run :: runs, st =>
    if st.out.length < maxlen then (hexRun text maxlen st run).bind (hexLoop text maxlen runs)
      else some st

/-- The octets and, if `mac` is set, the hardware type before them. -/
def parseHex (maxlen : ℕ) (mac : Bool) (text : CString) : Option (Bytes × ℕ) :=
  (hexLoop text maxlen (hexRuns text []) { pending := mac }).map fun st => (st.out, st.macType)

variable {n k maxlen : ℕ} {c : UInt8} {bs : Bytes} {st st' : HexState} {text : CString}
    {run : CString × Option UInt8}

theorem isDigit_of_mem_decimal (h : c ∈ decimal n) : isDigit c = true := by
  unfold decimal at h
  split at h
  · cases mem_singleton.mp h
    rfl
  · obtain ⟨d, hd, rfl⟩ := mem_map.mp (mem_reverse.mp h)
    have hlt : d < 10 := Nat.digits_lt_base (by norm_num) hd
    interval_cases d <;> rfl

theorem decimal_ne_nil (n : ℕ) : decimal n ≠ [] := by
  unfold decimal
  split
  · simp
  · rename_i h
    simpa using Nat.digits_ne_nil_iff_ne_zero.mpr h

theorem length_decimal_le (h : n < 10 ^ k) (hk : 0 < k) : (decimal n).length ≤ k := by
  unfold decimal
  split
  · exact hk
  · rw [length_reverse, length_map]
    exact (Nat.digits_length_le_iff (by norm_num) n).mpr h

theorem foldl_digits (l : List ℕ) (h : ∀ d ∈ l, d < 10) :
    ((l.map fun d => UInt8.ofNat (48 + d)).reverse).foldl (fun n c => n * 10 + (c.toNat - 48)) 0 =
      Nat.ofDigits 10 l := by
  rw [foldl_reverse]
  induction l with
  | nil => rfl
  | cons d l ih =>
    have hd : d < 10 := h d mem_cons_self
    have hval : (UInt8.ofNat (48 + d)).toNat - 48 = d := by
      interval_cases d <;> rfl
    rw [map_cons, foldr_cons, ih fun x hx => h x (mem_cons_of_mem d hx), Nat.ofDigits_cons, hval]
    ring

@[simp] theorem leadingNumber_decimal (n : ℕ) : leadingNumber (decimal n) = n := by
  have hall : (decimal n).takeWhile isDigit = decimal n :=
    takeWhile_eq_self_iff.mpr fun c hc => isDigit_of_mem_decimal hc
  rw [leadingNumber, hall]
  unfold decimal
  split
  · rename_i h
    simp [h]
  · rw [foldl_digits _ fun d hd => Nat.digits_lt_base (by norm_num) hd, Nat.ofDigits_digits]

theorem sign_decimal (n : ℕ) : sign (decimal n) = (false, decimal n) := by
  cases h : decimal n with
  | nil => exact absurd h (decimal_ne_nil n)
  | cons c s =>
    have hc : isDigit c = true := isDigit_of_mem_decimal (h ▸ mem_cons_self)
    unfold sign
    split
    · rename_i heq
      cases heq
      cases hc
    · rename_i heq
      cases heq
      cases hc
    · rfl

theorem atol_decimal (h : n < 2 ^ 63) : atol (decimal n) = n := by
  simp only [atol, sign_decimal, leadingNumber_decimal, Bool.false_eq_true, if_false]
  omega

theorem strtoul_decimal (h : n < 2 ^ 64) : strtoul (decimal n) = n := by
  simp only [strtoul, sign_decimal, leadingNumber_decimal, Bool.false_eq_true, if_false]
  omega

def plainHex (c : UInt8) : Bool := isXdigit c && !isSep c && c != star && !isSpace c && c != 117

set_option maxRecDepth 20000 in
theorem hexByte_spec (b : UInt8) :
    (hexByte b).all plainHex = true ∧ strtol16 (hexByte b) = b.toNat := by
  have hall : ∀ n : Fin 256, (hexByte (UInt8.ofNat n)).all plainHex = true ∧
      strtol16 (hexByte (UInt8.ofNat n)) = (UInt8.ofNat n).toNat := by
    decide
  have hb := hall ⟨b.toNat, b.toNat_lt⟩
  rwa [UInt8.ofNat_toNat] at hb

theorem plainHex_of_mem {b : UInt8} (h : c ∈ hexByte b) : plainHex c = true :=
  all_eq_true.mp (hexByte_spec b).1 c h

theorem hexDigit_spec {d : ℕ} (h : d < 16) :
    plainHex (hexDigit d) = true ∧ hexValue (hexDigit d) = some d := by
  interval_cases d <;> exact ⟨rfl, rfl⟩

theorem isXdigit_of_plainHex (h : plainHex c = true) : isXdigit c = true := by
  simp only [plainHex, Bool.and_eq_true] at h
  exact h.1.1.1.1

theorem lt_of_mem_digits16 {d : ℕ} (h : d ∈ Nat.digits 16 n ++ replicate k 0) : d < 16 := by
  rcases mem_append.mp h with h | h
  · exact Nat.digits_lt_base (by norm_num) h
  · rw [eq_of_mem_replicate h]
    norm_num

theorem plainHex_of_mem_hexText (h : c ∈ hexText n) : plainHex c = true := by
  obtain ⟨d, hd, rfl⟩ := mem_map.mp (mem_reverse.mp h)
  exact (hexDigit_spec (lt_of_mem_digits16 hd)).1

theorem strtol16_hexText (n : ℕ) : strtol16 (hexText n) = n := by
  have hall : (hexText n).takeWhile isXdigit = hexText n :=
    takeWhile_eq_self_iff.mpr fun c hc => isXdigit_of_plainHex (plainHex_of_mem_hexText hc)
  have hfold : ∀ l : List ℕ, (∀ d ∈ l, d < 16) →
      (l.map hexDigit).foldr (fun c n => n * 16 + (hexValue c).getD 0) 0 = Nat.ofDigits 16 l := by
    intro l hl
    induction l with
    | nil => rfl
    | cons d l ih =>
      obtain ⟨hd, hl⟩ := forall_mem_cons.mp hl
      rw [map_cons, foldr_cons, ih hl, Nat.ofDigits_cons, (hexDigit_spec hd).2, Option.getD_some]
      ring
  rw [strtol16, hall, hexText, foldl_reverse, hfold _ fun d => lt_of_mem_digits16,
    Nat.ofDigits_append_replicate_zero, Nat.ofDigits_digits]

theorem length_hexText (n : ℕ) : (hexText n).length = max 2 (Nat.digits 16 n).length := by
  simp only [hexText, length_reverse, length_map, length_append, length_replicate]
  omega

theorem hexText_ne_nil (n : ℕ) : hexText n ≠ [] := fun e => by
  have hlen := length_hexText n
  rw [e, length_nil] at hlen
  omega

theorem colonHex_cons (b : UInt8) (bs : Bytes) :
    colonHex (b :: bs) = hexByte b ++ if bs.isEmpty then [] else colon :: colonHex bs := by
  cases bs with
  | nil => exact (append_nil _).symm
  | cons b' bs => rfl

theorem mem_colonHex (h : c ∈ colonHex bs) : plainHex c = true ∨ c = colon := by
  induction bs with
  | nil => cases h
  | cons b bs ih =>
    rw [colonHex_cons] at h
    rcases mem_append.mp h with h | h
    · exact .inl (plainHex_of_mem h)
    split at h
    · cases h
    · rcases mem_cons.mp h with rfl | h
      · exact .inr rfl
      · exact ih h

theorem colonHex_ne_nil (h : bs ≠ []) : colonHex bs ≠ [] := by
  cases bs with
  | nil => exact absurd rfl h
  | cons b bs => simp [colonHex_cons, hexByte]

theorem length_colonHex (bs : Bytes) : (colonHex bs).length = 3 * bs.length - 1 := by
  induction bs with
  | nil => rfl
  | cons b bs ih =>
    rw [colonHex_cons]
    cases bs with
    | nil => rfl
    | cons b' bs =>
      simp only [isEmpty_cons, Bool.false_eq_true, if_false, length_append,
        length_cons, ih, hexByte, length_nil]
      omega

theorem hexRuns_append {w : CString} (hw : ∀ c ∈ w, isSep c = false) (s run : CString) :
    hexRuns (w ++ s) run = hexRuns s (w.reverse ++ run) := by
  induction w generalizing run with
  | nil => rfl
  | cons c w ih =>
    have hc : isSep c = false := hw c mem_cons_self
    simp [hexRuns, hc, ih fun x hx => hw x (mem_cons_of_mem c hx)]

theorem not_isSep_of_plainHex (h : plainHex c = true) : isSep c = false := by
  simp only [plainHex, Bool.and_eq_true, Bool.not_eq_true'] at h
  exact h.1.1.1.2

theorem hexRuns_hexByte (b : UInt8) (s : CString) : hexRuns (hexByte b ++ s) [] = hexRuns s
    (hexByte b).reverse := by
  have h :=
    hexRuns_append (w := hexByte b) (fun c hc => not_isSep_of_plainHex (plainHex_of_mem hc)) s []
  rwa [append_nil] at h

theorem hexRun_hexByte (text : CString) (h : st.out.length < maxlen) (b : UInt8)
    {sep : Option UInt8} (hsep : sep ≠ some hyphen) :
    hexRun text maxlen st (hexByte b, sep) = some { st with out := st.out ++ [b] } := by
  have hplain := all_eq_true.mp (hexByte_spec b).1
  have hlegal : ((hexByte b).any fun c => c != star && !isXdigit c) = false := by
    refine any_eq_false.mpr fun c hc => ?_
    have hc := hplain c hc
    simp only [plainHex, Bool.and_eq_true] at hc
    simp [hc.1.1.1.1]
  have hstar : star ∉ hexByte b := fun hc => by cases hplain star hc
  have htake : (pairs (hexByte b)).take (maxlen - st.out.length) = [hexByte b] :=
    take_of_length_le (Nat.sub_pos_of_lt h)
  have hsep' : (sep == some hyphen) = false := by simpa using hsep
  have hne : (hexByte b == [star]) = false := by simp [hexByte]
  have hempty : (hexByte b).isEmpty = false := rfl
  simp [hexRun, hlegal, htake, hstar, hsep', hne, hempty, (hexByte_spec b).2]

theorem hexLoop_cons (h : st.out.length < maxlen)
    (hrun : hexRun text maxlen st run = some st') (runs : List (CString × Option UInt8)) :
    hexLoop text maxlen (run :: runs) st = hexLoop text maxlen runs st' := by
  rw [hexLoop, if_pos h, hrun, Option.bind_some]

theorem hexLoop_end (text : CString) (maxlen : ℕ) (st : HexState) :
    hexLoop text maxlen (hexRuns [] []) st = some st := by
  by_cases hlen : st.out.length < maxlen
  · exact hexLoop_cons hlen rfl []
  · exact if_neg hlen

theorem hexLoop_colonHex (text : CString) (maxlen : ℕ) (bs : Bytes) {st : HexState} (hbs : bs ≠ [])
    (h : st.out.length + bs.length ≤ maxlen) (tail : CString) (htail : tail = [] ∨ tail = [colon]) :
    hexLoop text maxlen (hexRuns (colonHex bs ++ tail) []) st =
    some { st with out := st.out ++ bs } := by
  induction bs generalizing st with
  | nil => exact absurd rfl hbs
  | cons b bs ih =>
    have hlt : st.out.length < maxlen := by
      simp only [length_cons] at h
      omega
    have hcolon := hexRun_hexByte text hlt b (by decide : some colon ≠ some hyphen)
    rw [colonHex_cons, append_assoc, hexRuns_hexByte]
    cases bs with
    | nil =>
      simp only [isEmpty_nil, if_true, nil_append]
      rcases htail with rfl | rfl
      · exact hexLoop_cons hlt (hexRun_hexByte text hlt b (by decide : none ≠ some hyphen)) []
      · rw [hexRuns, if_pos (by decide), reverse_reverse, hexLoop_cons hlt hcolon]
        exact hexLoop_end text maxlen _
    | cons b' bs =>
      simp only [isEmpty_cons, Bool.false_eq_true, if_false, cons_append]
      rw [hexRuns, if_pos (by decide), reverse_reverse, hexLoop_cons hlt hcolon, ih nofun (by
        simp only [length_cons, length_append, length_nil] at h ⊢
        omega)]
      simp

theorem parseHex_colonHex {maxlen : ℕ} {bs : Bytes} (hbs : bs ≠ []) (h : bs.length ≤
    maxlen) (mac : Bool)
    {tail : CString} (htail : tail = [] ∨ tail = [colon]) :
    parseHex maxlen mac (colonHex bs ++ tail) = some (bs, 0) := by
  have hloop := @hexLoop_colonHex (colonHex bs ++ tail) maxlen bs { pending := mac }
    hbs (by simpa using h) tail htail
  simp [parseHex, hloop]

theorem parseHex_hyphen (hmax : 0 < maxlen) (n : ℕ) (h : bs.length ≤ maxlen) :
    parseHex maxlen true (hexText n ++ hyphen :: colonHex bs) = some (bs, n) := by
  have hlegal : ((hexText n).any fun c => c != star && !isXdigit c) = false := by
    refine any_eq_false.mpr fun c hc => ?_
    simp [isXdigit_of_plainHex (plainHex_of_mem_hexText hc)]
  have htype : hexRun (hexText n ++ hyphen :: colonHex bs) maxlen { pending := true }
      (hexText n, some hyphen) = some { macType := n, pending := false } := by
    simp [hexRun, hlegal, hexText_ne_nil, strtol16_hexText]
  have hfirst : (({ pending := true } : HexState).out).length < maxlen := hmax
  rw [parseHex, hexRuns_append fun c hc => not_isSep_of_plainHex (plainHex_of_mem_hexText hc),
    append_nil, hexRuns, if_pos (by decide), reverse_reverse, hexLoop_cons hfirst htype]
  by_cases hbs : bs = []
  · subst hbs
    rw [colonHex, hexLoop_end]
    rfl
  have hloop := @hexLoop_colonHex (hexText n ++ hyphen :: colonHex bs) maxlen bs
    { macType := n, pending := false } hbs (by simpa using h) [] (.inl rfl)
  rw [append_nil] at hloop
  rw [hloop]
  rfl

theorem take_colonHex (h : k + 1 < bs.length) :
    (colonHex bs).take (3 * (k + 1)) = colonHex (bs.take (k + 1)) ++ [colon] := by
  induction k generalizing bs with
  | zero =>
    match bs, h with
    | b :: b' :: bs, _ => rfl
  | succ k ih =>
    match bs, h with
    | b :: b' :: bs, h =>
      have hrest := @ih (b' :: bs) (by simpa using h)
      have hsplit : 3 * (k + 1 + 1) = 3 * (k + 1) + 3 := by ring
      rw [hsplit]
      simp only [colonHex, hexByte, cons_append, nil_append, take_succ_cons, hrest]

theorem length_hexRun (hst : st.out.length < maxlen) (h : hexRun text maxlen st run = some st') :
    st'.out.length ≤ maxlen := by
  unfold hexRun at h
  dsimp only at h
  split at h
  · cases h
  split at h
  · cases h
    exact hst.le
  split at h
  · cases h
    exact hst.le
  split at h
  · cases h
    rw [length_append]
    exact hst
  split at h
  · cases h
  · cases h
    simp only [length_append, length_map, length_take]
    omega

theorem length_hexLoop {runs : List (CString × Option UInt8)}
    (hst : st.out.length ≤ maxlen) (h : hexLoop text maxlen runs st = some st') :
    st'.out.length ≤ maxlen := by
  induction runs generalizing st with
  | nil =>
    cases h
    exact hst
  | cons run runs ih =>
    unfold hexLoop at h
    split at h
    · rename_i hlt
      obtain ⟨st₁, hrun, h⟩ := Option.bind_eq_some_iff.mp h
      exact ih (length_hexRun hlt hrun) h
    · cases h
      exact hst

theorem length_parseHex {mac : Bool} {x : Bytes × ℕ}
    (h : parseHex maxlen mac text = some x) : x.1.length ≤ maxlen := by
  obtain ⟨st, hst, hout⟩ := Option.map_eq_some_iff.mp h
  cases hout
  exact length_hexLoop (Nat.zero_le _) hst

theorem length_parseHex_take {out : Bytes} {macType : ℕ}
    (h : parseHex 130 false ((colonHex bs).take 255) = some (out, macType)) : out.length ≤ 85 := by
  by_cases hlen : bs.length ≤ 85
  · have htake : (colonHex bs).take 255 = colonHex bs := take_of_length_le (by
      rw [length_colonHex]
      omega)
    rw [htake] at h
    by_cases hbs : bs = []
    · subst hbs
      cases h
      exact Nat.zero_le _
    have hparse := @parseHex_colonHex 130 _ hbs (hlen.trans (by norm_num)) false _ (.inl rfl)
    rw [append_nil, h] at hparse
    cases hparse
    exact hlen
  have htake := take_colonHex (k := 84) (not_le.mp hlen)
  have hshort : (bs.take 85).length = 85 := length_take_of_le (not_le.mp hlen).le
  have hbs : bs.take 85 ≠ [] := fun e => by simp [e] at hshort
  rw [htake, parseHex_colonHex hbs (hshort.le.trans (by norm_num)) false (.inr rfl)] at h
  cases h
  exact hshort.le

end Dnsmasq.LeaseFile
