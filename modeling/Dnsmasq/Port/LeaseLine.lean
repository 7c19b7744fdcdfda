import Dnsmasq.LeaseFile.Restore
import Dnsmasq.Port.LeaseStore

/-!
The Rust port on one line of the lease file: the words of the line, the entry that it is read as,
and the line that is written for the entry.
-/
namespace Dnsmasq.Port.LeaseStore

set_option maxRecDepth 20000

open List LeaseFile

def Unspaced (s : Text) : Prop := ∀ i, spaceLength (s.drop i) = 0

theorem unspaced_nil : Unspaced [] := fun i => by simp [spaceLength]

variable {c a : UInt8} {s w : Text} {bs : Bytes} {l : Lease} {text : AddrText}

theorem unspaced_cons : Unspaced (c :: s) ↔ spaceLength (c :: s) = 0 ∧ Unspaced s := by
  constructor
  · intro h
    exact ⟨h 0, fun i => h (i + 1)⟩
  rintro ⟨hc, hs⟩ i
  cases i with
  | zero => exact hc
  | succ i => exact hs i

theorem spaceLength_ascii (hc : c < 0x80) (hspace : isSpace c = false) (rest : Text) :
    spaceLength (c :: rest) = 0 := by
  have hne : c ≠ 0xC2 ∧ c ≠ 0xE1 ∧ c ≠ 0xE2 ∧ c ≠ 0xE3 := by
    refine ⟨?_, ?_, ?_, ?_⟩ <;> rintro rfl <;> exact absurd hc (by decide)
  simp [spaceLength, hspace, hne]

theorem ascii_duidWord : ∀ c ∈ duidWord, c < 0x80 ∧ isSpace c = false := by
  decide

theorem ascii_star : ∀ c ∈ [star], c < 0x80 ∧ isSpace c = false := by
  decide

theorem unspaced_of_ascii (h : ∀ c ∈ s, c < 0x80 ∧ isSpace c = false) : Unspaced s := by
  induction s with
  | nil => exact unspaced_nil
  | cons c s ih =>
    obtain ⟨⟨hc, hspace⟩, hs⟩ := forall_mem_cons.mp h
    exact unspaced_cons.mpr ⟨spaceLength_ascii hc hspace s, ih hs⟩

theorem spaceLength_append_ascii (ha : a < 0x80) (c : UInt8) (t rest : Text) :
    spaceLength (c :: t ++ a :: rest) = spaceLength (c :: t) := by
  have hne : a ≠ 0x85 ∧ a ≠ 0xA0 ∧ a ≠ 0x9A ∧ a ≠ 0x80 ∧ a ≠ 0x81 ∧ a ≠ 0xA8 ∧ a ≠ 0xA9 ∧ a ≠ 0xAF ∧
      a ≠ 0x9F ∧ ¬ 0x80 ≤ a := by
    refine ⟨?_, ?_, ?_, ?_, ?_, ?_, ?_, ?_, ?_, UInt8.not_le.mpr ha⟩ <;> rintro rfl <;>
      exact absurd ha (by decide)
  match t with
  | [] =>
    cases rest <;> simp [spaceLength, hne]
  | [x] => simp [spaceLength, hne]
  | x :: y :: t => simp [spaceLength]

theorem spaceLength_append_of_ne {t : Text} (h : spaceLength t ≠ 0) (rest : Text) :
    spaceLength (t ++ rest) = spaceLength t := by
  match t with
  | [] => exact absurd rfl h
  | [c] =>
    by_cases hc : isSpace c = true
    · simp [spaceLength, hc]
    · refine absurd ?_ h
      simp [spaceLength, hc]
  | [c, x] =>
    by_cases hc : isSpace c = true
    · simp [spaceLength, hc]
    by_cases h2 : c = 0xC2
    · simp [spaceLength, h2]
    · refine absurd ?_ h
      simp [spaceLength, hc, h2]
  | c :: x :: y :: t => simp [spaceLength]

theorem Unspaced.drop {s : Text} (h : Unspaced s) (n : ℕ) : Unspaced (s.drop n) := fun i => by
  rw [drop_drop]
  exact h _

theorem unspaced_of_append {s t : Text} (h : ∀ i < s.length, spaceLength ((s ++ t).drop i) = 0) :
    Unspaced s := by
  intro i
  by_cases hi : i < s.length
  · by_contra hne
    have heq := spaceLength_append_of_ne hne t
    have hdrop := h i hi
    rw [drop_append_of_le_length hi.le] at hdrop
    omega
  · rw [drop_of_length_le (Nat.le_of_not_lt hi)]
    rfl

theorem Unspaced.take (h : Unspaced s) (n : ℕ) : Unspaced (s.take n) := by
  refine @unspaced_of_append _ (s.drop n) fun i _ => ?_
  rw [take_append_drop]
  exact h i

theorem splitLoop_word (hs : Unspaced s) (ha : isSpace a = true) (w rest : Text) :
    splitLoop 0 w (s ++ a :: rest) = flush (w ++ s) ++ splitLoop 0 [] rest := by
  have hascii : a < 0x80 := by
    have hall : ∀ n : Fin 256, isSpace (.ofFin n) = true → UInt8.ofFin n < 0x80 := by decide
    exact hall a.toFin ha
  induction s generalizing w with
  | nil =>
    have hlen : spaceLength (a :: rest) = 1 := if_pos ha
    rw [nil_append, splitLoop, hlen, append_nil]
  | cons c s ih =>
    obtain ⟨hc, hs⟩ := unspaced_cons.mp hs
    have hlen := spaceLength_append_ascii hascii c s rest
    rw [hc] at hlen
    rw [cons_append] at hlen ⊢
    rw [splitLoop, hlen]
    rw [ih hs, append_assoc, singleton_append]

theorem splitLoop_last (hs : Unspaced s) (w : Text) : splitLoop 0 w s = flush (w ++ s) := by
  induction s generalizing w with
  | nil => rw [splitLoop, append_nil]
  | cons c s ih =>
    obtain ⟨hc, hs⟩ := unspaced_cons.mp hs
    rw [splitLoop, hc]
    rw [ih hs, append_assoc, singleton_append]

theorem flush_of_ne_nil (h : w ≠ []) : flush w = [w] := if_neg h

theorem mem_flush {x : Text} (h : x ∈ flush w) : x = w ∧ w ≠ [] := by
  unfold flush at h
  split_ifs at h with hw
  · cases h
  · exact ⟨mem_singleton.mp h, hw⟩

theorem unspaced_of_mem_splitLoop {s w : Text} {skip : ℕ} (hskip : skip = 0 ∨ w = [])
    (hw : ∀ i < w.length, spaceLength ((w ++ s).drop i) = 0) {x : Text}
    (hx : x ∈ splitLoop skip w s) : x ≠ [] ∧ Unspaced x := by
  induction s generalizing w skip with
  | nil =>
    obtain ⟨rfl, hne⟩ := mem_flush hx
    exact ⟨hne, unspaced_of_append hw⟩
  | cons c s ih =>
    cases skip with
    | succ skip =>
      obtain rfl := hskip.resolve_left (Nat.succ_ne_zero skip)
      exact ih (.inr rfl) (fun i hi => absurd hi (Nat.not_lt_zero i)) hx
    | zero =>
      rw [splitLoop] at hx
      split at hx
      · next hlen =>
        refine ih (.inl rfl) (fun i hi => ?_) hx
        rw [append_assoc]
        rw [length_append] at hi
        rcases Nat.lt_succ_iff_lt_or_eq.mp hi with hi | rfl
        · exact hw i hi
        · rw [drop_left]
          exact hlen
      rcases mem_append.mp hx with hx | hx
      · obtain ⟨rfl, hne⟩ := mem_flush hx
        exact ⟨hne, unspaced_of_append hw⟩
      · exact ih (.inr rfl) (fun i hi => absurd hi (Nat.not_lt_zero i)) hx

theorem unspaced_of_mem_splitWhitespace {line x : Text} (hx : x ∈ splitWhitespace line) :
    x ≠ [] ∧ Unspaced x :=
  @unspaced_of_mem_splitLoop line [] 0 (.inl rfl) (fun i hi => absurd hi (Nat.not_lt_zero i)) x hx

theorem stripPlus_of_head (h : s.head? ≠ some 43) : stripPlus s = s := by
  unfold stripPlus
  split
  · exact absurd rfl h
  · rfl

theorem head?_decimal (n : ℕ) : (decimal n).head? ≠ some 43 := fun h => by
  have hdigit := isDigit_of_mem_decimal (mem_of_mem_head? h)
  cases hdigit

theorem parseUnsigned_decimal {bits n : ℕ} (h : n < 2 ^ bits) :
    parseUnsigned bits (decimal n) = some n := by
  have hdigits : (decimal n).all isDigit = true :=
    all_eq_true.mpr fun c hc => isDigit_of_mem_decimal hc
  unfold parseUnsigned
  rw [stripPlus_of_head (head?_decimal n), if_neg (by simp [decimal_ne_nil, hdigits]),
    leadingNumber_decimal, if_pos h]

theorem fromStrRadix16_hexByte (b : UInt8) : fromStrRadix16 (hexByte b) = some b := by
  have hall : ∀ n : Fin 256, fromStrRadix16 (hexByte (.ofFin n)) = some (.ofFin n) := by decide
  exact hall b.toFin

theorem splitOn_append_cons {rest : Text} (h : a ∉ s) :
    (s ++ a :: rest).splitOn a = s :: rest.splitOn a := by
  refine splitOnP_append_cons_of_forall_mem (p := (· == a)) (fun c hc => ?_)
    a (beq_self_eq_true a) rest
  exact beq_eq_false_iff_ne.mpr fun e => h (e ▸ hc)

theorem splitOn_of_not_mem (h : a ∉ s) : s.splitOn a = [s] := by
  refine splitOnP_eq_singleton fun c hc => ?_
  exact beq_eq_false_iff_ne.mpr fun e => h (e ▸ hc)

theorem colon_not_mem_hexByte (b : UInt8) : colon ∉ hexByte b := fun h => by
  cases plainHex_of_mem h

theorem parseHexWithColons_colonHex (h : bs ≠ []) : parseHexWithColons (colonHex bs) = .ok bs := by
  induction bs with
  | nil => exact absurd rfl h
  | cons b bs ih =>
    unfold parseHexWithColons at ih ⊢
    rw [colonHex_cons]
    cases bs with
    | nil =>
      rw [isEmpty_nil, if_pos rfl, append_nil,
        splitOn_of_not_mem (colon_not_mem_hexByte b), hexBytes, fromStrRadix16_hexByte]
      rfl
    | cons b' bs =>
      rw [isEmpty_cons, if_neg (by decide), splitOn_append_cons (colon_not_mem_hexByte b), hexBytes,
        fromStrRadix16_hexByte, ih (cons_ne_nil _ _)]
      rfl

theorem parseHardwareAddress_hwText (l : Lease) :
    parseHardwareAddress l.hwText = if l.hwaddr = [] then .error (.invalidHexByte [])
    else .ok l.hwaddr := by
  have hcolon : hyphen ∉ colonHex l.hwaddr := fun h => by
    rcases mem_colonHex h with h | h <;> cases h
  have hpart : parseHexWithColons (colonHex l.hwaddr) =
      if l.hwaddr = [] then .error (.invalidHexByte []) else .ok l.hwaddr := by
    split_ifs with hempty
    · rw [hempty]
      rfl
    · exact parseHexWithColons_colonHex hempty
  rw [← hpart]
  unfold parseHardwareAddress Lease.hwText
  by_cases htyped : l.hwType ≠ arphrdEther ∨ l.hwaddr = []
  · have hhex : ∀ c ∈ hexText l.hwType, decide (c ≠ hyphen) = true := fun c hc => by
      rw [decide_eq_true_eq]
      rintro rfl
      cases plainHex_of_mem_hexText hc
    rw [if_pos htyped, append_assoc, dropWhile_append_of_pos hhex]
    simp
  · rw [if_neg htyped, nil_append, if_neg hcolon]

def line (text : AddrText) (l : Lease) : Text :=
  decimal l.expires ++ 32 :: (l.idText ++ 32 ::
    (l.addrText text ++ 32 :: (l.nameText ++ 32 :: l.clidText)))

theorem fields_eq_line (text : AddrText) (l : Lease) :
    ((l.fields text).flatMap fun x => x.1 ++ [x.2]) = line text l ++ [10] := by
  simp [Lease.fields, line]

def entryOf (l : Lease) : LeaseEntry where
  expiry := l.expires
  address := match l.addr with
    | .v4 a => .v4 a
    | .v6 _ _ a => .v6 a
  hardwareAddress := if l.addr.isV4 then l.hwaddr else []
  hostname := if l.nameText = [star] then none else some l.nameText
  clientId := if l.clid = [] then none else some l.clid
  iaid := match l.addr with
    | .v4 _ => none
    | .v6 _ iaid _ => some iaid
  isTemporaryAddress := match l.addr with
    | .v6 .ta _ _ => true
    | _ => false

theorem ascii_of_plainHex (h : plainHex c = true) : c < 0x80 := by
  have hall : ∀ n : Fin 256, plainHex (.ofFin n) = true → UInt8.ofFin n < 0x80 := by decide
  exact hall c.toFin h

theorem ascii_of_isAddrChar (h : isAddrChar c = true) : c < 0x80 := by
  have hall : ∀ n : Fin 256, isAddrChar (.ofFin n) = true → UInt8.ofFin n < 0x80 := by decide
  exact hall c.toFin h

theorem ascii_decimal {n : ℕ} (h : c ∈ decimal n) : c < 0x80 ∧ isSpace c = false :=
  ⟨ascii_of_isAddrChar (isAddrChar_of_isDigit (isDigit_of_mem_decimal h)),
    not_isSpace_of_isDigit (isDigit_of_mem_decimal h)⟩

theorem ascii_colonHex (h : c ∈ colonHex bs) : c < 0x80 ∧ isSpace c = false := by
  refine ⟨?_, not_isSpace_of_mem_colonHex h⟩
  rcases mem_colonHex h with h | rfl
  · exact ascii_of_plainHex h
  · decide

theorem ascii_addrText (h : IsAddrText w) (hc : c ∈ w) : c < 0x80 ∧ isSpace c = false :=
  ⟨ascii_of_isAddrChar (h.chars c hc), (isAddrChar_spec (h.chars c hc)).1⟩

theorem ascii_idText (l : Lease) (h : c ∈ l.idText) : c < 0x80 ∧ isSpace c = false := by
  refine ⟨?_, Lease.unspaced_idText h⟩
  unfold Lease.idText at h
  split at h
  · rcases Lease.mem_hwText h with h | rfl | rfl
    · exact ascii_of_plainHex h
    · decide
    · decide
  · rcases mem_cons.mp h with rfl | h
    · decide
    · exact (ascii_decimal h).1
  · exact (ascii_decimal h).1

theorem ascii_clidText (l : Lease) (h : c ∈ l.clidText) : c < 0x80 ∧ isSpace c = false := by
  unfold Lease.clidText at h
  split at h
  · cases mem_singleton.mp h
    decide
  · exact ascii_colonHex h

theorem splitWhitespace_line (text : AddrText) (hname : Unspaced l.nameText)
    (hne : l.nameText ≠ []) :
    splitWhitespace (line text l) = [decimal l.expires, l.idText, l.addrText text, l.nameText,
      l.clidText] := by
  have haddr := Lease.isAddrText_addrText text l
  unfold splitWhitespace line
  rw [splitLoop_word (unspaced_of_ascii fun c hc => ascii_decimal hc) rfl,
    splitLoop_word (unspaced_of_ascii fun c hc => ascii_idText l hc) rfl,
    splitLoop_word (unspaced_of_ascii fun c hc => ascii_addrText haddr hc) rfl,
    splitLoop_word hname rfl, splitLoop_last (unspaced_of_ascii fun c hc => ascii_clidText l hc)]
  simp only [nil_append, flush_of_ne_nil (decimal_ne_nil _), flush_of_ne_nil Lease.idText_ne_nil,
    flush_of_ne_nil haddr.nonempty, flush_of_ne_nil hne, flush_of_ne_nil Lease.clidText_ne_nil,
    singleton_append]

theorem parseSecond_v6 (type : Dhcp6.LeaseType) (iaid : BitVec 32) (a : Dhcp6.In6Addr) (l : Lease)
    (h : l.addr = .v6 type iaid a) :
    parseSecond (.v6 a) l.idText = .ok ([], some iaid, decide (type = .ta)) := by
  have hparse := @parseUnsigned_decimal 32 iaid.toNat iaid.isLt
  have hof : BitVec.ofNat 32 iaid.toNat = iaid := by rw [BitVec.ofNat_toNat, BitVec.setWidth_eq]
  unfold parseSecond Lease.idText
  rw [h]
  cases type with
  | ta => simp [stripT, hparse, hof]
  | na =>
    have hdigit : ∀ s, decimal iaid.toNat ≠ 84 :: s := fun s e => by
      have hc := isDigit_of_mem_decimal (e ▸ mem_cons_self : (84 : UInt8) ∈ decimal iaid.toNat)
      cases hc
    have hplain : stripT (decimal iaid.toNat) = (false, decimal iaid.toNat) := by
      unfold stripT
      split
      · next s hs => exact absurd hs (hdigit s)
      · rfl
    rw [hplain]
    simp [hparse, hof]

theorem parse_clid (l : Lease) :
    (if l.clidText = [star] then Except.ok none else (parseHexWithColons l.clidText).map some) =
      .ok (if l.clid = [] then none else some l.clid) := by
  unfold Lease.clidText
  by_cases hempty : l.clid = []
  · rw [if_pos hempty, if_pos rfl, if_pos hempty]
  have hstar : colonHex l.clid ≠ [star] := fun e => by
    have hmem : star ∈ colonHex l.clid := e ▸ mem_cons_self
    rcases mem_colonHex hmem with h | h <;> cases h
  rw [if_neg hempty, if_neg hstar, if_neg hempty, parseHexWithColons_colonHex hempty]
  rfl

theorem parseFields_line (rust : RustText text) (hexpires : l.expires < 2 ^ 63) :
    parseFields rust.fromStr (decimal l.expires) l.idText (l.addrText text) l.nameText l.clidText =
      if l.addr.isV4 = true ∧ l.hwaddr = [] then .error (.invalidHexByte [])
      else .ok (entryOf l) := by
  unfold parseFields
  rw [parseUnsigned_decimal (hexpires.trans (by norm_num))]
  rw [parse_clid]
  unfold Lease.addrText entryOf
  generalize (if l.nameText = [star] then none else some l.nameText) = hostname
  generalize (if l.clid = [] then none else some l.clid) = clientId
  cases haddr : l.addr with
  | v4 a =>
    have hid : l.idText = l.hwText := by rw [Lease.idText, haddr]
    rw [rust.fromStr_ntop4, hid]
    dsimp only [Except.bind, parseSecond]
    rw [parseHardwareAddress_hwText]
    by_cases hempty : l.hwaddr = []
    · rw [if_pos hempty, if_pos ⟨rfl, hempty⟩]
      rfl
    · rw [if_neg hempty, if_neg fun h => hempty h.2]
      rfl
  | v6 type iaid a =>
    rw [rust.fromStr_ntop6]
    dsimp only [Except.bind]
    rw [parseSecond_v6 type iaid a l haddr]
    cases type <;> rfl

theorem parseLeaseLine_line (rust : RustText text) (hexpires : l.expires < 2 ^ 63)
    (hname : Unspaced l.nameText) (hne : l.nameText ≠ []) :
    parseLeaseLine rust.fromStr (line text l) =
      if l.addr.isV4 = true ∧ l.hwaddr = [] then .error (.invalidHexByte [])
      else .ok (.lease (entryOf l)) := by
  unfold parseLeaseLine
  rw [splitWhitespace_line text hname hne]
  dsimp only
  rw [if_neg (Reader.decimal_ne_duidWord l.expires), parseFields_line rust hexpires]
  split_ifs <;> rfl

end Dnsmasq.Port.LeaseStore
