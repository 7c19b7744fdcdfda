import Mathlib.Data.Nat.Digits.Lemmas
import Dnsmasq.Dnssec.Nsec3

/-!
`base32_decode` against the base32hex encoding of RFC 4648. Encoding and decoding write one number
in two bases, 256 and 32.
-/
namespace Dnsmasq.Dnssec.Nsec3

open List Nat

def base32Label (s : CString) : CString := s.takeWhile (· ≠ dot)

/-- The digits `0` to `9`, then `A` to `V`. -/
def base32Char (v : ℕ) : UInt8 := if v < 10 then .ofNat (48 + v) else .ofNat (55 + v)

/-- Eight digits in base 32 for five octets. -/
def base32hex (bytes : List UInt8) : CString :=
  (digitsAppend 32 (bytes.length / 5 * 8)
    (ofDigits 256 (bytes.reverse.map UInt8.toNat))).reverse.map base32Char

theorem base32Label_cons {c : UInt8} {text : CString} (hdot : c ≠ dot) :
    base32Label (c :: text) = c :: base32Label text := takeWhile_cons_of_pos (by simpa using hdot)

set_option maxRecDepth 20000 in
theorem base32Value_eq_some_iff {c : UInt8} {v : ℕ} : base32Value c = some v ↔
    v < 32 ∧ lower c = lower (base32Char v) := by
  have hchar : ∀ n : Fin 256, ((base32Value (.ofFin n)).all fun v => v < 32 ∧
      lower (.ofFin n) = lower (base32Char v)) ∧
      base32Value (lower (.ofFin n)) = base32Value (.ofFin n) := by decide
  have hvalue : ∀ v < 32, base32Value (lower (base32Char v)) = some v := by decide
  obtain ⟨hall, hlower⟩ := hchar c.toFin
  rw [UInt8.ofFin_toFin] at hall hlower
  constructor
  · intro h
    rw [h] at hall
    simpa using hall
  · rintro ⟨hv, h⟩
    rw [← hlower, h, hvalue v hv]

/-- After `k` bits, which are those of `w`. -/
structure Decoding (w k : ℕ) (s : ℕ × ℕ × Digest) : Prop where
  oc : s.1 = 2 * w
  on : s.2.1 = k
  length : s.2.2.length = k / 8
  value : ofDigits 256 s.2.2.reverse = w / 2 ^ (k % 8)
  octet : ∀ d ∈ s.2.2, d < 256

namespace Decoding

variable {w k v : ℕ} {s : ℕ × ℕ × Digest}

theorem bit (h : Decoding w k s) (b : Bool) :
    Decoding (2 * w + b.toNat) (k + 1) (base32Bit s b) := by
  obtain ⟨oc, k, out⟩ := s
  obtain ⟨rfl, rfl, hlen, hval, hoct⟩ := h
  have hor : (if b then 2 * w ||| 1 else 2 * w) = 2 * w + b.toNat := by
    cases b with
    | false => rfl
    | true => exact (@two_pow_add_eq_or_of_lt 1 1 (by norm_num) w).symm
  dsimp only at hlen hval hoct
  simp only [base32Bit, hor, show (7 : ℕ) = 2 ^ 3 - 1 from rfl, and_two_pow_sub_one_eq_mod]
  by_cases hk : (k + 1) % 8 = 0
  · rw [if_pos hk]
    have hlast : k % 8 = 7 := by omega
    refine ⟨by rw [shiftLeft_eq]; ring, rfl, ?_, ?_, ?_⟩
    · rw [length_append, hlen, length_singleton]
      omega
    · rw [hlast] at hval
      rw [reverse_append, reverse_singleton, singleton_append, ofDigits_cons, hval, hk]
      have hb := b.toNat_lt
      simp
      omega
    · intro d hd
      rcases mem_append.mp hd with hd | hd
      · exact hoct d hd
      · rw [mem_singleton.mp hd]
        exact mod_lt _ (by norm_num)
  · rw [if_neg hk]
    have hnext : (k + 1) % 8 = k % 8 + 1 := by omega
    refine ⟨by rw [shiftLeft_eq]; ring, rfl, ?_, ?_, hoct⟩
    · rw [hlen]
      omega
    · have hb := b.toNat_lt
      rw [hval, hnext, Nat.pow_succ', ← Nat.div_div_eq_div_mul,
        show (2 * w + b.toNat) / 2 = w by omega]

theorem char (h : Decoding w k s) (hv : v < 32) :
    Decoding (v + 32 * w) (k + 5) (([0x10, 0x08, 0x04, 0x02, 0x01].map fun mask => v &&& mask !=
      0).foldl base32Bit s) := by
  have hbits : ∀ v < 32, v = 16 * (v &&& 16 != 0).toNat + 8 * (v &&& 8 != 0).toNat + 4 *
      (v &&& 4 != 0).toNat + 2 * (v &&& 2 != 0).toNat + (v &&& 1 != 0).toNat := by decide
  have hfive :=
    ((((h.bit (v &&& 16 != 0)).bit (v &&& 8 != 0)).bit (v &&& 4 != 0)).bit (v &&& 2 != 0)).bit
      (v &&& 1 != 0)
  have hw :
      v + 32 * w = 2 * (2 * (2 * (2 * (2 * w + (v &&& 16 != 0).toNat) + (v &&& 8 != 0).toNat) +
      (v &&& 4 != 0).toNat) + (v &&& 2 != 0).toNat) + (v &&& 1 != 0).toNat := by
    have hv := hbits v hv
    omega
  rw [hw]
  exact hfive

theorem loop {text : CString} (h : Decoding w k s) (hall : ∀ c ∈ base32Label text,
    (base32Value c).isSome) : ∃ s', base32Loop text s = some s' ∧
      Decoding (((base32Label text).filterMap base32Value).foldl (fun w v => v + 32 * w) w)
      (k + 5 * (base32Label text).length) s' := by
  induction text generalizing w k s with
  | nil => exact ⟨s, rfl, h⟩
  | cons c text ih =>
    by_cases hdot : c = dot
    · subst hdot
      exact ⟨s, rfl, h⟩
    rw [base32Label_cons hdot] at hall ⊢
    obtain ⟨v, hv⟩ := Option.isSome_iff_exists.mp (hall c mem_cons_self)
    obtain ⟨s', hs', hdec⟩ := ih (h.char (base32Value_eq_some_iff.mp hv).1) fun x hx =>
      hall x (mem_cons_of_mem c hx)
    refine ⟨s', ?_, ?_⟩
    · rw [base32Loop, if_neg hdot, hv, Option.bind_some, hs']
    · rw [filterMap_cons_some hv, foldl_cons, length_cons]
      convert hdec using 1
      ring

end Decoding

theorem base32Loop_eq_none {text : CString} (s : ℕ × ℕ × Digest) (h : ∃ c ∈ base32Label text,
    base32Value c = none) : base32Loop text s = none := by
  induction text generalizing s with
  | nil => simp [base32Label] at h
  | cons c text ih =>
    obtain ⟨x, hx, hnone⟩ := h
    by_cases hdot : c = dot
    · simp [base32Label, hdot] at hx
    rw [base32Label_cons hdot] at hx
    rw [base32Loop, if_neg hdot]
    cases hv : base32Value c with
    | none => rfl
    | some v =>
      rcases mem_cons.mp hx with rfl | hx
      · rw [hv] at hnone
        cases hnone
      · exact ih _ ⟨x, hx, hnone⟩

/-- The octets and the label spell the same number. -/
structure Spells (text : CString) (d : Digest) : Prop where
  char : ∀ c ∈ base32Label text, (base32Value c).isSome
  groups : 8 ∣ (base32Label text).length
  length : d.length = (base32Label text).length / 8 * 5
  octet : ∀ x ∈ d, x < 256
  value : ofDigits 256 d.reverse = ofDigits 32 ((base32Label text).filterMap base32Value).reverse

theorem base32Decode_cases (text : CString) :
    (∃ d, Spells text d ∧ base32Decode text = if d = [] then none else some d) ∨
    ((∃ c ∈ base32Label text, base32Value c = none) ∨ ¬ 8 ∣ (base32Label text).length) ∧
    base32Decode text = none := by
  by_cases hnone : ∃ c ∈ base32Label text, base32Value c = none
  · exact .inr ⟨.inl hnone, by rw [base32Decode, base32Loop_eq_none _ hnone]⟩
  have hchar : ∀ c ∈ base32Label text, (base32Value c).isSome := by
    intro c hc
    exact Option.isSome_iff_ne_none.mpr fun hv => hnone ⟨c, hc, hv⟩
  have hstart : Decoding 0 0 (0, 0, []) := ⟨rfl, rfl, rfl, rfl, by simp⟩
  obtain ⟨⟨oc, on, d⟩, hloop, -, rfl, hlen, hval, hoct⟩ := hstart.loop hchar
  rw [base32Decode, hloop]
  simp only [show (7 : ℕ) = 2 ^ 3 - 1 from rfl, and_two_pow_sub_one_eq_mod]
  by_cases hdvd : 8 ∣ (base32Label text).length
  · have hon : (0 + 5 * (base32Label text).length) % 8 = 0 := by omega
    refine .inl ⟨d, ⟨hchar, hdvd, by dsimp only at hlen; omega, hoct, ?_⟩, ?_⟩
    · rw [hval, hon, pow_zero, Nat.div_one, ofDigits_eq_foldr, foldr_reverse]
      rfl
    · rw [show (2 : ℕ) ^ 3 = 8 from rfl, hon]
      simp
  · exact .inr ⟨.inr hdvd, if_pos (.inl (by omega))⟩

theorem foldCase_base32Char {l : CString} (hall : ∀ c ∈ l, (base32Value c).isSome) :
    foldCase l = foldCase ((l.filterMap base32Value).map base32Char) := by
  induction l with
  | nil => rfl
  | cons c l ih =>
    obtain ⟨v, hv⟩ := Option.isSome_iff_exists.mp (hall c mem_cons_self)
    rw [filterMap_cons_some hv, map_cons, foldCase, foldCase, map_cons, map_cons,
      (base32Value_eq_some_iff.mp hv).2]
    exact congrArg _ (ih fun x hx => hall x (mem_cons_of_mem c hx))

namespace Spells

variable {text : CString} {d : Digest}

theorem of_eq_some (h : base32Decode text = some d) : Spells text d := by
  obtain ⟨d', hd, heq⟩ | ⟨-, hnone⟩ := base32Decode_cases text
  · rw [h] at heq
    split_ifs at heq
    cases heq
    exact hd
  · rw [h] at hnone
    cases hnone

theorem length_values (h : Spells text d) :
    ((base32Label text).filterMap base32Value).reverse.length = (base32Label text).length := by
  have hlen := congrArg List.length (foldCase_base32Char h.char)
  rw [foldCase, foldCase, length_map, length_map, length_map] at hlen
  rw [length_reverse, hlen]

theorem lt_of_mem (_ : Spells text d) :
    ∀ v ∈ ((base32Label text).filterMap base32Value).reverse, v < 32 := by
  intro v hv
  obtain ⟨c, -, hc⟩ := mem_filterMap.mp (mem_reverse.mp hv)
  exact (base32Value_eq_some_iff.mp hc).1

theorem foldCase_eq {text' : CString} (h : Spells text d) (h' : Spells text' d) :
    foldCase (base32Label text) = foldCase (base32Label text') := by
  have hvals : ((base32Label text).filterMap base32Value).reverse =
      ((base32Label text').filterMap base32Value).reverse := by
    refine ofDigits_inj_of_len_eq (by norm_num)
      ?_ h.lt_of_mem h'.lt_of_mem (h.value.symm.trans h'.value)
    rw [h.length_values, h'.length_values]
    have hlen := h.length.symm.trans h'.length
    have hdvd := h.groups
    have hdvd' := h'.groups
    omega
  rw [foldCase_base32Char h.char, foldCase_base32Char h'.char, reverse_inj.mp hvals]

end Spells

theorem filterMap_base32Value {l : CString} {vs : List ℕ} (h : foldCase l =
    foldCase (vs.map base32Char))
    (hvs : ∀ v ∈ vs, v < 32) : (∀ c ∈ l, (base32Value c).isSome) ∧
    l.filterMap base32Value = vs := by
  induction vs generalizing l with
  | nil =>
    cases map_eq_nil_iff.mp h
    exact ⟨by simp, rfl⟩
  | cons v vs ih =>
    obtain ⟨c, l, rfl, hc, hl⟩ := map_eq_cons_iff.mp h
    have hv : base32Value c = some v := base32Value_eq_some_iff.mpr ⟨hvs v mem_cons_self, hc⟩
    obtain ⟨hall, hvals⟩ := ih hl fun x hx => hvs x (mem_cons_of_mem v hx)
    rw [filterMap_cons_some hv, hvals]
    exact ⟨forall_mem_cons.mpr ⟨by simp [hv], hall⟩, rfl⟩

/-- What was encoded comes back, nothing else is decoded, and two texts of one value differ in case
only. -/
theorem base32Decode_base32hex :
    (∀ (bytes : List UInt8) (text : CString), 5 ∣ bytes.length →
      foldCase (base32Label text) = foldCase (base32hex bytes) →
      (base32Decode text).getD [] = bytes.map UInt8.toNat) ∧
    (∀ text : CString, ((∃ c ∈ base32Label text, ∀ v < 32, lower c ≠ lower (base32Char v)) ∨
      ¬ 8 ∣ (base32Label text).length) → base32Decode text = none) ∧
    ∀ (text text' : CString) (d : Digest), base32Decode text = some d →
      base32Decode text' = some d → foldCase (base32Label text) = foldCase (base32Label text') := by
  refine ⟨?_, ?_, ?_⟩
  · intro bytes text hbytes htext
    have hoct : ∀ x ∈ bytes.reverse.map UInt8.toNat, x < 256 := by
      intro x hx
      obtain ⟨b, -, rfl⟩ := mem_map.mp hx
      exact b.toNat_lt
    have hlt : ofDigits 256 (bytes.reverse.map UInt8.toNat) < 32 ^ (bytes.length / 5 * 8) := by
      have h := ofDigits_lt_base_pow_length (by norm_num) hoct
      rw [length_map, length_reverse, show 256 = 2 ^ 8 from rfl, ← pow_mul] at h
      rw [show 32 = 2 ^ 5 from rfl, ← pow_mul]
      rwa [show 5 * (bytes.length / 5 * 8) = 8 * bytes.length by omega]
    obtain ⟨hall, hvals⟩ := filterMap_base32Value htext fun v hv =>
      lt_of_mem_digitsAppend (by norm_num) _ v (mem_reverse.mp hv)
    have hlen : (base32Label text).length = bytes.length / 5 * 8 := by
      have h := congrArg length htext
      rwa [foldCase, foldCase, length_map, length_map, base32hex, length_map, length_reverse,
        length_digitsAppend (by norm_num) _ hlt] at h
    obtain ⟨d, ⟨-, -, hdlen, hdoct, hval⟩, hd⟩ | ⟨hbad, -⟩ := base32Decode_cases text
    · rw [hvals, reverse_reverse, digitsAppend, ofDigits_append_replicate_zero,
        ofDigits_digits] at hval
      have hrev : d.reverse = bytes.reverse.map UInt8.toNat := by
        refine ofDigits_inj_of_len_eq (by norm_num)
          ?_ (fun x hx => hdoct x (mem_reverse.mp hx)) hoct hval
        rw [length_reverse, length_map, length_reverse]
        omega
      rw [map_reverse, reverse_inj] at hrev
      rw [hd, ← hrev]
      split_ifs with hnil
      · exact hnil.symm
      · rfl
    · rcases hbad with ⟨c, hc, hnone⟩ | hdvd
      · simpa [hnone] using hall c hc
      · exact absurd (hlen ▸ Nat.dvd_mul_left 8 _) hdvd
  · intro text h
    obtain ⟨d, hd, -⟩ | ⟨-, hnone⟩ := base32Decode_cases text
    · obtain ⟨c, hc, hnot⟩ | hdvd := h
      · obtain ⟨v, hv⟩ := Option.isSome_iff_exists.mp (hd.char c hc)
        obtain ⟨hv, heq⟩ := base32Value_eq_some_iff.mp hv
        exact absurd heq (hnot v hv)
      · exact absurd hd.groups hdvd
    · exact hnone
  · intro text text' d h h'
    exact (Spells.of_eq_some h).foldCase_eq (Spells.of_eq_some h')

/-- Five octets as "vS08800V" with the rest of a name, the same without it, and two texts that are
refused. -/
theorem base32Decode_base32hex_five :
    let text : CString := [118, 83, 48, 56, 56, 48, 48, 86]
    base32Decode (text ++ [46, 98]) = some [255, 0, 132, 0, 31] ∧
      foldCase (base32Label (text ++ [46, 98])) = foldCase (base32Label text) ∧
      base32Decode (119 :: text.tail) = none ∧ base32Decode text.tail = none := by
  intro text
  obtain ⟨hround, hrefuse, hinj⟩ := base32Decode_base32hex
  have hback := hround [255, 0, 132, 0, 31] (text ++ [46, 98]) (by decide) (by decide +kernel)
  have hsome : base32Decode (text ++ [46, 98]) = some [255, 0, 132, 0, 31] := by
    cases h : base32Decode (text ++ [46, 98]) with
    | none => simp [h] at hback
    | some d => simpa [h] using hback
  refine ⟨hsome, hinj _ _ _ hsome (by decide +kernel), hrefuse _ (.inl ?_), hrefuse _ (.inr ?_)⟩
  · exact ⟨119, by decide, by decide⟩
  · decide

end Dnsmasq.Dnssec.Nsec3
