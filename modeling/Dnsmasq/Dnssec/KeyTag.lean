import Mathlib.Data.Nat.Digits.Lemmas
import Mathlib.Tactic

/-!
Key tags, as `dnskey_keytag` of `dnssec.c` and `compute_key_tag` of `dns/dnssec/validation.rs` of
the Rust port compute them, against Appendix B of RFC 4034. The port folds the carry a second
time, and `dnskey_keytag` takes the octets for RSAMD5 from one place too far in front.
-/
namespace Dnsmasq.Dnssec

open List Nat

def keySum : ℕ → List UInt8 → ℕ → ℕ
  | _, [], ac => ac
  | i, b :: key, ac => keySum (i + 1) key (ac + if i &&& 1 ≠ 0 then b.toNat else b.toNat <<< 8)

def dnskeyKeytag (alg : UInt8) (flags : UInt16) (key : List UInt8) : ℕ :=
  if alg = 1 then key[key.length - 4]!.toNat * 256 + key[key.length - 3]!.toNat
  else
    let ac := keySum 0 key (flags.toNat + 0x300 + alg.toNat)
    (ac + (ac >>> 16 &&& 0xffff)) &&& 0xffff

def dnskeyRdata (alg : UInt8) (flags : UInt16) (key : List UInt8) : List UInt8 :=
  [(flags >>> 8).toUInt8, flags.toUInt8, 3, alg] ++ key

/-- The sum is a `u32`. -/
def sumWords : List UInt8 → ℕ → ℕ
  | a :: b :: rdata, sum => sumWords rdata ((sum + (a.toNat * 256 + b.toNat)) % 2 ^ 32)
  | [a], sum => (sum + a.toNat <<< 8) % 2 ^ 32
  | [], sum => sum

def addCarries (sum : ℕ) : ℕ := (sum &&& 0xffff) + sum >>> 16

def computeKeyTag (alg : UInt8) (flags : UInt16) (key : List UInt8) : ℕ :=
  let rdata := dnskeyRdata alg flags key
  if alg = 1 then
    if 4 ≤ rdata.length then rdata[rdata.length - 3]!.toNat * 256 + rdata[rdata.length - 2]!.toNat
      else 0
  else addCarries (addCarries (sumWords rdata 0)) % 2 ^ 16

/-- The sum of the words of RDATA, of which the last one may lack its second octet. -/
def wordSum (rdata : List UInt8) : ℕ :=
  (rdata.mapIdx fun i b => if i % 2 = 0 then b.toNat * 256 else b.toNat).sum

/-- RFC 4034: the sum with its carry added in once, or for RSAMD5 the upper 16 of the last 24 bits
of the modulus, with which the key ends. -/
def keyTag (alg : UInt8) (flags : UInt16) (key : List UInt8) : ℕ :=
  let ac := wordSum (dnskeyRdata alg flags key)
  if alg = 1 then ofDigits 256 (key.reverse.map UInt8.toNat) / 256 % 65536
    else (ac + ac / 65536 % 65536) % 65536

theorem wordSum_cons_cons (a b : UInt8) (rdata : List UInt8) :
    wordSum (a :: b :: rdata) = a.toNat * 256 + b.toNat + wordSum rdata := by
  simp [wordSum, mapIdx_cons, add_assoc]

theorem wordSum_lt (rdata : List UInt8) : wordSum rdata ≤ (rdata.length + 1) / 2 * 65535 := by
  fun_induction sumWords rdata 0 with
  | case1 a b rdata sum ih =>
    have ha := a.toNat_lt
    have hb := b.toNat_lt
    rw [wordSum_cons_cons, length_cons, length_cons]
    omega
  | case2 a =>
    have ha := a.toNat_lt
    simp [wordSum]
    omega
  | case3 => simp [wordSum]

theorem sumWords_eq (rdata : List UInt8) (sum : ℕ) (h : sum + wordSum rdata < 2 ^ 32) :
    sumWords rdata sum = sum + wordSum rdata := by
  fun_induction sumWords rdata sum with
  | case1 a b rdata sum ih =>
    rw [wordSum_cons_cons, ← add_assoc sum (_ + _)] at h ⊢
    rw [mod_eq_of_lt (lt_of_le_of_lt (le_add_right _ _) h)] at ih ⊢
    exact ih h
  | case2 a sum =>
    have hword : wordSum [a] = a.toNat * 256 := by simp [wordSum]
    rw [hword] at h ⊢
    rw [shiftLeft_eq, mod_eq_of_lt h]
  | case3 sum => simp [wordSum]

theorem keySum_eq (key : List UInt8) (ac : ℕ) : keySum 0 key ac = ac + wordSum key := by
  have hstep : ∀ (i : ℕ) (key : List UInt8) (ac : ℕ),
      keySum i key ac = ac + (key.mapIdx fun j b => if (i + j) % 2 = 0 then b.toNat * 256
        else b.toNat).sum := by
    intro i key
    induction key generalizing i with
    | nil => simp [keySum]
    | cons b key ih =>
      intro ac
      rw [keySum, ih, mapIdx_cons, sum_cons, and_one_is_mod, shiftLeft_eq]
      simp only [add_assoc, add_comm 1, add_zero]
      split_ifs <;> omega
  simpa [wordSum] using hstep 0 key ac

theorem addCarries_eq (sum : ℕ) : addCarries sum = sum % 65536 + sum / 65536 := by
  rw [addCarries, shiftRight_eq_div_pow, show (0xffff : ℕ) = 2 ^ 16 - 1 from rfl,
    and_two_pow_sub_one_eq_mod]

theorem addCarries_twice {ac : ℕ} (h : ac < 2 ^ 32) :
    addCarries (addCarries ac) % 65536 = (ac + ac / 65536 % 65536) % 65536 ↔
    ac % 65536 + ac / 65536 < 65536 := by
  have hhigh : ac / 65536 < 65536 := by omega
  have hmod : (ac + ac / 65536) % 65536 = (ac % 65536 + ac / 65536) % 65536 := by omega
  have hfold : ac % 65536 + ac / 65536 < 131072 := by omega
  rw [addCarries_eq, addCarries_eq, mod_eq_of_lt hhigh, hmod]
  generalize ac % 65536 + ac / 65536 = fold at hfold
  omega

theorem wordSum_dnskeyRdata (alg : UInt8) (flags : UInt16) (key : List UInt8) :
    wordSum (dnskeyRdata alg flags key) = flags.toNat + 0x300 + alg.toNat + wordSum key := by
  have hflags := flags.toNat_lt
  have hhigh : (flags >>> 8).toUInt8.toNat = flags.toNat / 256 := by
    simp [shiftRight_eq_div_pow]
    omega
  rw [dnskeyRdata, cons_append, cons_append, cons_append, cons_append, nil_append,
    wordSum_cons_cons, wordSum_cons_cons, hhigh]
  simp
  omega

/-- The last four octets of a key, by which the RSAMD5 tags are computed. -/
theorem exists_last_four {key : List UInt8} (h : 4 ≤ key.length) :
    ∃ front a b c d, key = front ++ [a, b, c, d] := by
  refine ⟨key.take (key.length - 4), ?_⟩
  have hlen : (key.drop (key.length - 4)).length = 4 := by simp; omega
  match hdrop : key.drop (key.length - 4), hlen with
  | [a, b, c, d], _ => exact ⟨a, b, c, d, by rw [← hdrop, take_append_drop]⟩

/-- The two tags are the tag of the key if, and only if, no second carry comes up, or for RSAMD5
the octets in question are all the same. -/
theorem keytags_eq_keyTag (alg : UInt8) (flags : UInt16) (key : List UInt8) (hmin : 4 ≤ key.length)
    (hmax : key.length ≤ 65531) :
    (computeKeyTag alg flags key = keyTag alg flags key ∧
      dnskeyKeytag alg flags key = keyTag alg flags key) ↔
      if alg = 1 then key[key.length - 4]! = key[key.length - 3]! ∧
      key[key.length - 3]! = key[key.length - 2]!
      else wordSum (dnskeyRdata alg flags key) % 65536 + wordSum (dnskeyRdata alg flags key) /
      65536 < 65536 := by
  by_cases halg : alg = 1
  · obtain ⟨front, a, b, c, d, rfl⟩ := exists_last_four hmin
    have ha := a.toNat_lt
    have hb := b.toNat_lt
    have hc := c.toNat_lt
    have hd := d.toNat_lt
    simp [computeKeyTag, dnskeyKeytag, keyTag, dnskeyRdata, halg, ofDigits_cons]
    rw [← UInt8.toNat_inj, ← UInt8.toNat_inj]
    omega
  · have hsum := wordSum_lt (dnskeyRdata alg flags key)
    have hlen : (dnskeyRdata alg flags key).length = key.length + 4 := by simp [dnskeyRdata]
    have hlt : wordSum (dnskeyRdata alg flags key) < 2 ^ 32 := by
      rw [hlen] at hsum
      omega
    have hc : dnskeyKeytag alg flags key = keyTag alg flags key := by
      simp only [dnskeyKeytag, keyTag, halg, if_false, keySum_eq, ← wordSum_dnskeyRdata,
        shiftRight_eq_div_pow]
      rw [show (0xffff : ℕ) = 2 ^ 16 - 1 from rfl, and_two_pow_sub_one_eq_mod,
        and_two_pow_sub_one_eq_mod]
    rw [if_neg halg, ← addCarries_twice hlt]
    simp only [hc, and_true, computeKeyTag, keyTag, halg, if_false]
    rw [sumWords_eq _ 0 (by rwa [zero_add]), zero_add]
    rfl

theorem keytags_eq_keyTag_short : (computeKeyTag 8 257 [1, 2, 3, 4] = keyTag 8 257 [1, 2, 3, 4] ∧
    dnskeyKeytag 8 257 [1, 2, 3, 4] = keyTag 8 257 [1, 2, 3, 4]) :=
  (keytags_eq_keyTag 8 257 [1, 2, 3, 4] (by decide) (by decide)).mpr (by decide)

/-- The words add up to `0x1ffff`, and the carry that is added carries again. -/
theorem keytags_differ : computeKeyTag 8 257 [0xff, 0xff, 0xfb, 0xf7] = 1 ∧
    dnskeyKeytag 8 257 [0xff, 0xff, 0xfb, 0xf7] = 0 ∧
    keyTag 8 257 [0xff, 0xff, 0xfb, 0xf7] = 0 := by
  decide

end Dnsmasq.Dnssec
