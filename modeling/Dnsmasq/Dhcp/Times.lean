import Dnsmasq.Dhcp.Context

/-!
The renewal and rebinding times of a DHCPv4 reply, in the 32-bit arithmetic of `do_options`.
-/
namespace Dnsmasq.Dhcp

/-- `while (fuzz > bound) fuzz = fuzz/2` -/
def halveFuzz (bound fuzz : ℕ) : ℕ := if bound < fuzz then halveFuzz bound (fuzz / 2) else fuzz

theorem halveFuzz_le (bound fuzz : ℕ) : halveFuzz bound fuzz ≤ bound ∧
    halveFuzz bound fuzz ≤ fuzz := by
  fun_induction halveFuzz with
  | case1 fuzz h ih => exact ⟨ih.1, Nat.le_trans ih.2 (Nat.div_le_self fuzz 2)⟩
  | case2 fuzz h => exact ⟨Nat.le_of_not_lt h, Nat.le_refl fuzz⟩

/-- A value set by the user counts if it is not longer than the lease. -/
def userTime (leaseTime : BitVec 32) (opt : Option (BitVec 32)) (time : BitVec 32) : BitVec 32 :=
  match opt with
  | some hval => if hval < leaseTime ∧ hval > 2 then hval else time
  | none => time

def renewTimes (leaseTime : BitVec 32) (fuzz : BitVec 16) (t1 t2 : Option (BitVec 32)) :
    BitVec 32 × BitVec 32 :=
  let t1val := userTime leaseTime t1 (leaseTime / 2)
  let t2val := userTime leaseTime t2 (leaseTime * 7 / 8)
  let t1val := if t2val ≤ t1val then t2val - 1 else t1val
  let fuzz := BitVec.ofNat 32 (halveFuzz (t1val / 8).toNat fuzz.toNat)
  (t1val - fuzz, t2val - fuzz)

def TimesInOrder (leaseTime : BitVec 32) (times : BitVec 32 × BitVec 32) : Prop :=
  0 < times.1 ∧ times.1 < times.2 ∧ times.2 < leaseTime

variable {leaseTime : BitVec 32}

theorem toNat_eighth (time : BitVec 32) : (time / 8).toNat = time.toNat / 8 := BitVec.toNat_udiv

theorem le_userTime (opt : Option (BitVec 32)) {time : BitVec 32} (h : 3 ≤ time.toNat) :
    3 ≤ (userTime leaseTime opt time).toNat := by
  unfold userTime
  split
  · split_ifs with hset
    · bv_omega
    · exact h
  · exact h

theorem userTime_lt (opt : Option (BitVec 32)) {time : BitVec 32} (h : time < leaseTime) :
    userTime leaseTime opt time < leaseTime := by
  unfold userTime
  split
  · split_ifs with hset
    · exact hset.1
    · exact h
  · exact h

/-- T2 is usable if the user has set it, or if seven times the lease time does not wrap round to
almost nothing. -/
theorem two_le_t2_iff (t2 : Option (BitVec 32)) :
    2 ≤ (userTime leaseTime t2 (leaseTime * 7 / 8)).toNat ↔
    16 ≤ leaseTime * 7 ∨ ∃ hval, t2 = some hval ∧ 2 < hval ∧ hval < leaseTime := by
  have hwrap : 2 ≤ (leaseTime * 7 / 8).toNat ↔ 16 ≤ leaseTime * 7 := by
    rw [toNat_eighth]
    bv_omega
  cases t2 with
  | none => simpa [userTime] using hwrap
  | some hval =>
    simp only [userTime, Option.some.injEq, exists_eq_left']
    split_ifs with hset
    · have htwo : 2 ≤ hval.toNat := by bv_omega
      exact iff_of_true htwo (.inr hset.symm)
    · have hunset : ¬(2 < hval ∧ hval < leaseTime) := fun h => hset h.symm
      rw [hwrap, or_iff_left hunset]

theorem timesInOrder_iff (leaseTime : BitVec 32) (hmin : 120 ≤ leaseTime)
    (hfinite : leaseTime ≠ 0xffffffff)
    (fuzz : BitVec 16) (t1 t2 : Option (BitVec 32)) :
    TimesInOrder leaseTime (renewTimes leaseTime fuzz t1 t2) ↔
      16 ≤ leaseTime * 7 ∨ ∃ hval, t2 = some hval ∧ 2 < hval ∧ hval < leaseTime := by
  have hhalf : (leaseTime / 2).toNat = leaseTime.toNat / 2 := BitVec.toNat_udiv
  have hseven : (leaseTime * 7).toNat = leaseTime.toNat * 7 % 2 ^ 32 := BitVec.toNat_mul leaseTime 7
  have ht1 : 3 ≤ (userTime leaseTime t1 (leaseTime / 2)).toNat := by
    apply le_userTime
    rw [hhalf]
    bv_omega
  have ht2 : userTime leaseTime t2 (leaseTime * 7 / 8) < leaseTime := by
    apply userTime_lt
    rw [BitVec.lt_def, toNat_eighth]
    have hpos : 0 < leaseTime.toNat := by bv_omega
    have hle := Nat.mod_le (leaseTime.toNat * 7) (2 ^ 32)
    omega
  -- a lease time that wraps round is not one of the last, so that T2 minus the fuzz is beyond it
  have hshort : ¬2 ≤ (userTime leaseTime t2 (leaseTime * 7 / 8)).toNat →
      leaseTime.toNat + 2 ^ 16 < 2 ^ 32 := by
    rw [two_le_t2_iff, not_or]
    rintro ⟨hwrap, -⟩
    have hwrap : (leaseTime * 7).toNat < 16 := by bv_omega
    by_contra hlong
    have hsix : leaseTime.toNat * 7 / 2 ^ 32 = 6 := by omega
    omega
  rw [← two_le_t2_iff]
  simp only [TimesInOrder, renewTimes]
  generalize userTime leaseTime t1 (leaseTime / 2) = t1val at ht1
  generalize userTime leaseTime t2 (leaseTime * 7 / 8) = t2val at ht2 hshort
  generalize ht : (if t2val ≤ t1val then t2val - 1 else t1val) = t
  obtain ⟨hbound, hfuzz⟩ := halveFuzz_le (t / 8).toNat fuzz.toNat
  generalize halveFuzz (t / 8).toNat fuzz.toNat = f at hbound hfuzz
  rw [toNat_eighth] at hbound
  split_ifs at ht <;> subst ht <;> bv_omega

theorem timesInOrder_oneHour : TimesInOrder 3600 (renewTimes 3600 500 none none) :=
  (timesInOrder_iff 3600 (by decide) (by decide) 500 none none).mpr (.inl (by decide))

/-- Seven times this lease time is 3, so that T2 is 0 and T1 goes below that. -/
theorem renewTimes_wraps : renewTimes 613566757 0 none none = (0xffffffff, 0) ∧
    ¬TimesInOrder 613566757 (renewTimes 613566757 0 none none) := by
  have htimes : renewTimes 613566757 0 none none = (0xffffffff, 0) := by
    have hfuzz (bound : ℕ) : halveFuzz bound (0 : BitVec 16).toNat = 0 :=
      Nat.le_zero.mp (halveFuzz_le bound _).2
    simp only [renewTimes, hfuzz]
    decide
  rw [htimes]
  exact ⟨rfl, fun h => absurd h.2.1 (by decide)⟩

end Dnsmasq.Dhcp
