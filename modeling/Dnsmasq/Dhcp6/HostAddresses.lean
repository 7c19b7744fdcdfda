import Dnsmasq.Dhcp6.Reserved

/-!
`config_valid` against `config_implies` and `check_address`: which addresses of a `dhcp-host` line
are tried, and whether the line is found again from the one that is given.
-/
namespace Dnsmasq.Dhcp6

open List

variable {a b c : In6Addr} {m n : ℕ}

theorem isSameNet6_trans (h : isSameNet6 a b n = true) (h' : isSameNet6 b c n = true) :
    isSameNet6 a c n = true := by
  unfold isSameNet6 at h h' ⊢
  split_ifs at h h' ⊢
  · simp_all
  · simp_all

theorem isSameNet6_mono (h : isSameNet6 a b n = true) (hm : m ≤ n) : isSameNet6 a b m = true := by
  have hshift {x y : BitVec 64} {i j : ℕ} (hxy : x >>> i = y >>> i) (hij : i ≤ j) :
      x >>> j = y >>> j := by
    obtain ⟨k, rfl⟩ := Nat.exists_eq_add_of_le hij
    rw [BitVec.shiftRight_add, BitVec.shiftRight_add, hxy]
  unfold isSameNet6 at h ⊢
  split_ifs at h ⊢ <;> simp only [Bool.and_eq_true, beq_iff_eq] at h ⊢
  · apply hshift h
    omega
  · rw [h.1]
  · omega
  · refine ⟨h.1, ?_⟩
    apply hshift h.2
    omega

/-- The addresses of a block are its first one, with no bits behind its length, and those that
follow. -/
theorem isSameNet6_iff (h64 : 64 < n) (hzero : a.lo.toNat % 2 ^ (128 - n) = 0) :
    isSameNet6 a b n = true ↔ ∃ k < 2 ^ (128 - n), b = a.setPart (a.lo + BitVec.ofNat 64 k) := by
  obtain ⟨e, he⟩ : ∃ e, e = 128 - n := ⟨_, rfl⟩
  have hsize : 2 ^ (64 - e) * 2 ^ e = 2 ^ 64 := by
    rw [← pow_add]
    congr 1
    omega
  have hdiv := Nat.div_mul_cancel (Nat.dvd_of_mod_eq_zero hzero)
  simp only [isSameNet6, if_neg h64.not_ge, ← he, Bool.and_eq_true, beq_iff_eq, ← BitVec.toNat_inj,
    BitVec.toNat_ushiftRight, Nat.shiftRight_eq_div_pow] at hdiv ⊢
  generalize hq : a.lo.toNat / 2 ^ e = q at hdiv
  have hroom : q * 2 ^ e + 2 ^ e ≤ 2 ^ 64 := by
    rw [← hsize, ← Nat.succ_mul]
    apply Nat.mul_le_mul_right
    have := a.lo.isLt
    rw [← hdiv, ← hsize] at this
    exact Nat.lt_of_mul_lt_mul_right this
  constructor
  · rintro ⟨hhi, hlo⟩
    refine ⟨b.lo.toNat % 2 ^ e, Nat.mod_lt _ (Nat.two_pow_pos e), ?_⟩
    have hb := Nat.div_add_mod' b.lo.toNat (2 ^ e)
    rw [← hlo] at hb
    obtain ⟨hi, lo⟩ := b
    simp only [In6Addr.setPart, In6Addr.mk.injEq, ← BitVec.toNat_inj]
    refine ⟨hhi.symm, ?_⟩
    simp only [BitVec.toNat_add, BitVec.toNat_ofNat] at hb ⊢
    omega
  · rintro ⟨k, hk, rfl⟩
    have : (a.lo + BitVec.ofNat 64 k).toNat = q * 2 ^ e + k := by
      simp only [BitVec.toNat_add, BitVec.toNat_ofNat]
      omega
    refine ⟨rfl, ?_⟩
    rw [In6Addr.setPart, this, Nat.add_comm, Nat.add_mul_div_right _ _ (Nat.two_pow_pos e),
      Nat.div_eq_of_lt hk, Nat.zero_add]

namespace AddrList

/-- One address, or a block longer than 64 bits that is aligned to its length. -/
def Aligned (x : AddrList) : Prop :=
  64 < x.length ∧ x.length ≤ 128 ∧ x.addr.lo.toNat % 2 ^ (128 - x.length) = 0

/-- A bare host part is taken on the net of the range. -/
def base (x : AddrList) (c : Context) : In6Addr :=
    (if x.wildcard then c.start else x.addr).setPart x.addr.lo

def Covers (x : AddrList) (c : Context) (addr : In6Addr) : Prop :=
    isSameNet6 (x.base c) addr x.length = true

/-- The entry was not declined in the last minutes, and begins in the subnet of the range. -/
def considered (x : AddrList) (now : ℕ) (c : Context) : Bool :=
  !x.declineTime.any (now < · + declineBackoff) &&
    if x.wildcard then c.prefixLen == 64 else isSameNet6 c.start x.addr c.prefixLen

end AddrList

variable {d : Daemon} {s : Session} {iaid : ℕ} {c : Context} {config : Config} {x : AddrList}
  {addr : In6Addr}

theorem AddrList.Aligned.covers_iff (h : x.Aligned) :
    x.Covers c addr ↔ ∃ k < x.count, addr = (x.base c).setPart (x.addr.lo + BitVec.ofNat 64 k) := by
  obtain ⟨h64, h128, hzero⟩ := h
  have hcount : x.count = 2 ^ (128 - x.length) := by
    rw [length] at h64
    rw [count, length]
    cases hlen : x.prefixLen with
    | none => rfl
    | some len =>
      rw [hlen, Option.getD_some] at h64
      apply Nat.mod_eq_of_lt
      apply Nat.pow_lt_pow_right one_lt_two
      omega
  rw [hcount]
  exact isSameNet6_iff h64 hzero

theorem AddrList.implies_of_covers (hx : x ∈ config.addr6) {now : ℕ}
    (hconsidered : x.considered now c = true) (hcovers : x.Covers c addr)
    (hlen : c.prefixLen ≤ x.length) : (configImplies (some config) c addr).isSome = true := by
  rw [configImplies, Option.bind_some, findIdx?_isSome, any_eq_true]
  refine ⟨x, hx, ?_⟩
  simp only [considered, Bool.and_eq_true] at hconsidered
  obtain ⟨-, hnet⟩ := hconsidered
  unfold Covers base at hcovers
  split at hnet
  · simp_all
  rename_i hwild
  simp only [hwild, Bool.false_eq_true, if_false, Bool.false_and] at hcovers ⊢
  rw [Bool.and_eq_true]
  exact ⟨isSameNet6_trans hnet (isSameNet6_mono hcovers hlen), hcovers⟩

namespace Daemon

theorem configValid_eq (hconfig : d.config s.config = some config) :
    d.configValid s iaid c = config.addr6.findSome? fun x =>
      if x.considered s.arrival.now c then d.firstFree s iaid (x.base c) x.count x.addr.lo
        else none := by
  have hbase (b : In6Addr) (n : ℕ) (host : BitVec 64) :
      d.firstFree s iaid (b.setPart host) n host = d.firstFree s iaid b n host := by
    rw [firstFree_eq, firstFree_eq]
    rfl
  simp only [configValid, hconfig]
  congr 1
  funext x
  simp only [AddrList.considered, AddrList.base, hbase, AddrList.count]
  cases x.declineTime.any (s.arrival.now < · + declineBackoff) with
  | true => rfl
  | false =>
    cases x.wildcard with
    | false => rfl
    | true =>
      by_cases h64 : c.prefixLen = 64
      · exact (if_neg (not_not.mpr h64)).trans (if_pos (by simpa using h64)).symm
      · exact (if_pos h64).trans (if_neg (by simpa using h64)).symm

/-- `config_valid` finds an address that nobody else has if there is one in the entries that it
looks at. The line is found again from it unless the entry is wider than the subnet of the range. -/
theorem configValid_considered (hconfig : d.config s.config = some config)
    (haligned : ∀ x ∈ config.addr6, x.Aligned) :
    (∀ addr, d.configValid s iaid c = some addr → d.checkAddress s iaid addr = true ∧
      ∃ x ∈ config.addr6, x.considered s.arrival.now c = true ∧ x.Covers c addr ∧
        (c.prefixLen ≤ x.length → (configImplies (some config) c addr).isSome = true)) ∧
    (d.configValid s iaid c = none → ∀ x ∈ config.addr6, x.considered s.arrival.now c = true →
      ∀ addr, x.Covers c addr → d.checkAddress s iaid addr = false) := by
  rw [configValid_eq hconfig]
  constructor
  · intro addr h
    obtain ⟨x, hx, haddr⟩ := exists_of_findSome?_eq_some h
    split at haddr
    · rename_i hconsidered
      obtain ⟨hcheck, htried⟩ := firstFree_eq_some haddr
      have hcovers := (haligned x hx).covers_iff.mpr htried
      exact ⟨hcheck, x, hx, hconsidered, hcovers, AddrList.implies_of_covers hx hconsidered hcovers⟩
    · cases haddr
  · intro h x hx hconsidered addr hcovers
    have hnone := findSome?_eq_none_iff.mp h x hx
    rw [if_pos hconsidered, firstFree_eq, find?_eq_none] at hnone
    obtain ⟨k, hk, rfl⟩ := (haligned x hx).covers_iff.mp hcovers
    have := hnone _ (mem_map_of_mem (mem_range.mpr hk))
    rwa [Bool.not_eq_true] at this

def hostLine (x : AddrList) : Daemon :=
    { reservedRange with dhcpConf := [{ clid := some [2], addr6 := [x] }] }

def hostSession (now : ℕ) : Session :=
  { arrival := { context := [0], now, rounds := 1 }, clid := [2], config := some 0, tagif := [],
    ignore := false }

/-- Another client has the first two addresses of the block. -/
def heldBlock : Daemon :=
  { hostLine { addr := ⟨0x20010db800000000, 0x140⟩, prefixLen := some 124 } with
    db := {
      leases := (Lib.Registry.empty.add
          { id := 0, type := .na, addr := ⟨0x20010db800000000, 0x140⟩, clid := some [3] } rfl).add
        { id := 1, type := .na, addr := ⟨0x20010db800000000, 0x141⟩, clid := some [3] } rfl
      leasesLeft := 8 } }

theorem configValid_considered_block :
    let x : AddrList := { addr := ⟨0x20010db800000000, 0x140⟩, prefixLen := some 124 }
    let addr : In6Addr := ⟨0x20010db800000000, 0x142⟩
    heldBlock.checkAddress (hostSession 0) 1 x.addr = false ∧
      heldBlock.checkAddress (hostSession 0) 1 addr = true ∧
      ∃ y ∈ [x], y.considered 0 sampleRange = true ∧ y.Covers sampleRange addr ∧
        (sampleRange.prefixLen ≤ y.length →
          (configImplies (some { clid := some [2], addr6 := [x] }) sampleRange addr).isSome =
          true) := by
  intro x addr
  have haligned : ∀ y ∈ [x], y.Aligned := by simp [x, AddrList.Aligned, AddrList.length]
  refine ⟨by decide, ?_⟩
  exact (configValid_considered (d := heldBlock) (s := hostSession 0) rfl haligned).1
    addr (by decide)

/-- An address that was declined a minute ago is left alone, but the line still stands for it. -/
theorem configValid_declined :
    let x : AddrList := { addr := ⟨0x20010db800000000, 0x140⟩, declineTime := some 1000 }
    (hostLine x).configValid (hostSession 1060) 1 sampleRange = none ∧
      (configImplies (some { clid := some [2], addr6 := [x] }) sampleRange x.addr).isSome = true ∧
      (hostLine x).checkAddress (hostSession 1060) 1 x.addr = true := by
  decide

end Daemon

end Dnsmasq.Dhcp6
