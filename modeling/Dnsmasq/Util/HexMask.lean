import Dnsmasq.LeaseFile.Text

/-!
`parse_hex` with the mask of its wildcards, and `memcmp_masked`, which counts the octets of a
hardware address that a pattern fixes.
-/
namespace Dnsmasq.Util

open List LeaseFile

def dhcpChaddrMax : ℕ := 16

/-- With the mask: a bit is shifted in for each octet, and set if the octet is a `*`. -/
def maskedRun (text : CString) (maxlen : ℕ) (s : HexState × ℕ) (run : CString × Option UInt8) :
    Option (HexState × ℕ) :=
  (hexRun text maxlen s.1 run).map fun st =>
    let k := st.out.length - s.1.out.length
    (st, if run.1 = [star] ∧ k ≠ 0 then (s.2 <<< 1 ||| 1) % 2 ^ 32 else (s.2 <<< k) % 2 ^ 32)

def maskedLoop (text : CString) (maxlen : ℕ) : List (CString × Option UInt8) → HexState × ℕ →
    Option (HexState × ℕ)
  | [], s => some s
  | run :: runs, s =>
    if s.1.out.length < maxlen then (maskedRun text maxlen s run).bind (maskedLoop text maxlen runs)
      else some s

/-- The octets, the mask and the hardware type. -/
def parseHexMasked (maxlen : ℕ) (mac : Bool) (text : CString) : Option (Bytes × ℕ × ℕ) :=
  (maskedLoop text maxlen (hexRuns text []) ({ pending := mac }, 0)).map fun s =>
    (s.1.out, s.2, s.1.macType)

/-- From the last octets to the first. -/
def maskedCount : Bytes → Bytes → ℕ → ℕ → ℕ
  | a :: as, b :: bs, mask, count =>
    if mask &&& 1 = 0 then if a = b then maskedCount as bs (mask >>> 1) (count + 1) else 0
    else maskedCount as bs (mask >>> 1) count
  | _, _, _, count => count

def memcmpMasked (a b : Bytes) (mask : ℕ) : ℕ := maskedCount a.reverse b.reverse mask 1

def runOctets (run : CString) : List (Option UInt8) :=
  if run = [star] then [none] else ((pairs run).map fun p => UInt8.ofNat (strtol16 p)).map some

/-- What a pattern says of each octet. A hardware type can come first, if there is `mac`. -/
def patternOctets : Bool → List (CString × Option UInt8) → List (Option UInt8)
  | _, [] => []
  | mac, run :: runs =>
    if run.1.isEmpty then patternOctets mac runs
    else if mac && run.2 == some hyphen then patternOctets false runs
    else runOctets run.1 ++ patternOctets false runs

/-- The address has the octets that the pattern fixes. -/
def Fits (p : List (Option UInt8)) (addr : Bytes) : Prop :=
    Forall₂ (fun o b => ∀ x ∈ o, x = b) p addr

/-- The mask of the octets that are wild, the last octet first. -/
def wildMask : List (Option UInt8) → ℕ
  | [] => 0
  | o :: p => 2 * wildMask p + o.isNone.toNat

/-- The octets `P` have been read. Where they are wild, nothing is known of what stands in their
place. -/
structure Parsed (P : List (Option UInt8)) (s : HexState × ℕ) : Prop where
  mask : s.2 = wildMask P.reverse
  out : Fits P s.1.out

variable {p P : List (Option UInt8)} {a addr : Bytes} {text : CString} {maxlen : ℕ}
  {run : CString × Option UInt8}
    {s s' : HexState × ℕ}

theorem wildMask_lt (p : List (Option UInt8)) : wildMask p < 2 ^ p.length := by
  induction p with
  | nil => exact Nat.one_pos
  | cons o p ih =>
    have ho := o.isNone.toNat_lt
    rw [wildMask, length_cons, pow_succ]
    omega

theorem wildMask_append (bs : List UInt8) (p : List (Option UInt8)) :
    wildMask (bs.map some ++ p) = wildMask p * 2 ^ bs.length := by
  induction bs with
  | nil => exact (Nat.mul_one _).symm
  | cons b bs ih =>
    rw [map_cons, cons_append, wildMask, ih, length_cons, pow_succ, Option.isNone_some,
      Bool.toNat_false]
    ring

theorem shift_wildMask {k : ℕ} (h : p.length + k ≤ 32) :
    (wildMask p <<< k) % 2 ^ 32 = wildMask p * 2 ^ k := by
  rw [Nat.shiftLeft_eq]
  apply Nat.mod_eq_of_lt
  calc wildMask p * 2 ^ k < 2 ^ p.length * 2 ^ k :=
    Nat.mul_lt_mul_of_pos_right (wildMask_lt p) (by positivity)
    _ = 2 ^ (p.length + k) := (pow_add 2 _ _).symm
    _ ≤ 2 ^ 32 := Nat.pow_le_pow_right (by norm_num) h

theorem maskedCount_eq (ha : Fits p a) (hlen : addr.length = p.length) (c : ℕ) :
    (Fits p addr → maskedCount a addr (wildMask p) c = c + p.countP Option.isSome) ∧
      (¬ Fits p addr → maskedCount a addr (wildMask p) c = 0) := by
  induction ha generalizing addr c with
  | nil => exact ⟨fun _ => rfl, fun h => absurd (length_eq_zero_iff.mp hlen ▸ Forall₂.nil) h⟩
  | @cons o x p a ho _ ih =>
    obtain ⟨y, addr, rfl⟩ := exists_cons_of_length_eq_add_one hlen
    have hfits : Fits (o :: p) (y :: addr) ↔ (∀ b ∈ o, b = y) ∧ Fits p addr := forall₂_cons
    rw [hfits, maskedCount, wildMask, Nat.and_one_is_mod, Nat.shiftRight_one]
    cases o with
    | none =>
      rw [Option.isNone_none, Bool.toNat_true, if_neg (by omega), show (2 * wildMask p + 1) / 2 =
        wildMask p by omega]
      simpa using ih (Nat.succ.inj hlen) c
    | some b =>
      have hbx : b = x := ho b rfl
      rw [Option.isNone_some, Bool.toNat_false, if_pos (by omega), show (2 * wildMask p + 0) / 2 =
        wildMask p by omega, countP_cons_of_pos rfl, hbx]
      obtain ⟨hpos, hneg⟩ := ih (Nat.succ.inj hlen) (c + 1)
      split_ifs with hxy
      · refine ⟨fun h => ?_, fun h => hneg fun hf => h ⟨?_, hf⟩⟩
        · rw [hpos h.2]
          ring
        · rintro _ ⟨⟩
          exact hxy
      · exact ⟨fun h => absurd (h.1 x rfl) hxy, fun _ => rfl⟩

def typeExpected (st : HexState) : Bool := st.out.isEmpty && st.pending

theorem patternOctets_cons (mac : Bool) (run : CString × Option UInt8)
    (runs : List (CString × Option UInt8)) :
    patternOctets mac (run :: runs) = patternOctets mac [run] ++ patternOctets (mac &&
      run.1.isEmpty) runs := by
  simp only [patternOctets, append_nil]
  split_ifs with hempty
  · simp [hempty]
  · simp [hempty]
  · simp [hempty]

theorem parsed_run (h : Parsed P s) (hlt : s.1.out.length < maxlen) (hmax : maxlen ≤ 32)
    (hrun : maskedRun text maxlen s run = some s') :
    Parsed ((P ++ patternOctets (typeExpected s.1) [run]).take maxlen) s' ∧
    s'.1.out.length ≤ maxlen ∧
      typeExpected s'.1 = (typeExpected s.1 && run.1.isEmpty) := by
  obtain ⟨⟨out, macType, pending⟩, m⟩ := s
  obtain ⟨st, hst, rfl⟩ := Option.map_eq_some_iff.mp hrun
  obtain ⟨rfl, hout⟩ := h
  dsimp only at hst hlt hout ⊢
  have hP : P.length = out.length := hout.length_eq
  have htake : P.take maxlen = P := take_of_length_le (hP.trans_le hlt.le)
  have hstay : wildMask P.reverse % 4294967296 = wildMask P.reverse := by
    simpa using @shift_wildMask P.reverse 0 (by rw [length_reverse]; omega)
  unfold hexRun at hst
  dsimp only at hst
  simp only [patternOctets, append_nil, typeExpected]
  split_ifs at hst with h1 h2 h3 h4 h5
  · cases hst
    simpa [h2, hstay, htake, hlt.le] using ⟨rfl, hout⟩
  · cases hst
    simp only [Bool.and_eq_true] at h3
    simpa [h2, h3, hstay, htake, hlt.le] using ⟨rfl, hout⟩
  all_goals
    have htype : (out.isEmpty && pending && run.2 == some hyphen) = false := by
      rw [Bool.and_comm, ← Bool.and_assoc]
      exact Bool.not_eq_true _ ▸ h3
    cases hst
  · have hmask : (wildMask P.reverse <<< 1 ||| 1) % 4294967296 = wildMask (none :: P.reverse) := by
      have hshift := @shift_wildMask P.reverse 1 (by rw [length_reverse]; omega)
      have hor := @Nat.two_pow_add_eq_or_of_lt 1 1 (by norm_num) (wildMask P.reverse)
      rw [wildMask, Option.isNone_none, Bool.toNat_true]
      rw [Nat.shiftLeft_eq, Nat.mul_comm] at hshift ⊢
      rw [← hor]
      omega
    have htake : (P ++ [none]).take maxlen = P ++ [none] :=
      take_of_length_le (by rw [length_append, hP]; exact hlt)
    have hnew : Fits (P ++ [none]) (out ++ [untouched text out.length]) :=
      rel_append hout (.cons nofun .nil)
    simpa [h2, htype, eq_of_beq h4, runOctets, hmask, htake, Nat.succ_le_of_lt hlt] using
      ⟨by rw [reverse_append]; rfl, hnew⟩
  · have hne : run.1 ≠ [LeaseFile.star] := by simpa using h4
    have hpairs : pairs run.1 ≠ [] := by
      cases hrun : run.1 with
      | nil => simp [hrun] at h2
      | cons a rest => cases rest <;> simp [pairs]
    have hfits : ∀ bs : Bytes, Fits (bs.map some) bs := by simp [Fits]
    rw [if_neg h2, if_neg (by simp [htype]), if_neg fun e => hne e.1, runOctets,
      if_neg hne, take_append,
      take_of_length_le (hP.trans_le hlt.le), hP, ← map_take, ← map_take, length_append,
      Nat.add_sub_cancel_left, length_map]
    refine ⟨⟨?_, ?_⟩, ?_, ?_⟩
    · rw [reverse_append, ← map_reverse, wildMask_append, length_reverse, length_map]
      apply shift_wildMask
      rw [length_reverse, length_take]
      omega
    · exact rel_append hout (hfits _)
    · rw [length_take]
      omega
    · simp [h2, Nat.sub_eq_zero_iff_le, hlt.not_ge, hpairs]

theorem parsed_loop {runs : List (CString × Option UInt8)} (h : Parsed P s)
    (hle : s.1.out.length ≤ maxlen) (hmax : maxlen ≤ 32)
    (hloop : maskedLoop text maxlen runs s = some s') :
    Parsed ((P ++ patternOctets (typeExpected s.1) runs).take maxlen) s' := by
  induction runs generalizing P s with
  | nil =>
    rw [patternOctets, append_nil, take_of_length_le (h.out.length_eq.trans_le hle),
      ← Option.some.inj hloop]
    exact h
  | cons run runs ih =>
    rw [maskedLoop] at hloop
    split_ifs at hloop with hlt
    · obtain ⟨s₁, hrun, hloop⟩ := Option.bind_eq_some_iff.mp hloop
      obtain ⟨hs₁, hle₁, htype⟩ := parsed_run h hlt hmax hrun
      have hrest := ih hs₁ hle₁ hloop
      rw [htype, take_append, take_take, Nat.min_self, length_take] at hrest
      rw [patternOctets_cons, ← append_assoc, take_append]
      convert hrest using 3
      omega
    · rw [take_left' (h.out.length_eq.trans (le_antisymm hle (not_lt.mp hlt))),
        ← Option.some.inj hloop]
      exact h

/-- A pattern fits if, and only if, the result is positive, and then the result is one more than
the number of the octets that it fixes. -/
theorem memcmpMasked_pos_iff {mac : Bool} {text : CString} {out : Bytes} {mask macType : ℕ}
    (h : parseHexMasked dhcpChaddrMax mac text = some (out, mask, macType)) :
    let p := (patternOctets mac (hexRuns text [])).take dhcpChaddrMax
    Fits p out ∧ ∀ a addr, Fits p a → addr.length = out.length →
      (0 < memcmpMasked a addr mask ↔ Fits p addr) ∧
      (0 < memcmpMasked a addr mask → memcmpMasked a addr mask = 1 + p.countP Option.isSome) := by
  obtain ⟨s, hloop, heq⟩ := Option.map_eq_some_iff.mp h
  cases heq
  intro p
  have hparsed : Parsed p s := @parsed_loop [] text dhcpChaddrMax ({ pending := mac }, 0) s _ ⟨rfl,
    .nil⟩ (Nat.zero_le _) (by decide) hloop
  refine ⟨hparsed.out, fun a addr ha hlen => ?_⟩
  obtain ⟨hpos, hneg⟩ :=
    @maskedCount_eq p.reverse a.reverse addr.reverse (forall₂_reverse_iff.mpr ha)
    (by rw [length_reverse, length_reverse, hlen, hparsed.out.length_eq]) 1
  rw [Fits, forall₂_reverse_iff, ← hparsed.mask] at hpos hneg
  rw [countP_reverse] at hpos
  change (0 < maskedCount _ _ _ _ ↔ _) ∧ (0 < maskedCount _ _ _ _ → maskedCount _ _ _ _ = _)
  by_cases hfits : Fits p addr
  · rw [hpos hfits]
    exact ⟨iff_of_true (by omega) hfits, fun _ => rfl⟩
  · rw [hneg hfits]
    exact ⟨iff_of_false (by omega) hfits, fun hlt => absurd hlt (by omega)⟩

/-- The pattern `06-11:*:33`. -/
theorem memcmpMasked_typed : memcmpMasked [0x11, 0x00, 0x33] [0x11, 0x22, 0x33] 2 = 3 := by
  have hparse : parseHexMasked dhcpChaddrMax true [48, 54, 45, 49, 49, 58, 42, 58, 51, 51] =
      some ([0x11, 0x36, 0x33], 2, 6) := by
    decide
  obtain ⟨-, hall⟩ := memcmpMasked_pos_iff hparse
  have hp : (patternOctets true (hexRuns [48, 54, 45, 49, 49, 58, 42, 58, 51, 51] [])).take
      dhcpChaddrMax = [some 0x11, none, some 0x33] := by decide
  rw [hp] at hall
  exact (hall [0x11, 0x00, 0x33] [0x11, 0x22, 0x33] (by simp [Fits]) rfl).2 (by decide)

end Dnsmasq.Util
