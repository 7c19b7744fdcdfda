import Dnsmasq.Dns.RoundTrip

/-!
The type maps of NSEC and NSEC3 records. The walks over them step over a block by its length without
the two octets of its header, so only the first block is read as it is meant.
-/
namespace Dnsmasq.Dnssec

open List Dns

def tNs : ℕ := 2
def tCname : ℕ := 5
def tSoa : ℕ := 6
def tDs : ℕ := 43
def tRrsig : ℕ := 46
def tNsec : ℕ := 47

def typeMask (type : ℕ) : ℕ := 0x80 >>> (type &&& 7)

def typeOffset (type : ℕ) : ℕ := (type &&& 0xff) >>> 3

section Walk

variable (pkt : Packet) (type : ℕ)

/-- The walk over the blocks of the type map in `prove_non_existence_nsec`. `none` is a walk without
end: a block of length zero for another window is never left. -/
def walkTypeMap : ℕ → ℕ → ℕ → Option Bool
  | 0, _, _ => none
  | fuel + 1, p, rdlen =>
    if rdlen < 2 then some true
    else if !pkt.checkLen p rdlen then some false
    else if pkt.get p = type >>> 8 then
      some !(typeOffset type < pkt.get (p + 1) &&
        pkt.get (p + typeOffset type + 2) &&& typeMask type != 0)
    else walkTypeMap fuel (p + pkt.get (p + 1)) (rdlen - pkt.get (p + 1))

/-- The walk in `check_nsec3_coverage`, which has checked the length of the map before. -/
def walkTypeMap3 : ℕ → ℕ → ℕ → Option Bool
  | 0, _, _ => none
  | fuel + 1, p, rdlen =>
    if rdlen < 2 then some true
    else if pkt.get p = type >>> 8 then
      some !(typeOffset type < pkt.get (p + 1) &&
        pkt.get (p + typeOffset type + 2) &&& typeMask type != 0)
    else walkTypeMap3 fuel (p + pkt.get (p + 1)) (rdlen - pkt.get (p + 1))

variable (p rdlen : ℕ)

/-- `rdlen >= 2 && p[0] == 0 && (p[2] & (0x80 >> type)) != 0`, for one of the first eight types. -/
def startsWith (t : ℕ) : Bool :=
  2 ≤ rdlen && pkt.get p == 0 && pkt.get (p + 2) &&& typeMask t != 0

/-- The SOA bit shows that the record is from the wrong side of the delegation. -/
def wrongSide (nameLabels : ℕ) : Bool :=
  nameLabels != 0 && type == tDs && startsWith pkt p rdlen tSoa

/-- Is the type, and any CNAME, missing from the type map of an NSEC record? -/
def typeAbsent (nameLabels : ℕ) : Option Bool :=
  if startsWith pkt p rdlen tCname || wrongSide pkt type p rdlen nameLabels then some false
  else walkTypeMap pkt type (rdlen + 1) p rdlen

def typeAbsent3 (nameLabels : ℕ) : Option Bool :=
  if !pkt.checkLen p rdlen then some false
  else if startsWith pkt p rdlen tCname || wrongSide pkt type p rdlen nameLabels then some false
  else walkTypeMap3 pkt type (rdlen + 1) p rdlen

end Walk

/-- The windows of a type map: block number, length, octets. -/
def typeBlocks : ℕ → List UInt8 → List (ℕ × List UInt8)
  | fuel + 1, window :: len :: rest =>
    (window.toNat, rest.take len.toNat) :: typeBlocks fuel (rest.drop len.toNat)
  | _, _ => []

/-- The blocks of the map of `rdlen` octets at `p`. -/
def mapBlocks (pkt : Packet) (p rdlen : ℕ) : List (ℕ × List UInt8) :=
  typeBlocks rdlen (pkt.bytes p rdlen)

def blockLists (type : ℕ) (block : ℕ × List UInt8) : Bool :=
  block.1 == type >>> 8 &&
    block.2[typeOffset type]?.any fun octet => octet.toNat &&& typeMask type != 0

def listed (type : ℕ) (blocks : List (ℕ × List UInt8)) : Bool := blocks.any (blockLists type)

variable {pkt : Packet} {type t fuel p rdlen len nameLabels : ℕ}

theorem walkTypeMap_eq (h : p + rdlen ≤ pkt.plen) :
    walkTypeMap pkt type fuel p rdlen = walkTypeMap3 pkt type fuel p rdlen := by
  induction fuel generalizing p rdlen with
  | zero => rfl
  | succ fuel ih =>
    rw [walkTypeMap, walkTypeMap3]
    by_cases hlen : rdlen < 2
    · rw [if_pos hlen, if_pos hlen]
    have hcheck : (!pkt.checkLen p rdlen) = false := by simpa [Packet.checkLen] using h
    rw [hcheck, if_neg Bool.false_ne_true]
    split_ifs with hwindow
    · rfl
    by_cases hL : pkt.get (p + 1) ≤ rdlen
    · exact ih (by omega)
    · -- the block is longer than the map, so that nothing is left of it
      rw [Nat.sub_eq_zero_of_le (by omega)]
      cases fuel <;> rfl

theorem mapBlocks_of_short (h : rdlen < 2) : mapBlocks pkt p rdlen = [] := by
  unfold mapBlocks
  interval_cases rdlen <;> simp [Packet.bytes, typeBlocks, range_succ]

/-- The first block, which the end of the map may cut off, and what is left behind it. -/
theorem mapBlocks_cons (h : 2 ≤ rdlen) : mapBlocks pkt p rdlen =
    (pkt.get p, pkt.bytes (p + 2) (min (pkt.get (p + 1)) (rdlen - 2))) ::
      typeBlocks (rdlen - 1) (pkt.bytes (p + 2 + pkt.get (p + 1))
        (rdlen - 2 - pkt.get (p + 1))) := by
  obtain ⟨n, rfl⟩ := Nat.exists_eq_add_of_le' h
  have hbytes : pkt.bytes p (n + 2) = pkt.mem p :: pkt.mem (p + 1) :: pkt.bytes (p + 2) n := by
    rw [Packet.bytes_succ, Packet.bytes_succ]
  rw [mapBlocks, hbytes, typeBlocks, Nat.add_sub_cancel]
  change _ :: typeBlocks (n + 1) ((pkt.bytes (p + 2) n).drop (pkt.get (p + 1))) = _
  rcases Nat.le_total (pkt.get (p + 1)) n with hle | hle
  · obtain ⟨m, hm⟩ := Nat.exists_eq_add_of_le hle
    have htake : (pkt.bytes (p + 2) n).take (pkt.get (p + 1)) =
        pkt.bytes (p + 2) (pkt.get (p + 1)) := by
      rw [hm, Packet.bytes_add]
      exact take_left' (Packet.length_bytes _ _ _)
    have hdrop : (pkt.bytes (p + 2) n).drop (pkt.get (p + 1)) =
        pkt.bytes (p + 2 + pkt.get (p + 1)) (n - pkt.get (p + 1)) := by
      rw [show n - pkt.get (p + 1) = m by omega]
      conv_lhs => rw [hm, Packet.bytes_add]
      exact drop_left' (Packet.length_bytes _ _ _)
    rw [hdrop, Nat.min_eq_left hle]
    exact congrArg (fun octets => (pkt.get p, octets) :: _) htake
  · rw [Nat.min_eq_right hle, Nat.sub_eq_zero_of_le hle, drop_eq_nil_of_le (by simpa using hle)]
    exact congrArg (fun octets => (pkt.get p, octets) :: _)
      (take_of_length_le (by simpa [Packet.get] using hle))

theorem blockLists_bytes : blockLists type (pkt.get p, pkt.bytes (p + 2) len) =
    (pkt.get p == type >>> 8 && (decide (typeOffset type < len) &&
      pkt.get (p + typeOffset type + 2) &&& typeMask type != 0)) := by
  by_cases hoffset : typeOffset type < len
  · have hoctet : (pkt.bytes (p + 2) len)[typeOffset type]? =
        some (pkt.mem (p + typeOffset type + 2)) := by
      rw [Packet.bytes, getElem?_map, getElem?_range hoffset, Option.map_some, Nat.add_right_comm]
    rw [blockLists, hoctet, decide_eq_true hoffset, Bool.true_and]
    rfl
  · rw [blockLists]
    simp [hoffset]

theorem listed_eq (t : ℕ) (blocks : List (ℕ × List UInt8)) :
    listed t blocks = (listed t (blocks.take 1) || listed t blocks.tail) := by
  cases blocks <;> simp [listed]

theorem listed_first (h : 2 ≤ rdlen) : listed type ((mapBlocks pkt p rdlen).take 1) =
    (pkt.get p == type >>> 8 && (decide (typeOffset type < min (pkt.get (p + 1)) (rdlen - 2)) &&
      pkt.get (p + typeOffset type + 2) &&& typeMask type != 0)) := by
  rw [mapBlocks_cons h, ← blockLists_bytes]
  simp [listed]

/-- A block that is cut off is the last one. -/
theorem complete_of_listed_tail (h : listed t (mapBlocks pkt p rdlen).tail = true) :
    pkt.get (p + 1) + 2 < rdlen := by
  by_contra hcut
  by_cases hlen : rdlen < 2
  · rw [mapBlocks_of_short hlen] at h
    cases h
  rw [mapBlocks_cons (by omega), tail_cons, show rdlen - 2 - pkt.get (p + 1) = 0 by omega] at h
  obtain ⟨n, hn⟩ : ∃ n, rdlen - 1 = n + 1 := ⟨rdlen - 2, by omega⟩
  rw [hn] at h
  cases h

theorem walkTypeMap3_first (hlen : 2 ≤ rdlen) (hwindow : pkt.get p = type >>> 8) :
    walkTypeMap3 pkt type (fuel + 1) p rdlen = some !(typeOffset type < pkt.get (p + 1) &&
      pkt.get (p + typeOffset type + 2) &&& typeMask type != 0) := by
  rw [walkTypeMap3, if_neg (by omega), if_pos hwindow]

theorem walkTypeMap3_stuck (hlen : 2 ≤ rdlen) (hwindow : pkt.get p ≠ type >>> 8)
    (hzero : pkt.get (p + 1) = 0) (fuel : ℕ) : walkTypeMap3 pkt type fuel p rdlen = none := by
  induction fuel with
  | zero => rfl
  | succ fuel ih =>
    rw [walkTypeMap3, if_neg (by omega), if_neg hwindow, hzero, Nat.add_zero, Nat.sub_zero, ih]

/-- The walk ends, and reports the type absent exactly when no block lists it. -/
def Reports (pkt : Packet) (type p rdlen : ℕ) (walk : ℕ → ℕ → ℕ → Option Bool) : Prop :=
  ∃ fuel, walk fuel p rdlen = some !listed type (mapBlocks pkt p rdlen)

def BothReport (pkt : Packet) (type p rdlen : ℕ) : Prop :=
  Reports pkt type p rdlen (walkTypeMap pkt type) ∧ Reports pkt type p rdlen (walkTypeMap3 pkt type)

/-- The first block is cut off before the octet of the type, and what stands there has the bit. -/
def Overruns (pkt : Packet) (type p rdlen : ℕ) : Prop :=
  rdlen ≤ typeOffset type + 2 ∧ typeOffset type < pkt.get (p + 1) ∧
    pkt.get (p + typeOffset type + 2) &&& typeMask type ≠ 0

/-- There is no block; or the first block is for the window of the type, has the octet of the type
inside the map if the bit is set, and lists the type unless no block does. -/
def FirstBlockDecides (pkt : Packet) (type p rdlen : ℕ) : Prop :=
  rdlen < 2 ∨ (pkt.get p = type >>> 8 ∧ ¬ Overruns pkt type p rdlen ∧
    (listed type (mapBlocks pkt p rdlen).tail → listed type ((mapBlocks pkt p rdlen).take 1)))

instance (pkt : Packet) (type p rdlen : ℕ) : Decidable (Overruns pkt type p rdlen) :=
  inferInstanceAs (Decidable (_ ∧ _ ∧ _))

instance (pkt : Packet) (type p rdlen : ℕ) : Decidable (FirstBlockDecides pkt type p rdlen) :=
  inferInstanceAs (Decidable (_ ∨ (_ ∧ _ ∧ (_ → _))))

/-- For a first block of the right window the walks are right exactly when its octet for the type is
not read behind the map and no later block lists a type that it does not list. -/
theorem reports_first_iff (hlen : 2 ≤ rdlen) (hwindow : pkt.get p = type >>> 8) :
    Reports pkt type p rdlen (walkTypeMap3 pkt type) ↔ ¬ Overruns pkt type p rdlen ∧
      (listed type (mapBlocks pkt p rdlen).tail →
        listed type ((mapBlocks pkt p rdlen).take 1)) := by
  have hresult : Reports pkt type p rdlen (walkTypeMap3 pkt type) ↔
      listed type (mapBlocks pkt p rdlen) = (decide (typeOffset type < pkt.get (p + 1)) &&
        pkt.get (p + typeOffset type + 2) &&& typeMask type != 0) := by
    constructor
    · rintro ⟨fuel, hfuel⟩
      cases fuel with
      | zero => cases hfuel
      | succ fuel =>
        rw [walkTypeMap3_first hlen hwindow] at hfuel
        simpa using hfuel.symm
    · intro heq
      exact ⟨1, by rw [walkTypeMap3_first hlen hwindow, heq]⟩
  have htail := @complete_of_listed_tail pkt type p rdlen
  rw [hresult, listed_eq, listed_first hlen, hwindow, beq_self_eq_true, Bool.true_and]
  unfold Overruns
  generalize listed type (mapBlocks pkt p rdlen).tail = later at htail ⊢
  by_cases hbit : pkt.get (p + typeOffset type + 2) &&& typeMask type = 0
  · simp [hbit]
  by_cases hoffset : typeOffset type < pkt.get (p + 1)
  · cases later with
    | false =>
      by_cases hin : typeOffset type < rdlen - 2
      · simp [hbit, hoffset, hin, show ¬ rdlen ≤ typeOffset type + 2 by omega]
      · simp [hbit, hoffset, hin, show rdlen ≤ typeOffset type + 2 by omega]
    | true =>
      have hcomplete := htail rfl
      simp [hbit, hoffset, show typeOffset type < rdlen - 2 by omega,
        show ¬ rdlen ≤ typeOffset type + 2 by omega]
  · simp [hoffset]

/-- The walks end with the right answer on a map whose first block decides. On other maps whose
first block is for the window of the type, or is for another window and of length zero, they do
not; on the rest they step into the middle of a block. -/
theorem bothReport_of_firstBlockDecides (pkt : Packet) (type p rdlen : ℕ)
    (h : p + rdlen ≤ pkt.plen) :
    (FirstBlockDecides pkt type p rdlen → BothReport pkt type p rdlen) ∧
      (¬ FirstBlockDecides pkt type p rdlen →
        pkt.get p = type >>> 8 ∨ pkt.get (p + 1) = 0 → ¬ BothReport pkt type p rdlen) := by
  have hboth : BothReport pkt type p rdlen ↔ Reports pkt type p rdlen (walkTypeMap3 pkt type) := by
    unfold BothReport Reports
    simp only [walkTypeMap_eq h, and_self]
  rw [hboth]
  by_cases hlen : rdlen < 2
  · refine ⟨fun _ => ⟨1, ?_⟩, fun hother => absurd (.inl hlen) hother⟩
    rw [walkTypeMap3, if_pos hlen, mapBlocks_of_short hlen]
    rfl
  constructor
  · rintro (hshort | ⟨hwindow, hdecides⟩)
    · exact absurd hshort hlen
    · exact (reports_first_iff (by omega) hwindow).mpr hdecides
  intro hother hcase
  by_cases hwindow : pkt.get p = type >>> 8
  · rw [reports_first_iff (by omega) hwindow]
    exact fun hdecides => hother (.inr ⟨hwindow, hdecides⟩)
  · rintro ⟨fuel, hfuel⟩
    rw [walkTypeMap3_stuck (by omega) hwindow (hcase.resolve_left hwindow)] at hfuel
    cases hfuel

def twoWindows : Packet := .ofBytes [0, 1, 0x40, 1, 1, 0x40]

theorem bothReport_twoWindows : BothReport twoWindows 1 0 6 :=
  (bothReport_of_firstBlockDecides twoWindows 1 0 6 (by decide)).1 (by decide +kernel)

/-- In this map the CAA record is not seen; and behind an empty block for window 0 the walk never
comes to window 1. -/
theorem walkTypeMap_twoWindows :
    (listed 257 (mapBlocks twoWindows 0 6) = true ∧ walkTypeMap twoWindows 257 7 0 6 = some true ∧
        walkTypeMap3 twoWindows 257 7 0 6 = some true) ∧
      ∀ fuel, walkTypeMap3 (.ofBytes [0, 0, 1, 1, 0x40]) 257 fuel 0 5 = none :=
  ⟨by decide +kernel, walkTypeMap3_stuck (by decide) (by decide) (by decide)⟩

section Absent

variable (pkt : Packet) (type p rdlen nameLabels : ℕ)

/-- The map is inside the message, and the bits at its start do not speak against a proof. -/
def Unopposed : Prop :=
  p + rdlen ≤ pkt.plen ∧ startsWith pkt p rdlen tCname = false ∧
    wrongSide pkt type p rdlen nameLabels = false

/-- A block after the first one lists one of the types, the first one does not list the type, and
nothing else speaks against a proof. -/
def Overlooked (types : List ℕ) : Prop :=
  Unopposed pkt type p rdlen nameLabels ∧ listed type ((mapBlocks pkt p rdlen).take 1) = false ∧
    ∃ t ∈ types, listed t (mapBlocks pkt p rdlen).tail = true

/-- What the code has seen when it takes the type for absent. -/
def Passes : Prop :=
  rdlen < 2 ∨ (Unopposed pkt type p rdlen nameLabels ∧
    walkTypeMap3 pkt type (rdlen + 1) p rdlen = some true)

end Absent

section Absent

variable {types : List ℕ}

theorem passes_of_typeAbsent (h : typeAbsent pkt type p rdlen nameLabels = some true) :
    Passes pkt type p rdlen nameLabels := by
  by_cases hlen : rdlen < 2
  · exact .inl hlen
  unfold typeAbsent at h
  split_ifs at h with hrefused
  · cases h
  rw [Bool.not_eq_true, Bool.or_eq_false_iff] at hrefused
  have hin : p + rdlen ≤ pkt.plen := by
    by_contra hout
    rw [walkTypeMap, if_neg hlen, if_pos (by simpa [Packet.checkLen] using hout)] at h
    cases h
  exact .inr ⟨⟨hin, hrefused.1, hrefused.2⟩, walkTypeMap_eq hin ▸ h⟩

theorem unopposed_of_typeAbsent3 (h : typeAbsent3 pkt type p rdlen nameLabels = some true) :
    Unopposed pkt type p rdlen nameLabels ∧
      walkTypeMap3 pkt type (rdlen + 1) p rdlen = some true := by
  unfold typeAbsent3 at h
  split_ifs at h with hout hrefused
  · cases h
  · cases h
  rw [Bool.not_eq_true, Bool.or_eq_false_iff] at hrefused
  exact ⟨⟨by simpa [Packet.checkLen] using hout, hrefused⟩, h⟩

/-- A type that is listed although the code takes it for absent has been overlooked. -/
theorem Passes.overlooked (h : Passes pkt type p rdlen nameLabels) (htypes : types ⊆ [type, tCname])
    (ht : t ∈ types) (hlisted : listed t (mapBlocks pkt p rdlen) = true) :
    Overlooked pkt type p rdlen nameLabels types := by
  by_cases hlen : rdlen < 2
  · rw [mapBlocks_of_short hlen] at hlisted
    cases hlisted
  obtain ⟨hfree, hwalk⟩ := h.resolve_left hlen
  have hfirst : ∀ u, u = type ∨ u = tCname → listed u ((mapBlocks pkt p rdlen).take 1) = false := by
    intro u hu
    by_contra hfirst
    rw [listed_first (Nat.le_of_not_lt hlen)] at hfirst
    simp only [Bool.not_eq_false, Bool.and_eq_true, beq_iff_eq, decide_eq_true_eq,
      lt_min_iff] at hfirst
    obtain ⟨hwindow, ⟨hoffset, -⟩, hbit⟩ := hfirst
    rcases hu with rfl | rfl
    · simp [walkTypeMap3_first (Nat.le_of_not_lt hlen) hwindow, hoffset, hbit] at hwalk
    · have hstart : startsWith pkt p rdlen tCname = true := by
        simp only [startsWith, Bool.and_eq_true, decide_eq_true_eq, beq_iff_eq]
        exact ⟨⟨by omega, hwindow⟩, hbit⟩
      rw [hfree.2.1] at hstart
      cases hstart
  refine ⟨hfree, hfirst type (.inl rfl), t, ht, ?_⟩
  rwa [listed_eq, hfirst t (by simpa using htypes ht), Bool.false_or] at hlisted

/-- With a first block for the window of the type the walks do not get to the others. -/
theorem Overlooked.absent (h : Overlooked pkt type p rdlen nameLabels types)
    (hwindow : pkt.get p = type >>> 8) : typeAbsent pkt type p rdlen nameLabels = some true ∧
      typeAbsent3 pkt type p rdlen nameLabels = some true := by
  obtain ⟨⟨hin, hcname, hside⟩, hfirst, t, -, hlater⟩ := h
  have hcomplete := complete_of_listed_tail hlater
  have hcheck : (!pkt.checkLen p rdlen) = false := by simpa [Packet.checkLen] using hin
  rw [listed_first (by omega), hwindow, beq_self_eq_true, Bool.true_and,
    Nat.min_eq_left (by omega)] at hfirst
  have hwalk : walkTypeMap3 pkt type (rdlen + 1) p rdlen = some true := by
    rw [walkTypeMap3_first (by omega) hwindow, hfirst]
    rfl
  simp only [typeAbsent, typeAbsent3, hcname, hside, hcheck, walkTypeMap_eq hin, hwalk,
    Bool.or_false, Bool.false_eq_true, if_false, and_self]

end Absent

end Dnsmasq.Dnssec
