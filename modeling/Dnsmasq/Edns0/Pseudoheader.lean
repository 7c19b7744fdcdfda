import Dnsmasq.Rfc1035.Sections

/-!
`find_pseudoheader`: the OPT record of a message, and whether it is signed. The questions are
skipped in two ways.
-/
namespace Dnsmasq.Edns0

open Option Dns Rfc1035
open Dnssec.Nsec3 (skipName)

def typeOpt : ℕ := 41
def typeTkey : ℕ := 249
def typeTsig : ℕ := 250

def classAny : ℕ := 255

def opcodeQuery : ℕ := 0

def opcode (pkt : Packet) : ℕ := (pkt.get 2 &&& 0x78) >>> 3

/-- The return value and what has been written through the pointers, `isSign` if it was asked for.
-/
structure Pseudoheader where
  ret : Option ℕ := none
  len : Option ℕ := none
  p : Option ℕ := none
  isLast : Option Bool := none
  isSign : Option Bool := none
  deriving DecidableEq, Repr

def tkeyLoop (pkt : Packet) : ℕ → ℕ → Bool → Option ℕ × Bool
  | 0, ansp, isSign => (some ansp, isSign)
  | i + 1, ansp, isSign =>
    match skipName pkt ansp 4 with
    | none => (none, isSign)
    | some ansp =>
      tkeyLoop pkt i (ansp + 4)
        (isSign || (pkt.getShort (ansp + 2) = classIn && pkt.getShort ansp = typeTkey))

/-- The loop over the additional section, of which so many records are left. -/
def additionalLoop (pkt : Packet) : ℕ → ℕ → Pseudoheader → Pseudoheader
  | 0, _, out => out
  | left + 1, start, out =>
    match skipName pkt start 10 with
    | none => { out with ret := none }
    | some ansp =>
      let type := pkt.getShort ansp
      let save := ansp + 2
      let cls := pkt.getShort save
      let rdlen := pkt.getShort (ansp + 8)
      if !pkt.checkLen (ansp + 10) rdlen then { out with ret := none }
      else
        let ansp := ansp + 10 + rdlen
        if type = typeOpt then
          additionalLoop pkt left ansp
            { out with ret := some start, len := some (ansp - start), p := some save,
                       isLast := some (left = 0) }
        else if out.isSign.isSome ∧ left = 0 ∧ cls = classAny ∧ type = typeTsig then
          additionalLoop pkt left ansp { out with isSign := some true }
        else additionalLoop pkt left ansp out

def findInSections (pkt : Packet) (ansp : Option ℕ) (out : Pseudoheader) : Pseudoheader :=
  match ansp with
  | none => out
  | some ansp =>
    if pkt.arcount = 0 then out
    else
      match skipSection pkt (pkt.ancount + pkt.nscount) ansp with
      | none => out
      | some ansp => additionalLoop pkt pkt.arcount ansp out

def findPseudoheader (pkt : Packet) (askSign : Bool) : Pseudoheader :=
  if askSign then
    if opcode pkt = opcodeQuery then
      let r := tkeyLoop pkt pkt.qdcount 12 false
      findInSections pkt r.1 { isSign := some r.2 }
    else findInSections pkt (some 12) { isSign := some false }
  else findInSections pkt pkt.skipQuestions {}

def Pseudoheader.unsigned (out : Pseudoheader) : Pseudoheader := { out with isSign := none }

def isTsig (pkt : Packet) (f : Frame) : Bool := f.cls pkt = classAny && f.type pkt = typeTsig

/-- The outputs after one more record, which may be the last. -/
def Pseudoheader.note (pkt : Packet) (f : Frame) (last : Bool) (out : Pseudoheader) :
    Pseudoheader :=
  if f.type pkt = typeOpt then
    { out with ret := some f.start, len := some (f.stop - f.start), p := some (f.fields + 2),
               isLast := some last }
  else if out.isSign.isSome ∧ last ∧ f.cls pkt = classAny ∧ f.type pkt = typeTsig then
    { out with isSign := some true }
  else out

theorem additionalLoop_succ (pkt : Packet) (left start : ℕ) (out : Pseudoheader) :
    additionalLoop pkt (left + 1) start out =
      (frameAt pkt start).elim { out with ret := none } fun f =>
        additionalLoop pkt left f.stop (out.note pkt f (left = 0)) := by
  rw [additionalLoop, frameAt]
  cases skipName pkt start 10 with
  | none => rfl
  | some fields =>
    dsimp only [bind_some]
    by_cases hin : (!pkt.checkLen (fields + 10) (pkt.getShort (fields + 8))) = true
    · rw [if_pos hin, if_pos hin]
      rfl
    rw [if_neg hin, if_neg hin, elim_some, Pseudoheader.note]
    dsimp only [Frame.type, Frame.cls, Frame.stop, Frame.rdata]
    simp only [decide_eq_true_eq]
    split_ifs
    · rfl
    · rfl
    · rfl

theorem unsigned_note (pkt : Packet) (f : Frame) (last : Bool) (out : Pseudoheader) :
    (out.note pkt f last).unsigned = out.unsigned.note pkt f last := by
  unfold Pseudoheader.note
  split_ifs with h1 h2 h3 h4
  · rfl
  · cases h3.1
  · rfl
  · cases h4.1
  · rfl

variable {out : Pseudoheader} {b : Bool} {pkt : Packet} {stop : ℕ} {S : Sections}

theorem isSign_note (pkt : Packet) (f : Frame) (last : Bool) (h : out.isSign = some b) :
    (out.note pkt f last).isSign = some (b || (last && isTsig pkt f)) := by
  unfold Pseudoheader.note
  split_ifs with h1 h2
  · simp [isTsig, h1, h, typeOpt, typeTsig]
  · simp [isTsig, h2]
  have hnot : (last && isTsig pkt f) = false := by
    rw [h] at h2
    simpa [isTsig] using h2
  rw [hnot, h, Bool.or_false]

theorem unsigned_additionalLoop (pkt : Packet) (left start : ℕ) (out : Pseudoheader) :
    (additionalLoop pkt left start out).unsigned = additionalLoop pkt left start out.unsigned := by
  induction left generalizing start out with
  | zero => rfl
  | succ left ih =>
    rw [additionalLoop_succ, additionalLoop_succ]
    cases frameAt pkt start with
    | none => rfl
    | some f =>
      rw [elim_some, elim_some, ih, unsigned_note]

theorem isSign_additionalLoop {left start : ℕ} {fs : List Frame}
    (hout : out.isSign = some b) (hfs : framesFrom pkt left start = some (fs, stop)) :
    (additionalLoop pkt left start out).isSign = some (b || fs.getLast?.any (isTsig pkt)) := by
  induction left generalizing start out b fs with
  | zero =>
    cases hfs
    simpa [additionalLoop] using hout
  | succ left ih =>
    rw [additionalLoop_succ]
    obtain ⟨f, hf, hfs⟩ := bind_eq_some_iff.mp hfs
    obtain ⟨⟨fs', stop'⟩, hrest, heq⟩ := map_eq_some_iff.mp hfs
    cases heq
    rw [hf, elim_some, ih (isSign_note pkt f _ hout) hrest]
    cases left with
    | zero =>
      cases hrest
      simp
    | succ left =>
      obtain ⟨f', -, hrest⟩ := bind_eq_some_iff.mp hrest
      obtain ⟨r, -, heq⟩ := map_eq_some_iff.mp hrest
      cases heq
      simp

theorem unsigned_findInSections (pkt : Packet) (ansp : Option ℕ) (out : Pseudoheader) :
    (findInSections pkt ansp out).unsigned = findInSections pkt ansp out.unsigned := by
  unfold findInSections
  cases ansp with
  | none => rfl
  | some ansp =>
    dsimp only
    split_ifs
    · rfl
    · cases skipSection pkt (pkt.ancount + pkt.nscount) ansp with
      | none => rfl
      | some ansp => exact unsigned_additionalLoop pkt _ _ _

theorem tkeyLoop_fst (pkt : Packet) (i ansp : ℕ) (b : Bool) :
    (tkeyLoop pkt i ansp b).1 = Dnssec.skipQuestions pkt i ansp := by
  induction i generalizing ansp b with
  | zero => rfl
  | succ i ih =>
    rw [tkeyLoop, Dnssec.skipQuestions]
    cases skipName pkt ansp 4 with
    | none => rfl
    | some ansp => exact ih _ _

def isTkey (pkt : Packet) (q : ℕ) : Bool :=
    pkt.getShort (q + 2) = classIn && pkt.getShort q = typeTkey

theorem tkeyLoop_snd {i ansp : ℕ} (b : Bool) {qs : List ℕ}
    (h : questionsFrom pkt i ansp = some (qs, stop)) :
    (tkeyLoop pkt i ansp b).2 = (b || qs.any (isTkey pkt)) := by
  induction i generalizing ansp b qs with
  | zero =>
    cases h
    simp [tkeyLoop]
  | succ i ih =>
    obtain ⟨q, hq, h⟩ := bind_eq_some_iff.mp h
    obtain ⟨r, hr, heq⟩ := map_eq_some_iff.mp h
    cases heq
    rw [tkeyLoop, hq]
    rw [ih _ hr, Bool.or_assoc]
    rfl

theorem findInSections_of_arcount (h : pkt.arcount = 0) (ansp : Option ℕ) (out : Pseudoheader) :
    findInSections pkt ansp out = out := by
  cases ansp with
  | none => rfl
  | some ansp => exact if_pos h

structure Parsed (pkt : Packet) (p : ℕ) (S : Sections) : Prop where
  records : ∃ stop, framesFrom pkt (pkt.ancount + pkt.nscount) p =
    some (S.answers ++ S.authority, stop) ∧ ∃ e, framesFrom pkt pkt.arcount stop =
    some (S.additional, e)

theorem exists_of_sections (h : sections pkt = some S) :
    ∃ p, questionsFrom pkt pkt.qdcount 12 = some (S.questions, p) ∧ Parsed pkt p S := by
  obtain ⟨⟨qs, p⟩, hqd, h⟩ := bind_eq_some_iff.mp h
  obtain ⟨⟨an, p'⟩, han, h⟩ := bind_eq_some_iff.mp h
  obtain ⟨⟨ns, stop⟩, hns, h⟩ := bind_eq_some_iff.mp h
  obtain ⟨⟨ar, e⟩, har, h⟩ := map_eq_some_iff.mp h
  cases h
  refine ⟨p, hqd, ⟨stop, ?_, e, har⟩⟩
  rw [framesFrom_add, han, bind_some, hns]
  rfl

theorem isSign_findInSections {p : ℕ} (h : Parsed pkt p S) (b : Bool) :
    (findInSections pkt (some p) { isSign := some b }).isSign =
    some (b || S.additional.getLast?.any (isTsig pkt)) := by
  obtain ⟨stop, hskip, e, har⟩ := h.records
  unfold findInSections
  dsimp only
  split_ifs with h0
  · rw [h0] at har
    obtain ⟨hnil, -⟩ := Prod.mk.inj (Option.some.inj har)
    rw [← hnil]
    simp
  · rw [skipSection_eq, hskip]
    exact isSign_additionalLoop rfl har

/-- The other outputs do not depend on whether `isSign` is asked for, and it says what it should. -/
structure SignApart (pkt : Packet) : Prop where
  same : (findPseudoheader pkt true).unsigned = (findPseudoheader pkt false).unsigned
  sign : ∀ S, sections pkt = some S →
    ((findPseudoheader pkt true).isSign = some true ↔
      (opcode pkt = opcodeQuery ∧ ∃ q ∈ S.questions, isTkey pkt q = true) ∨
        ∃ f ∈ S.additional.getLast?, isTsig pkt f = true)

variable {pkt : Packet} {p n : ℕ}

theorem signApart_of_query (h : opcode pkt = opcodeQuery) : SignApart pkt := by
  have hfind : findPseudoheader pkt true =
      findInSections pkt pkt.skipQuestions
      { isSign := some (tkeyLoop pkt pkt.qdcount 12 false).2 } := by
    rw [findPseudoheader, if_pos rfl, if_pos h, Packet.skipQuestions, ← tkeyLoop_fst pkt _ _ false]
  constructor
  · rw [hfind, unsigned_findInSections]
    exact (unsigned_findInSections pkt pkt.skipQuestions {}).symm
  intro S hS
  obtain ⟨p, hqs, hrest⟩ := exists_of_sections hS
  have hp : pkt.skipQuestions = some p := by
    rw [Packet.skipQuestions, skipQuestions_eq, hqs]
    rfl
  rw [hfind, hp, isSign_findInSections hrest, tkeyLoop_snd false hqs]
  simp [h, Option.any_eq_true]

theorem signApart_of_qdcount (hop : opcode pkt ≠ opcodeQuery) (h : pkt.qdcount = 0) :
    SignApart pkt := by
  have hfind : findPseudoheader pkt true =
      findInSections pkt (some 12) { isSign := some false } := by
    rw [findPseudoheader, if_pos rfl, if_neg hop]
  have hskip : pkt.skipQuestions = some 12 := by
    rw [Packet.skipQuestions, h]
    rfl
  constructor
  · rw [hfind, unsigned_findInSections, ← hskip]
    exact (unsigned_findInSections pkt pkt.skipQuestions {}).symm
  intro S hS
  obtain ⟨p, hqs, hrest⟩ := exists_of_sections hS
  rw [h] at hqs
  obtain ⟨-, rfl⟩ := Prod.mk.inj (Option.some.inj hqs)
  rw [hfind, isSign_findInSections hrest]
  simp [hop, Option.any_eq_true]

theorem signApart_of_arcount (hop : opcode pkt ≠ opcodeQuery) (h : pkt.arcount = 0) :
    SignApart pkt := by
  have hfind : findPseudoheader pkt true = { isSign := some false } := by
    rw [findPseudoheader, if_pos rfl, if_neg hop, findInSections_of_arcount h]
  constructor
  · rw [hfind, findPseudoheader, if_neg Bool.false_ne_true, findInSections_of_arcount h]
    rfl
  intro S hS
  obtain ⟨p, -, ⟨stop, -, e, har⟩⟩ := exists_of_sections hS
  rw [h] at har
  obtain ⟨hnil, -⟩ := Prod.mk.inj (Option.some.inj har)
  rw [hfind, ← hnil]
  simp [hop]

structure Header where
  opcode : BitVec 4
  qdcount : BitVec 16
  ancount : BitVec 16
  nscount : BitVec 16
  arcount : BitVec 16
  deriving DecidableEq, Repr

structure Header.Of (h : Header) (pkt : Packet) : Prop where
  opcode : Edns0.opcode pkt = h.opcode.toNat
  qdcount : pkt.qdcount = h.qdcount.toNat
  ancount : pkt.ancount = h.ancount.toNat
  nscount : pkt.nscount = h.nscount.toNat
  arcount : pkt.arcount = h.arcount.toNat

/-- An empty record at `p`. -/
structure Plain (pkt : Packet) (p : ℕ) : Prop where
  name : pkt.get p = 0
  type : pkt.getShort (p + 1) = 0
  rdlen : pkt.getShort (p + 9) = 0
  room : p + 11 ≤ pkt.plen

theorem Plain.frame (h : Plain pkt p) : frameAt pkt p = some ⟨p, p + 1, 0⟩ :=
  frameAt_root h.name h.rdlen h.room

theorem Plain.note (h : Plain pkt p) (last : Bool) (out : Pseudoheader) :
    out.note pkt ⟨p, p + 1, 0⟩ last = out := by
  have htype : Frame.type pkt ⟨p, p + 1, 0⟩ = 0 := h.type
  rw [Pseudoheader.note, htype, if_neg (by decide), if_neg (by simp [typeTsig])]

theorem stride {P : ℕ → Prop} {n p w : ℕ} (h : ∀ k < n + 1, P (p + w * k)) :
    P p ∧ ∀ k < n, P (p + w + w * k) := by
  constructor
  · exact h 0 (Nat.succ_pos n)
  · intro k hk
    have hnext := h (k + 1) (Nat.succ_lt_succ hk)
    rwa [Nat.mul_succ, Nat.add_comm (w * k), ← Nat.add_assoc] at hnext

theorem framesFrom_plain (h : ∀ k < n, Plain pkt (p + 11 * k)) :
    (framesFrom pkt n p).map Prod.snd = some (p + 11 * n) := by
  induction n generalizing p with
  | zero => rfl
  | succ n ih =>
    obtain ⟨hfirst, hrest⟩ := stride h
    rw [framesFrom, hfirst.frame, bind_some, Option.map_map]
    refine (ih hrest).trans (congrArg some ?_)
    omega

theorem additionalLoop_plain (left : ℕ) (h : ∀ k < n, Plain pkt (p + 11 * k))
    (out : Pseudoheader) : additionalLoop pkt (left + n) p out =
    additionalLoop pkt left (p + 11 * n) out := by
  induction n generalizing p with
  | zero => rfl
  | succ n ih =>
    obtain ⟨hfirst, hrest⟩ := stride h
    rw [← Nat.add_assoc, additionalLoop_succ, hfirst.frame, elim_some, hfirst.note]
    refine (ih hrest).trans ?_
    rw [show p + 11 + 11 * n = p + 11 * (n + 1) by omega]

theorem skipQuestions_plain (hname : ∀ k < n, pkt.get (p + 5 * k) = 0)
    (hroom : p + 5 * n ≤ pkt.plen) : Dnssec.skipQuestions pkt n p = some (p + 5 * n) := by
  induction n generalizing p with
  | zero => rfl
  | succ n ih =>
    obtain ⟨hfirst, hrest⟩ := @stride (pkt.get · = 0) n p 5 hname
    rw [Dnssec.skipQuestions, skipName_root hfirst (by omega)]
    refine (ih hrest (by omega)).trans (congrArg some ?_)
    omega

namespace Header

def lastRecord (h : Header) : ℕ :=
  12 + 5 * h.qdcount.toNat + 11 * (h.ancount.toNat + h.nscount.toNat + h.arcount.toNat - 1)

def blank (h : Header) : Packet where
  mem i :=
    if i = 2 then UInt8.ofNat (h.opcode.toNat * 8)
    else if i = 4 then UInt8.ofNat (h.qdcount.toNat / 256) else if i = 5 then
      UInt8.ofNat h.qdcount.toNat
    else if i = 6 then UInt8.ofNat (h.ancount.toNat / 256) else if i = 7 then
      UInt8.ofNat h.ancount.toNat
    else if i = 8 then UInt8.ofNat (h.nscount.toNat / 256) else if i = 9 then
      UInt8.ofNat h.nscount.toNat
    else if i = 10 then UInt8.ofNat (h.arcount.toNat / 256) else if i = 11 then
      UInt8.ofNat h.arcount.toNat
    else if i = h.lastRecord + 2 then 41 else 0
  plen := h.lastRecord + 11

theorem short_bytes (x : BitVec 16) :
    (UInt8.ofNat (x.toNat / 256)).toNat * 256 + (UInt8.ofNat x.toNat).toNat = x.toNat := by
  have hx := x.isLt
  rw [UInt8.toNat_ofNat', UInt8.toNat_ofNat']
  omega

set_option maxRecDepth 20000 in
theorem opcode_bits : ∀ x < 16, ((x * 8) &&& 0x78) >>> 3 = x := by decide

section

variable (h : Header)
include h

theorem of_blank : h.Of h.blank := by
  have hop := h.opcode.isLt
  refine ⟨?_, short_bytes h.qdcount, short_bytes h.ancount, short_bytes h.nscount,
    short_bytes h.arcount⟩
  have hget : h.blank.get 2 = h.opcode.toNat * 8 := by
    refine (UInt8.toNat_ofNat' ..).trans (Nat.mod_eq_of_lt ?_)
    omega
  rw [Edns0.opcode, hget, opcode_bits _ hop]

theorem le_lastRecord : 12 ≤ h.lastRecord := by
  rw [lastRecord]
  omega

theorem get_blank {i : ℕ} (hi : 12 ≤ i) : h.blank.get i = if i = h.lastRecord + 2 then
    41 else 0 := by
  simp only [Packet.get, blank]
  iterate 9 rw [if_neg (by omega)]
  split <;> rfl

theorem get_blank_zero {i : ℕ} (hi : 12 ≤ i) (hne : i ≠ h.lastRecord + 2) : h.blank.get i = 0 :=
  (h.get_blank hi).trans (if_neg hne)

theorem plain_blank {p : ℕ} (hp : 12 ≤ p) (hlast : p + 5 = h.lastRecord ∨ p + 10 ≤ h.lastRecord) :
    Plain h.blank p := by
  refine ⟨h.get_blank_zero hp (by omega), ?_, ?_, ?_⟩
  · rw [Packet.getShort, h.get_blank_zero (by omega) (by omega),
      h.get_blank_zero (by omega) (by omega)]
  · rw [Packet.getShort, h.get_blank_zero (by omega) (by omega),
      h.get_blank_zero (by omega) (by omega)]
  · have hplen : h.blank.plen = h.lastRecord + 11 := rfl
    omega

theorem type_lastRecord : h.blank.getShort (h.lastRecord + 1) = typeOpt := by
  have hi := h.le_lastRecord
  rw [Packet.getShort, h.get_blank_zero (by omega) (by omega), h.get_blank (by omega), if_pos rfl]
  rfl

theorem frameAt_lastRecord : frameAt h.blank h.lastRecord =
    some ⟨h.lastRecord, h.lastRecord + 1, 0⟩ := by
  have hi := h.le_lastRecord
  apply frameAt_root
  · exact h.get_blank_zero hi (by omega)
  · rw [Packet.getShort, h.get_blank_zero (by omega) (by omega),
      h.get_blank_zero (by omega) (by omega)]
  · exact Nat.le_refl _

/-- From `start` on, the answers and the authority section are skipped and all but `left` records of
the last section are passed over. -/
theorem findInSections_blank {start left : ℕ} (hstart : 12 ≤ start) (hleft : left ≤ h.arcount.toNat)
    (har : h.arcount.toNat ≠ 0) (out : Pseudoheader)
    (hplain : ∀ k < h.ancount.toNat + h.nscount.toNat + (h.arcount.toNat - left),
      start + 11 * k + 5 = h.lastRecord ∨ start + 11 * k + 10 ≤ h.lastRecord) :
    findInSections h.blank (some start) out = additionalLoop h.blank left
      (start + 11 * (h.ancount.toNat + h.nscount.toNat + (h.arcount.toNat - left))) out := by
  obtain ⟨-, -, han, hns, harc⟩ := h.of_blank
  have hsection : skipSection h.blank (h.blank.ancount + h.blank.nscount) start =
      some (start + 11 * (h.ancount.toNat + h.nscount.toNat)) := by
    rw [skipSection_eq, han, hns]
    apply framesFrom_plain
    intro k hk
    exact h.plain_blank (by omega) (hplain k (by omega))
  rw [findInSections, if_neg (by omega), hsection, harc]
  dsimp only
  obtain ⟨n, hn⟩ := Nat.exists_eq_add_of_le hleft
  rw [hn, additionalLoop_plain left, Nat.add_sub_cancel_left]
  · rw [Nat.mul_add 11 _ n, Nat.add_assoc]
  · intro k hk
    have hnext := hplain (h.ancount.toNat + h.nscount.toNat + k) (by omega)
    exact h.plain_blank (by omega) (by omega)

theorem ret_unasked (har : 0 < h.arcount.toNat) :
    (findPseudoheader h.blank false).ret = some h.lastRecord := by
  have hplen : h.blank.plen = h.lastRecord + 11 := rfl
  have hlast : h.lastRecord =
    12 + 5 * h.qdcount.toNat + 11 * (h.ancount.toNat + h.nscount.toNat + h.arcount.toNat - 1) := rfl
  have hq : h.blank.skipQuestions = some (12 + 5 * h.qdcount.toNat) := by
    rw [Packet.skipQuestions, h.of_blank.qdcount]
    apply skipQuestions_plain
    · intro k hk
      exact h.get_blank_zero (by omega) (by omega)
    · omega
  have htype : Frame.type h.blank ⟨h.lastRecord, h.lastRecord + 1, 0⟩ = typeOpt := h.type_lastRecord
  rw [findPseudoheader, hq, h.findInSections_blank (by omega) har har.ne' {} (by omega),
    ← Nat.add_sub_assoc har, ← hlast, additionalLoop_succ, h.frameAt_lastRecord, elim_some,
    Pseudoheader.note, if_pos htype]
  rfl

theorem ret_asked (hop : h.opcode.toNat ≠ 0) (hqd : 0 < h.qdcount.toNat)
    (har : 0 < h.arcount.toNat) : (findPseudoheader h.blank true).ret = none := by
  have hlast : h.lastRecord =
    12 + 5 * h.qdcount.toNat + 11 * (h.ancount.toNat + h.nscount.toNat + h.arcount.toNat - 1) := rfl
  have hcases : h.qdcount.toNat = 1 ∨ 2 ≤ h.qdcount.toNat := by omega
  have hquery : ¬Edns0.opcode h.blank = opcodeQuery := by rwa [h.of_blank.opcode]
  rw [findPseudoheader, if_neg hquery,
    h.findInSections_blank (Nat.le_refl _) (Nat.zero_le _) har.ne' _ (by omega)]
  rfl

end

end Header

/-- For which messages asking for `isSign` is harmless, by what the header says. -/
theorem signApart_iff (h : Header) :
    (∀ pkt, h.Of pkt → SignApart pkt) ↔ h.opcode = 0 ∨ h.qdcount = 0 ∨ h.arcount = 0 := by
  constructor
  · intro hall
    by_contra hnot
    obtain ⟨hop, hqd, har⟩ : h.opcode ≠ 0 ∧ h.qdcount ≠ 0 ∧ h.arcount ≠ 0 := by simpa using hnot
    have hpos : ∀ {w : ℕ} {x : BitVec w}, x ≠ 0 → 0 < x.toNat := by
      intro w x hx
      apply Nat.pos_of_ne_zero
      intro hzero
      exact hx (BitVec.eq_of_toNat_eq hzero)
    have hsame := congrArg Pseudoheader.ret (hall h.blank h.of_blank).same
    have hunasked := h.ret_unasked (hpos har)
    have hasked := h.ret_asked (hpos hop).ne' (hpos hqd) (hpos har)
    have hnone : none = some h.lastRecord := hasked.symm.trans (hsame.trans hunasked)
    cases hnone
  intro hcond pkt hpkt
  by_cases hop : opcode pkt = opcodeQuery
  · exact signApart_of_query hop
  rcases hcond with h0 | h0 | h0
  · rw [hpkt.opcode, h0] at hop
    exact absurd rfl hop
  · apply signApart_of_qdcount hop
    rw [hpkt.qdcount, h0]
    rfl
  · apply signApart_of_arcount hop
    rw [hpkt.arcount, h0]
    rfl

def signedUpdate : Packet :=
  .ofBytes [0, 1, 0x28, 0, 0, 1, 0, 0, 0, 0, 0, 1, 1, 122, 0, 0, 6, 0, 1, 0, 0, 250, 0,
    255, 0, 0, 0, 0, 0, 0]

theorem signedUpdate_not_signApart :
    sections signedUpdate = some ⟨[15], [], [], [⟨19, 20, 0⟩]⟩ ∧
    isTsig signedUpdate ⟨19, 20, 0⟩ = true ∧
      (findPseudoheader signedUpdate true).isSign = some false ∧ ¬SignApart signedUpdate := by
  have hsections : sections signedUpdate = some ⟨[15], [], [], [⟨19, 20, 0⟩]⟩ := by decide +kernel
  have htsig : isTsig signedUpdate ⟨19, 20, 0⟩ = true := by decide +kernel
  have hsign : (findPseudoheader signedUpdate true).isSign = some false := by decide +kernel
  refine ⟨hsections, htsig, hsign, ?_⟩
  intro h
  have htrue := (h.sign _ hsections).mpr (.inr ⟨_, rfl, htsig⟩)
  rw [hsign] at htrue
  cases htrue

end Dnsmasq.Edns0
