import Dnsmasq.Port.Edns

/-!
The Rust port: `DnsMessage::parse` of `dns/protocol.rs`. Names inside RDATA are read from the
whole packet, so a parser of RDATA is given the packet and where the RDATA starts in it.
-/
namespace Dnsmasq.Port

open List Lib Outcome BigEndian

def parseQuestionAt (b : Build) (packet : Bytes) (offset : ℕ) : Parse (DnsQuestion × ℕ) := do
  let (qname, offset) ← extractName b packet offset 4
  check (decide (offset + 4 ≤ packet.length)) (.packetTooShort (offset + 4) packet.length)
  let cursor ← sliceFrom packet offset
  let (qtypeVal, cursor) ← readU16 .ioError cursor
  let (qclassVal, _) ← readU16 .ioError cursor
  let qtype ← RecordType.fromU16 qtypeVal
  let qclass ← RecordClass.fromU16 qclassVal
  return ({ qname, qtype, qclass }, offset + 4)

section RData

variable (b : Build) (packet rdata : Bytes) (start : ℕ)

def parseA : Parse RData :=
  if h : rdata.length = 4 then .ok (.A ⟨rdata.toArray, h⟩)
    else .err (.malformedPacket "A record must be 4 bytes")

def parseAAAA : Parse RData :=
  if h : rdata.length = 16 then .ok (.AAAA ⟨rdata.toArray, h⟩)
    else .err (.malformedPacket "AAAA record must be 16 bytes")

/-- `CNAME`, `NS` and `PTR` hold one name. -/
def parseNameOnly (make : Text → RData) : Parse RData := do
  let (name, _) ← extractName b packet start 0
  return make name

def parseMX : Parse RData := do
  check (decide (2 ≤ rdata.length)) (.malformedPacket "MX record too short")
  let (preference, _) ← readU16 .ioError rdata
  let (exchange, _) ← extractName b packet (start + 2) 0
  return .MX preference exchange

def parseSOA : Parse RData := do
  let (mname, offset) ← extractName b packet start 0
  let (rname, offset) ← extractName b packet offset 0
  check (decide (offset + 20 ≤ packet.length)) (.malformedPacket "SOA record incomplete")
  let cursor ← sliceFrom packet offset
  let (serial, cursor) ← readU32 .ioError cursor
  let (refresh, cursor) ← readU32 .ioError cursor
  let (retry, cursor) ← readU32 .ioError cursor
  let (expire, cursor) ← readU32 .ioError cursor
  let (minimum, _) ← readU32 .ioError cursor
  return .SOA mname rname serial refresh retry expire minimum

def parseSRV : Parse RData := do
  check (decide (6 ≤ rdata.length)) (.malformedPacket "SRV record too short")
  let (priority, cursor) ← readU16 .ioError rdata
  let (weight, cursor) ← readU16 .ioError cursor
  let (port, _) ← readU16 .ioError cursor
  let (target, _) ← extractName b packet (start + 6) 0
  return .SRV priority weight port target

/-- One turn of the loop over the strings of a `TXT` record, from the position `pos`. -/
def txtStep (s : ℕ × List Text) : Parse ((ℕ × List Text) ⊕ List Text) :=
  let (pos, strings) := s
  if pos < rdata.length then do
    let len ← index rdata pos
    let pos := pos + 1
    check (decide (pos + len.toNat ≤ rdata.length)) (.malformedPacket "TXT record string overflow")
    let part ← slice rdata pos (pos + len.toNat)
    return .inl (pos + len.toNat, strings ++ [b.fromUtf8Lossy part])
  else .ok (.inr strings)

def parseTXT : Parse RData := do
  let strings ← loop (txtStep b rdata) (rdata.length + 1) (0, [])
  return .TXT strings

def parseRRSIG : Parse RData := do
  check (decide (18 ≤ rdata.length)) (.malformedPacket "RRSIG record too short")
  let (typeCovered, cursor) ← readU16 .ioError rdata
  let (algorithm, cursor) ← readU8 .ioError cursor
  let (labels, cursor) ← readU8 .ioError cursor
  let (originalTtl, cursor) ← readU32 .ioError cursor
  let (signatureExpiration, cursor) ← readU32 .ioError cursor
  let (signatureInception, cursor) ← readU32 .ioError cursor
  let (keyTag, _) ← readU16 .ioError cursor
  let (signerName, offset) ← extractName b packet (start + 18) 0
  let sigStart ← sub offset start
  let signature ← sliceFrom rdata sigStart
  return .RRSIG typeCovered algorithm labels originalTtl signatureExpiration signatureInception
    keyTag signerName signature

def parseDNSKEY : Parse RData := do
  check (decide (4 ≤ rdata.length)) (.malformedPacket "DNSKEY record too short")
  let (flags, cursor) ← readU16 .ioError rdata
  let (protocol, cursor) ← readU8 .ioError cursor
  let (algorithm, _) ← readU8 .ioError cursor
  let publicKey ← sliceFrom rdata 4
  return .DNSKEY flags protocol algorithm publicKey

def parseDS : Parse RData := do
  check (decide (4 ≤ rdata.length)) (.malformedPacket "DS record too short")
  let (keyTag, cursor) ← readU16 .ioError rdata
  let (algorithm, cursor) ← readU8 .ioError cursor
  let (digestType, _) ← readU8 .ioError cursor
  let digest ← sliceFrom rdata 4
  return .DS keyTag algorithm digestType digest

def parseNSEC : Parse RData := do
  let (nextDomain, offset) ← extractName b packet start 0
  let bitmapStart ← sub offset start
  let typeBitmaps ← sliceFrom rdata bitmapStart
  return .NSEC nextDomain typeBitmaps

def parseNSEC3 : Parse RData := do
  check (decide (5 ≤ rdata.length)) (.malformedPacket "NSEC3 record too short")
  let hashAlgorithm ← index rdata 0
  let flags ← index rdata 1
  let cursor ← sliceFrom rdata 2
  let (iterations, _) ← readU16 .ioError cursor
  let saltLength ← index rdata 4
  check (decide (5 + saltLength.toNat + 1 ≤ rdata.length))
    (.malformedPacket "NSEC3 record incomplete")
  let salt ← slice rdata 5 (5 + saltLength.toNat)
  let hashLength ← index rdata (5 + saltLength.toNat)
  check (decide (5 + saltLength.toNat + 1 + hashLength.toNat ≤ rdata.length))
    (.malformedPacket "NSEC3 record hash incomplete")
  let nextHashedOwner ← slice rdata (6 + saltLength.toNat) (6 + saltLength.toNat + hashLength.toNat)
  let typeBitmaps ← sliceFrom rdata (6 + saltLength.toNat + hashLength.toNat)
  return .NSEC3 hashAlgorithm flags iterations salt nextHashedOwner typeBitmaps

end RData

/-- The fields in front of the RDATA, and where the RDATA is in the packet. -/
structure RrHead where
  name : Text
  rrType : UInt16
  cls : RecordClass
  ttl : UInt32
  start : ℕ
  rdlength : ℕ
  deriving DecidableEq

def RrHead.stop (head : RrHead) : ℕ := head.start + head.rdlength

/-- `name.parse::<u16>()` -/
def parseU16 (s : Text) : Option UInt16 :=
  let digits := if s.head? = some 0x2B then s.tail else s
  let value := digits.foldl (fun n c => n * 10 + (c.toNat - 48)) 0
  if digits ≠ [] ∧ (digits.all fun c => 48 ≤ c && c ≤ 57) ∧ value < 2 ^ 16 then
    some (UInt16.ofNat value) else none

def parseOPT (head : RrHead) (rdata : Bytes) : ResourceRecord :=
  .OPT ((parseU16 head.name).getD 512) ((head.ttl >>> 24) &&& 0xFF).toUInt8 ((head.ttl >>> 16) &&&
    0xFF).toUInt8 (decide (head.ttl &&& 0x8000 ≠ 0)) rdata

section

variable (b : Build) (packet rdata : Bytes) (head : RrHead)

def parseTyped : Parse RData :=
  match head.rrType with
  | 1 => parseA rdata
  | 28 => parseAAAA rdata
  | 5 => parseNameOnly b packet head.start .CNAME
  | 2 => parseNameOnly b packet head.start .NS
  | 12 => parseNameOnly b packet head.start .PTR
  | 15 => parseMX b packet rdata head.start
  | 6 => parseSOA b packet head.start
  | 33 => parseSRV b packet rdata head.start
  | 16 => parseTXT b rdata
  | 46 => parseRRSIG b packet rdata head.start
  | 48 => parseDNSKEY rdata
  | 43 => parseDS rdata
  | 47 => parseNSEC b packet rdata head.start
  | 50 => parseNSEC3 rdata
  | rrType => .err (.unsupportedRecordType rrType)

def parseRdata : Parse ResourceRecord :=
  if head.rrType = 41 then .ok (parseOPT head rdata)
  else do
    let data ← parseTyped b packet rdata head
    return .record head.name head.cls head.ttl data

end

def parseRrHead (b : Build) (packet : Bytes) (offset : ℕ) : Parse RrHead := do
  let (name, offset) ← extractName b packet offset 10
  check (decide (offset + 10 ≤ packet.length)) (.packetTooShort (offset + 10) packet.length)
  let cursor ← sliceFrom packet offset
  let (rrType, cursor) ← readU16 .ioError cursor
  let (rrClass, cursor) ← readU16 .ioError cursor
  let (ttl, cursor) ← readU32 .ioError cursor
  let (rdlength, _) ← readU16 .ioError cursor
  let start := offset + 10
  check (decide (start + rdlength.toNat ≤ packet.length))
    (.packetTooShort (start + rdlength.toNat) packet.length)
  return { name, rrType, cls := RecordClass.fromU16Or rrClass .IN, ttl, start,
           rdlength := rdlength.toNat }

def parseResourceRecordAt (b : Build) (packet : Bytes) (offset : ℕ) :
    Parse (ResourceRecord × ℕ) := do
  let head ← parseRrHead b packet offset
  let rdata ← slice packet head.start head.stop
  let rr ← parseRdata b packet rdata head
  return (rr, head.stop)

def DnsMessage.parse (b : Build) (data : Bytes) : Parse DnsMessage := do
  check (decide (dnsHeaderSize ≤ data.length)) (.packetTooShort dnsHeaderSize data.length)
  let header ← DnsHeader.parse data
  let (questions, offset) ← times (parseQuestionAt b data) header.qdcount.toNat dnsHeaderSize
  let (answers, offset) ← times (parseResourceRecordAt b data) header.ancount.toNat offset
  let (authority, offset) ← times (parseResourceRecordAt b data) header.nscount.toNat offset
  let (additional, _) ← times (parseResourceRecordAt b data) header.arcount.toNat offset
  return { header, questions, answers, authority, additional }

/-!
The Rust port: when parsing returns. `DnsMessage::parse` slices the RDATA of an `RRSIG` or
`NSEC` record from where the name in it ended; the name is read from the whole packet, and may
end behind the RDATA.
-/

section RData

variable {b : Build} {packet rdata : Bytes} {start : ℕ}

theorem safe_parseA : (parseA rdata).Safe := by
  unfold parseA
  split <;> nofun

theorem safe_parseAAAA : (parseAAAA rdata).Safe := by
  unfold parseAAAA
  split <;> nofun

theorem safe_parseNameOnly {make : Text → RData} : (parseNameOnly b packet start make).Safe := by
  simp [parseNameOnly, safe_bind_iff]

theorem safe_parseMX : (parseMX b packet rdata start).Safe := by
  simp [parseMX, safe_bind_iff]

theorem safe_parseSRV : (parseSRV b packet rdata start).Safe := by
  simp [parseSRV, safe_bind_iff]

theorem safe_parseSOA : (parseSOA b packet start).Safe := by
  refine (safe_extractName _ _ _ _).bind fun _ _ => (safe_extractName _ _ _ _).bind fun p _ =>
    (safe_check _ _).bind fun _ hlen => (safe_sliceFrom_iff.mpr ?_).bind fun cursor _ => ?_
  · have hlen := check_eq_ok.mp hlen
    simp only [decide_eq_true_eq] at hlen
    omega
  · simp [safe_bind_iff]

theorem txtStep_forward {s s' : ℕ × List Text} (h : txtStep b rdata s = .ok (.inl s')) :
    rdata.length - s'.1 < rdata.length - s.1 := by
  simp only [txtStep] at h
  split_ifs at h with hpos
  · simp only [bind_eq_ok] at h
    obtain ⟨len, -, -, -, part, -, h⟩ := h
    cases h
    omega
  · cases h

theorem safe_txtStep (s : ℕ × List Text) : (txtStep b rdata s).Safe := by
  simp only [txtStep]
  split_ifs with hpos
  · refine (safe_index hpos).bind fun len _ => (safe_check _ _).bind fun _ hlen =>
      (safe_slice_iff.mpr ?_).bind fun _ _ =>
      safe_ok _
    have hlen := check_eq_ok.mp hlen
    simp only [decide_eq_true_eq] at hlen
    omega
  · exact safe_ok _

theorem safe_parseTXT : (parseTXT b rdata).Safe := by
  apply Safe.bind _ fun _ _ => safe_ok _
  exact safe_loop (fun _ => True) (fun s => rdata.length - s.1) (fun s _ => safe_txtStep s)
    (fun s s' _ h => ⟨trivial, txtStep_forward h⟩) trivial (Nat.lt_succ_self _)

theorem safe_sliceAfter_iff {offset : ℕ} {name : Text} {stop : ℕ} (hstart : start ≤ offset)
    (h : extractName b packet offset 0 = .ok (name, stop)) {make : Bytes → RData} :
    (sub stop start >>= fun n => sliceFrom rdata n >>= fun rest =>
      (.ok (make rest) : Parse RData)).Safe ↔ stop ≤ start + rdata.length := by
  have hbounds := extractName_bounds h
  rw [sub, if_pos (by omega), ok_bind, safe_bind_iff, safe_sliceFrom_iff]
  simp only [safe_ok, implies_true, and_true]
  omega

theorem safe_parseRRSIG_iff : (parseRRSIG b packet rdata start).Safe ↔
    ∀ name stop, 18 ≤ rdata.length → extractName b packet (start + 18) 0 = .ok (name, stop) →
      stop ≤ start + rdata.length := by
  by_cases hlen : 18 ≤ rdata.length
  · obtain ⟨typeCovered, h0⟩ := exists_readU16 ProtocolError.ioError rdata 0 (by omega)
    obtain ⟨algorithm, h2⟩ := exists_readU8 ProtocolError.ioError rdata 2 (by omega)
    obtain ⟨labels, h3⟩ := exists_readU8 ProtocolError.ioError rdata 3 (by omega)
    obtain ⟨originalTtl, h4⟩ := exists_readU32 ProtocolError.ioError rdata 4 (by omega)
    obtain ⟨signatureExpiration, h8⟩ := exists_readU32 ProtocolError.ioError rdata 8 (by omega)
    obtain ⟨signatureInception, h12⟩ := exists_readU32 ProtocolError.ioError rdata 12 (by omega)
    obtain ⟨keyTag, h16⟩ := exists_readU16 ProtocolError.ioError rdata 16 (by omega)
    simp only [drop_zero, Nat.zero_add, Nat.reduceAdd] at h0 h2 h3 h4 h8 h12 h16
    simp only [parseRRSIG, decide_eq_true hlen, check_true, ok_bind, h0, h2, h3, h4, h8, h12,
      h16, pure_eq]
    rw [safe_bind_iff]
    constructor
    · rintro ⟨-, h⟩ name stop - hname
      exact (safe_sliceAfter_iff (by omega) hname).mp (h _ hname)
    · intro h
      refine ⟨safe_extractName _ _ _ _, fun p hp => ?_⟩
      exact (safe_sliceAfter_iff (by omega) hp).mpr (h _ _ hlen hp)
  · simp [parseRRSIG, hlen]

theorem safe_parseNSEC_iff : (parseNSEC b packet rdata start).Safe ↔
    ∀ name stop, extractName b packet start 0 = .ok (name, stop) → stop ≤ start + rdata.length := by
  simp only [parseNSEC, pure_eq]
  rw [safe_bind_iff]
  constructor
  · rintro ⟨-, h⟩ name stop hname
    exact (safe_sliceAfter_iff le_rfl hname).mp (h _ hname)
  · intro h
    refine ⟨safe_extractName _ _ _ _, fun p hp => ?_⟩
    exact (safe_sliceAfter_iff le_rfl hp).mpr (h _ _ hp)

theorem safe_parseDNSKEY : (parseDNSKEY rdata).Safe := by
  refine (safe_check _ _).bind fun _ hlen => ?_
  have hlen : 4 ≤ rdata.length := by simpa using check_eq_ok.mp hlen
  simp [safe_bind_iff, safe_sliceFrom_iff, hlen]

theorem safe_parseDS : (parseDS rdata).Safe := by
  refine (safe_check _ _).bind fun _ hlen => ?_
  have hlen : 4 ≤ rdata.length := by simpa using check_eq_ok.mp hlen
  simp [safe_bind_iff, safe_sliceFrom_iff, hlen]

theorem safe_parseNSEC3 : (parseNSEC3 rdata).Safe := by
  refine (safe_check _ _).bind fun _ hlen => ?_
  have hlen : 5 ≤ rdata.length := by simpa using check_eq_ok.mp hlen
  refine (safe_index (by omega)).bind fun _ _ => (safe_index (by omega)).bind fun _ _ =>
    (safe_sliceFrom_iff.mpr (by omega)).bind fun _ _ => (safe_readU16 _ _).bind fun _ _ =>
    (safe_index (by omega)).bind fun saltLength _ => (safe_check _ _).bind fun _ hsalt => ?_
  have hsalt : 5 + saltLength.toNat + 1 ≤ rdata.length := by simpa using check_eq_ok.mp hsalt
  refine (safe_slice_iff.mpr (by omega)).bind fun _ _ =>
    (safe_index (by omega)).bind fun hashLength _ =>
    (safe_check _ _).bind fun _ hhash => ?_
  have hhash : 5 + saltLength.toNat + 1 + hashLength.toNat ≤ rdata.length := by
    simpa using check_eq_ok.mp hhash
  exact (safe_slice_iff.mpr (by omega)).bind fun _ _ =>
    (safe_sliceFrom_iff.mpr (by omega)).bind fun _ _ => safe_ok _

end RData

/-- Where the RDATA has a name behind which it is sliced: in `RRSIG` records that have their
fixed fields, and in `NSEC` records. -/
def RrHead.nameStart (head : RrHead) : Option ℕ :=
  match head.rrType with
  | 46 => if 18 ≤ head.rdlength then some (head.start + 18) else none
  | 47 => some head.start
  | _ => none

def RrHead.Overruns (b : Build) (packet : Bytes) (head : RrHead) : Prop :=
  ∃ offset name stop, head.nameStart = some offset ∧
    extractName b packet offset 0 = .ok (name, stop) ∧ head.stop < stop

variable {b : Build} {packet rdata : Bytes} {head : RrHead} {offset : ℕ}

theorem safe_parseTyped_iff (hlen : rdata.length = head.rdlength) :
    (parseTyped b packet rdata head).Safe ↔ ¬ head.Overruns b packet := by
  unfold parseTyped RrHead.Overruns RrHead.nameStart RrHead.stop
  split
  · simp [safe_parseA, *]
  · simp [safe_parseAAAA, *]
  · simp [safe_parseNameOnly, *]
  · simp [safe_parseNameOnly, *]
  · simp [safe_parseNameOnly, *]
  · simp [safe_parseMX, *]
  · simp [safe_parseSOA, *]
  · simp [safe_parseSRV, *]
  · simp [safe_parseTXT, *]
  · rw [safe_parseRRSIG_iff]
    by_cases h : 18 ≤ head.rdlength <;> simp [*]
  · simp [safe_parseDNSKEY, *]
  · simp [safe_parseDS, *]
  · rw [safe_parseNSEC_iff]
    simp [*]
  · simp [safe_parseNSEC3, *]
  · simp [*]

theorem safe_parseRdata_iff (hlen : rdata.length = head.rdlength) :
    (parseRdata b packet rdata head).Safe ↔ ¬ head.Overruns b packet := by
  unfold parseRdata
  split_ifs with hopt
  · simp [RrHead.Overruns, RrHead.nameStart, hopt]
  · rw [safe_bind_iff, safe_parseTyped_iff hlen]
    simp

theorem safe_parseRrHead (b : Build) (packet : Bytes) (offset : ℕ) :
    (parseRrHead b packet offset).Safe := by
  refine (safe_extractName _ _ _ _).bind fun p hp => (safe_check _ _).bind fun _ _ =>
    (safe_sliceFrom_iff.mpr ?_).bind fun _ _ => ?_
  · have := extractName_bounds hp
    omega
  · simp [safe_bind_iff]

theorem parseRrHead_bounds (h : parseRrHead b packet offset = .ok head) :
    head.stop ≤ packet.length := by
  simp only [parseRrHead, bind_eq_ok, check_eq_ok, decide_eq_true_eq, Prod.exists] at h
  obtain ⟨_, _, -, -, -, _, -, _, _, -, _, _, -, _, _, -, rdlength, _, -, -, hlen, h⟩ := h
  cases h
  exact hlen

theorem safe_parseResourceRecordAt_iff : (parseResourceRecordAt b packet offset).Safe ↔
      ∀ head, parseRrHead b packet offset = .ok head → ¬ head.Overruns b packet := by
  rw [parseResourceRecordAt, safe_bind_iff]
  simp only [safe_parseRrHead, true_and]
  refine forall₂_congr fun head hhead => ?_
  have hstart : head.start ≤ head.stop := Nat.le_add_right _ _
  have hstop := parseRrHead_bounds hhead
  have hlen : ((packet.take head.stop).drop head.start).length = head.rdlength := by
    rw [length_drop, length_take, min_eq_left hstop, RrHead.stop]
    omega
  rw [slice, if_pos ⟨hstart, hstop⟩, ok_bind, safe_bind_iff, safe_parseRdata_iff hlen]
  simp

theorem safe_parseQuestionAt (b : Build) (packet : Bytes) (offset : ℕ) :
    (parseQuestionAt b packet offset).Safe := by
  refine (safe_extractName _ _ _ _).bind fun p hp => (safe_check _ _).bind fun _ _ =>
    (safe_sliceFrom_iff.mpr ?_).bind fun _ _ => ?_
  · have := extractName_bounds hp
    omega
  · simp [safe_bind_iff, RecordType.safe_fromU16, RecordClass.safe_fromU16]

theorem safe_headerParse (data : Bytes) : (DnsHeader.parse data).Safe := by
  simp [DnsHeader.parse, safe_bind_iff]

/-- The records that `parse` comes to, in the three sections one after the other: a record is
reached when the header, the questions and all records before it are accepted. -/
def ReachesRecord (b : Build) (data : Bytes) (offset : ℕ) : Prop :=
  ∃ header first k, DnsHeader.parse data = .ok header ∧
    Reaches (parseQuestionAt b data) header.qdcount.toNat dnsHeaderSize first ∧
      k < header.ancount.toNat + header.nscount.toNat + header.arcount.toNat ∧
        Reaches (parseResourceRecordAt b data) k first offset

/-- None of the `n` records from `first` on that are reached makes the parser panic. -/
def RecordsSafe (b : Build) (data : Bytes) (n first : ℕ) : Prop :=
  ∀ k < n, ∀ offset, Reaches (parseResourceRecordAt b data) k first offset →
    (parseResourceRecordAt b data offset).Safe

theorem safe_sections_iff {b : Build} {data : Bytes} {l m n offset : ℕ}
    {make : List ResourceRecord → List ResourceRecord → List ResourceRecord → DnsMessage} :
    (times (parseResourceRecordAt b data) l offset >>= fun p => times (parseResourceRecordAt b data)
      m p.2 >>= fun q =>
      times (parseResourceRecordAt b data) n q.2 >>= fun r =>
        (.ok (make p.1 q.1 r.1) : Parse DnsMessage)).Safe ↔
      RecordsSafe b data (l + m + n) offset := by
  rw [RecordsSafe, Nat.add_assoc, forall_reaches_add_iff]
  apply safe_times_bind_iff
  intro p
  rw [forall_reaches_add_iff]
  apply safe_times_bind_iff
  intro q
  rw [safe_bind_iff, safe_times_iff]
  simp

section

variable (b : Build) (data : Bytes)

theorem safe_parse_iff :
    (DnsMessage.parse b data).Safe ↔ ∀ offset, ReachesRecord b data offset →
    (parseResourceRecordAt b data offset).Safe := by
  have hparse : (DnsMessage.parse b data).Safe ↔ ∀ header, DnsHeader.parse data = .ok header →
      ∀ first, Reaches (parseQuestionAt b data) header.qdcount.toNat dnsHeaderSize first →
        RecordsSafe b data (header.ancount.toNat + header.nscount.toNat + header.arcount.toNat)
        first := by
    by_cases hlen : dnsHeaderSize ≤ data.length
    · simp only [DnsMessage.parse, decide_eq_true hlen, check_true, ok_bind]
      rw [safe_bind_iff, and_iff_right (safe_headerParse data)]
      refine forall₂_congr fun header _ => ?_
      refine (safe_times_bind_iff (Q := RecordsSafe b data _) fun p =>
        @safe_sections_iff b data _ _ _ p.2 fun answers authority additional =>
          { header, questions := p.1, answers, authority, additional }).trans ?_
      simp [safe_parseQuestionAt]
    · simp [DnsMessage.parse, DnsHeader.parse, hlen]
  rw [hparse]
  constructor
  · rintro h offset ⟨header, first, k, hheader, hfirst, hk, hreach⟩
    exact h header hheader first hfirst k hk offset hreach
  · intro h header hheader first hfirst k hk offset hreach
    exact h offset ⟨header, first, k, hheader, hfirst, hk, hreach⟩

/-- A record that is reached has a name behind which its RDATA is sliced, and the name ends
behind the RDATA. -/
def NameOverruns : Prop :=
  ∃ offset head, ReachesRecord b data offset ∧ parseRrHead b data offset = .ok head ∧
    head.Overruns b data

end

/-- Parsing panics exactly on messages with a name that overruns its RDATA, and on client subnet
options with too long a prefix. -/
theorem parse_safe_iff (b : Build) :
    (∀ data, (DnsMessage.parse b data).Safe ↔ ¬ NameOverruns b data) ∧
      ∀ udpPayloadSize ttlBytes rdata,
        (Edns.fromBytes udpPayloadSize ttlBytes rdata).Safe ↔
        ¬ Edns.AsksTooMuch ttlBytes rdata := by
  refine ⟨fun data => ?_, Edns.safe_fromBytes_iff⟩
  rw [safe_parse_iff]
  simp only [safe_parseResourceRecordAt_iff]
  constructor
  · rintro h ⟨offset, head, hreach, hhead, hover⟩
    exact h offset hreach head hhead hover
  · rintro h offset hreach head hhead hover
    exact h ⟨offset, head, hreach, hhead, hover⟩

/-- A message whose one answer is an `NSEC` record without RDATA; the name is read from the byte
behind it. -/
def nsecOverrun : Bytes := [0, 1, 0x80, 0, 0, 0, 0, 1, 0, 0, 0, 0, 0, 0,
    47, 0, 1, 0, 0, 0, 0, 0, 0, 0]

/-- A client subnet option for IPv4 with a prefix of 40 bits and five bytes of address. -/
def subnetOverrun : Bytes := [0, 8, 0, 9, 0, 1, 40, 0, 10, 0, 0, 1, 2]

theorem parse_panics :
    DnsMessage.parse { dnssec := true, lossy := id } nsecOverrun = .panic ∧
    Edns.fromBytes 512 0 subnetOverrun = .panic :=
  ⟨rfl, rfl⟩

end Dnsmasq.Port
