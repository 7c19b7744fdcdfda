import Dnsmasq.Lib.BigEndian

/-!
The Rust port: DNS messages as `dns/protocol.rs` has them, and the errors of `protocol.rs` and
`compression.rs`. A Rust `String` is given by its UTF-8 bytes.
-/
namespace Dnsmasq.Port

open Option Lib

abbrev Bytes := List UInt8

/-- The bytes of a `String`. -/
abbrev Text := List UInt8

inductive CompressionError where
  | packetTooShort (offset attempted packetLen : ℕ)
  | invalidOffset (offset packetLen : ℕ)
  | tooManyHops
  | invalidLabelType (labelType : UInt8)
  | nameTooLong (length : ℕ)
  deriving DecidableEq, Repr

inductive ProtocolError where
  | malformedPacket (reason : String)
  | invalidCompressionPointer (offset : ℕ)
  | unsupportedRecordType (value : UInt16)
  | packetTooShort (expected actual : ℕ)
  | nameTooLong (length : ℕ)
  | ioError
  /-- `MalformedPacket`, with the label type in the text. -/
  | unsupportedLabelType (labelType : UInt8)
  /-- `MalformedPacket`, with the class in the text. -/
  | unknownClass (value : UInt16)
  deriving DecidableEq, Repr

def ProtocolError.from : CompressionError → ProtocolError
  | .packetTooShort offset attempted packetLen => .packetTooShort (offset + attempted) packetLen
  | .invalidOffset offset _ => .invalidCompressionPointer offset
  | .tooManyHops => .malformedPacket "Too many compression pointer hops"
  | .nameTooLong length => .nameTooLong length
  | .invalidLabelType labelType => .unsupportedLabelType labelType

abbrev Parse := Outcome ProtocolError

inductive RecordType where
  | A | NS | CNAME | SOA | PTR | MX | TXT | AAAA
  | SRV | OPT | DS | RRSIG | NSEC | DNSKEY | NSEC3 | ANY
  deriving DecidableEq, Repr

variable (value : UInt16)

def RecordType.fromU16 : Parse RecordType :=
  match value with
  | 1 => .ok .A
  | 2 => .ok .NS
  | 5 => .ok .CNAME
  | 6 => .ok .SOA
  | 12 => .ok .PTR
  | 15 => .ok .MX
  | 16 => .ok .TXT
  | 28 => .ok .AAAA
  | 33 => .ok .SRV
  | 41 => .ok .OPT
  | 43 => .ok .DS
  | 46 => .ok .RRSIG
  | 47 => .ok .NSEC
  | 48 => .ok .DNSKEY
  | 50 => .ok .NSEC3
  | 255 => .ok .ANY
  | _ => .err (.unsupportedRecordType value)

inductive RecordClass where
  | IN | CS | CH | HS | ANY
  deriving DecidableEq, Repr

def RecordClass.fromU16 : Parse RecordClass :=
  match value with
  | 1 => .ok .IN
  | 2 => .ok .CS
  | 3 => .ok .CH
  | 4 => .ok .HS
  | 255 => .ok .ANY
  | _ => .err (.unknownClass value)

def RecordClass.fromU16Or (default : RecordClass) : RecordClass :=
  match RecordClass.fromU16 value with
  | .ok c => c
  | _ => default

theorem RecordType.safe_fromU16 : (RecordType.fromU16 value).Safe := by
  unfold RecordType.fromU16
  split <;> nofun

theorem RecordClass.safe_fromU16 : (RecordClass.fromU16 value).Safe := by
  unfold RecordClass.fromU16
  split <;> nofun

structure DnsFlags where
  qr : Bool
  opcode : UInt8
  aa : Bool
  tc : Bool
  rd : Bool
  ra : Bool
  z : Bool
  ad : Bool
  cd : Bool
  rcode : UInt8
  deriving DecidableEq, Repr

namespace DnsFlags

def qrMask : UInt16 := 0x8000
def opcodeMask : UInt16 := 0x7800
def aaMask : UInt16 := 0x0400
def tcMask : UInt16 := 0x0200
def rdMask : UInt16 := 0x0100
def raMask : UInt16 := 0x0080
def zMask : UInt16 := 0x0040
def adMask : UInt16 := 0x0020
def cdMask : UInt16 := 0x0010
def rcodeMask : UInt16 := 0x000F

def fromU16 (flags : UInt16) : DnsFlags where
  qr := flags &&& qrMask ≠ 0
  opcode := ((flags &&& opcodeMask) >>> 11).toUInt8
  aa := flags &&& aaMask ≠ 0
  tc := flags &&& tcMask ≠ 0
  rd := flags &&& rdMask ≠ 0
  ra := flags &&& raMask ≠ 0
  z := flags &&& zMask ≠ 0
  ad := flags &&& adMask ≠ 0
  cd := flags &&& cdMask ≠ 0
  rcode := (flags &&& rcodeMask).toUInt8

end DnsFlags

structure DnsHeader where
  id : UInt16
  flags : DnsFlags
  qdcount : UInt16
  ancount : UInt16
  nscount : UInt16
  arcount : UInt16
  deriving DecidableEq, Repr

def dnsHeaderSize : ℕ := 12

open BigEndian in
def DnsHeader.parse (data : Bytes) : Parse DnsHeader := do
  Outcome.check (decide (dnsHeaderSize ≤ data.length)) (.packetTooShort dnsHeaderSize data.length)
  let (id, cursor) ← readU16 .ioError data
  let (flags, cursor) ← readU16 .ioError cursor
  let (qdcount, cursor) ← readU16 .ioError cursor
  let (ancount, cursor) ← readU16 .ioError cursor
  let (nscount, cursor) ← readU16 .ioError cursor
  let (arcount, _) ← readU16 .ioError cursor
  return { id, flags := .fromU16 flags, qdcount, ancount, nscount, arcount }

structure DnsQuestion where
  qname : Text
  qtype : RecordType
  qclass : RecordClass
  deriving DecidableEq, Repr

/-- The part of a record that depends on its type. -/
inductive RData where
  | A (address : Vector UInt8 4)
  | AAAA (address : Vector UInt8 16)
  | CNAME (cname : Text)
  | MX (preference : UInt16) (exchange : Text)
  | NS (nsdname : Text)
  | PTR (ptrdname : Text)
  | SOA (mname rname : Text) (serial refresh retry expire minimum : UInt32)
  | SRV (priority weight port : UInt16) (target : Text)
  | TXT (data : List Text)
  | RRSIG (typeCovered : UInt16) (algorithm labels : UInt8)
      (originalTtl signatureExpiration signatureInception : UInt32)
      (keyTag : UInt16) (signerName : Text) (signature : Bytes)
  | DNSKEY (flags : UInt16) (protocol algorithm : UInt8) (publicKey : Bytes)
  | DS (keyTag : UInt16) (algorithm digestType : UInt8) (digest : Bytes)
  | NSEC (nextDomain : Text) (typeBitmaps : Bytes)
  | NSEC3 (hashAlgorithm flags : UInt8) (iterations : UInt16)
      (salt nextHashedOwner typeBitmaps : Bytes)
  deriving DecidableEq, Repr

/-- All variants but `OPT` have a name, a class and a TTL. -/
inductive ResourceRecord where
  | record (name : Text) (cls : RecordClass) (ttl : UInt32) (data : RData)
  | OPT (udpPayloadSize : UInt16) (extendedRcode version : UInt8) (dnssecOk : Bool) (data : Bytes)
  deriving DecidableEq, Repr

structure DnsMessage where
  header : DnsHeader
  questions : List DnsQuestion
  answers : List ResourceRecord
  authority : List ResourceRecord
  additional : List ResourceRecord
  deriving DecidableEq, Repr

end Dnsmasq.Port
