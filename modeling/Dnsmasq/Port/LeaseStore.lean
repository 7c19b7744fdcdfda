import Dnsmasq.LeaseFile.ReadBack
import Dnsmasq.Port.Names

/-!
The Rust port: the lease file as `dhcp/lease_store.rs` reads and writes it.
-/
namespace Dnsmasq.Port

open LeaseFile
  (AddrText IsAddrText isSpace isDigit star colon hyphen decimal leadingNumber hexByte colonHex
    hexValue duidWord)
open Dhcp6 (In6Addr)

namespace LeaseStore

inductive IpAddr
  | v4 (addr : BitVec 32)
  | v6 (addr : In6Addr)
  deriving DecidableEq, Repr

/-- `IpAddr::from_str` and the `Display` of addresses, next to `inet_ntop` and `inet_pton`. -/
structure RustText (text : AddrText) where
  fromStr : Text → Option IpAddr
  display : IpAddr → Text
  fromStr_ntop4 : ∀ a, fromStr (text.ntop4 a) = some (.v4 a)
  fromStr_ntop6 : ∀ a, fromStr (text.ntop6 a) = some (.v6 a)
  isAddrText : ∀ a, IsAddrText (display a)
  pton4_v4 : ∀ a, text.pton4 (display (.v4 a)) = some a
  pton4_v6 : ∀ a, text.pton4 (display (.v6 a)) = none
  pton6_v6 : ∀ a, text.pton6 (display (.v6 a)) = some a

structure LeaseEntry where
  expiry : ℕ
  address : IpAddr
  hardwareAddress : Bytes
  hostname : Option Text
  clientId : Option Bytes
  iaid : Option (BitVec 32)
  isTemporaryAddress : Bool
  deriving DecidableEq, Repr

/-- `DhcpError::DatabaseError`, by what its message tells. -/
inductive LineError
  | emptyLine
  | missingHexData
  | onlyFields (n : ℕ)
  | invalidExpiry (text : Text)
  | invalidAddress (text : Text)
  | invalidIaid (text : Text)
  | invalidHexByte (text : Text)
  deriving DecidableEq, Repr

inductive ParsedLine
  | lease (entry : LeaseEntry)
  | duid (bytes : Bytes)
  deriving DecidableEq, Repr

/-- The length of the white space character of Unicode at the start, 0 if there is none. -/
def spaceLength : Text → ℕ
  | [] => 0
  | c :: rest =>
    if isSpace c then 1
    else if c = 0xC2 then
      match rest with
      | b :: _ => if b = 0x85 ∨ b = 0xA0 then 2 else 0
      | _ => 0
    else if c = 0xE1 then
      match rest with
      | a :: b :: _ => if a = 0x9A ∧ b = 0x80 then 3 else 0
      | _ => 0
    else if c = 0xE2 then
      match rest with
      | a :: b :: _ =>
        if a = 0x80 ∧ (0x80 ≤ b ∧ b ≤ 0x8A ∨ b = 0xA8 ∨ b = 0xA9 ∨ b = 0xAF) ∨ a = 0x81 ∧
          b = 0x9F then 3 else 0
      | _ => 0
    else if c = 0xE3 then
      match rest with
      | a :: b :: _ => if a = 0x80 ∧ b = 0x80 then 3 else 0
      | _ => 0
    else 0

def flush (w : Text) : List Text := if w = [] then [] else [w]

/-- The words of a text, with the bytes of white space still to skip and the word so far. -/
def splitLoop : ℕ → Text → Text → List Text
  | _, w, [] => flush w
  | skip + 1, w, _ :: rest => splitLoop skip w rest
  | 0, w, c :: rest =>
    match spaceLength (c :: rest) with
    | 0 => splitLoop 0 (w ++ [c]) rest
    | skip + 1 => flush w ++ splitLoop skip [] rest

def splitWhitespace (line : Text) : List Text := splitLoop 0 [] line

def stripPlus : Text → Text
  | 43 :: s => s
  | s => s

def parseUnsigned (bits : ℕ) (s : Text) : Option ℕ :=
  let digits := stripPlus s
  if digits = [] ∨ digits.all isDigit = false then none
  else if leadingNumber digits < 2 ^ bits then some (leadingNumber digits) else none

/-- `u8::from_str_radix` to the base 16. -/
def fromStrRadix16 (s : Text) : Option UInt8 :=
  let digits := stripPlus s
  if digits = [] then none
  else
    (digits.mapM hexValue).bind fun values =>
      let n := values.foldl (fun n d => n * 16 + d) 0
      if n < 256 then some (UInt8.ofNat n) else none

def hexBytes : List Text → Except LineError Bytes
  | [] => .ok []
  | part :: parts =>
    match fromStrRadix16 part with
    | none => .error (.invalidHexByte part)
    | some byte => (hexBytes parts).map (byte :: ·)

def parseHexWithColons (s : Text) : Except LineError Bytes := hexBytes (s.splitOn colon)

/-- What stands before the first `-` is skipped. -/
def parseHardwareAddress (s : Text) : Except LineError Bytes :=
  parseHexWithColons (if hyphen ∈ s then (s.dropWhile (· ≠ hyphen)).drop 1 else s)

/-- `strip_prefix('T')` -/
def stripT : Text → Bool × Text
  | 84 :: stripped => (true, stripped)
  | s => (false, s)

/-- The second field: the hardware address, or the IAID with a `T` before that of a temporary
address. -/
def parseSecond (address : IpAddr) (field : Text) :
    Except LineError (Bytes × Option (BitVec 32) × Bool) :=
  match address with
  | .v6 _ =>
    match parseUnsigned 32 (stripT field).2 with
    | none => .error (.invalidIaid (stripT field).2)
    | some value => .ok ([], some (BitVec.ofNat 32 value), (stripT field).1)
  | .v4 _ => (parseHardwareAddress field).map fun hw => (hw, none, false)

variable (fromStr : Text → Option IpAddr)

def parseFields (p0 p1 p2 p3 p4 : Text) : Except LineError LeaseEntry :=
  match parseUnsigned 64 p0 with
  | none => .error (.invalidExpiry p0)
  | some expiry =>
    match fromStr p2 with
    | none => .error (.invalidAddress p2)
    | some address =>
      let hostname := if p3 = [star] then none else some p3
      (if p4 = [star] then .ok none else (parseHexWithColons p4).map some).bind fun clientId =>
        (parseSecond address p1).map fun (hardwareAddress, iaid, isTemporaryAddress) =>
          { expiry, address, hardwareAddress, hostname, clientId, iaid, isTemporaryAddress }

def parseLeaseLine (line : Text) : Except LineError ParsedLine :=
  match splitWhitespace line with
  | [] => .error .emptyLine
  | p0 :: parts =>
    if p0 = duidWord then
      match parts with
      | [] => .error .missingHexData
      | p1 :: _ => (parseHexWithColons p1).map .duid
    else
      match parts with
      | p1 :: p2 :: p3 :: p4 :: _ => (parseFields fromStr p0 p1 p2 p3 p4).map .lease
      | parts => .error (.onlyFields (parts.length + 1))

/-- The hardware type is taken to be Ethernet, so that it is never written. -/
def formatSecond (e : LeaseEntry) : Text :=
  match e.address with
  | .v6 _ =>
    (if e.isTemporaryAddress then [84] else []) ++ match e.iaid with
      | some iaid => decimal iaid.toNat
      | none => [48]
  | .v4 _ => if e.hardwareAddress = [] then [star] else colonHex e.hardwareAddress

def formatClientId (e : LeaseEntry) : Text :=
  match e.clientId with
  | some clientId => colonHex clientId
  | none => [star]

def formatWords (display : IpAddr → Text) (e : LeaseEntry) : List (Text × UInt8) :=
  [(decimal e.expiry, 32), (formatSecond e, 32), (display e.address, 32),
    (e.hostname.getD [star], 32)]

def formatLeaseLine (display : IpAddr → Text) (e : LeaseEntry) : Text :=
  ((formatWords display e).flatMap fun x => x.1 ++ [x.2]) ++ formatClientId e

def stripCr (line : Text) : Text := if line.getLast? = some 13 then line.dropLast else line

def fileLines (file : Bytes) : List Bytes :=
  let lines := file.splitOn 10
  (if lines.getLast? = some [] then lines.dropLast else lines).map stripCr

/-- The database, and the lines that are passed over with a warning. -/
structure Loaded where
  leases : List LeaseEntry := []
  duid : Option Bytes := none
  rejected : List (Text × LineError) := []
  deriving DecidableEq, Repr

def Loaded.line (fromStr : Text → Option IpAddr) (db : Loaded) (line : Text) : Loaded :=
  match parseLeaseLine fromStr line with
  | .ok (.lease entry) => { db with leases := db.leases ++ [entry] }
  | .ok (.duid bytes) => { db with duid := some bytes }
  | .error e => { db with rejected := db.rejected ++ [(line, e)] }

/-- The rest of the lines. A line that is not UTF-8 ends the reading with an error. -/
def loadLines (fromStr : Text → Option IpAddr) : Loaded → List Bytes → Option Loaded
  | db, [] => some db
  | db, line :: lines =>
    if !isUtf8 line then none
    else
      match splitWhitespace line with
      | [] => loadLines fromStr db lines
      | w :: _ => loadLines fromStr (if w.head? = some 35 then db else db.line fromStr line) lines

/-- `LeaseDatabase::load_from_file` of a file that can be opened. -/
def loadFromFile (file : Bytes) : Option Loaded := loadLines fromStr {} (fileLines file)

def formatEntries (display : IpAddr → Text) (entries : List LeaseEntry) : Bytes :=
  entries.flatMap fun e => formatLeaseLine display e ++ [10]

end LeaseStore

end Dnsmasq.Port
