import Dnsmasq.Dnssec.NsecSound

/-!
`prove_non_existence_nsec3`: do NSEC3 records show that a name or type does not exist?
-/
namespace Dnsmasq.Dnssec

open List Dns

abbrev Digest := List ℕ

/-- The hash of a name for an algorithm, a salt and a number of iterations; `none` when the
hash cannot be computed. -/
abbrev HashOracle := ℕ → List UInt8 → ℕ → CString → Option Digest

def nsec3DigestName : ℕ → Option String
  | 1 => some "sha1"
  | _ => none

namespace Nsec3

def skipLoop (pkt : Packet) : ℕ → ℕ → Option ℕ
  | 0, _ => none
  | fuel + 1, ansp =>
    if !pkt.checkLen ansp 1 then none
    else if pkt.get ansp &&& 0xc0 = 0xc0 then some (ansp + 2)
    else if pkt.get ansp &&& 0xc0 = 0x80 then none
    else if pkt.get ansp &&& 0xc0 = 0x40 then
      if !pkt.checkLen ansp 2 then none
      else if pkt.get ansp &&& 0x3f ≠ 1 then none
      else
        let count := pkt.get (ansp + 1)
        skipLoop pkt fuel (ansp + 2 + if count = 0 then 32 else (count - 1) >>> 3 + 1)
    else
      let len := pkt.get ansp &&& 0x3f
      if !pkt.checkLen (ansp + 1) len then none
      else if len = 0 then some (ansp + 1)
      else skipLoop pkt fuel (ansp + 1 + len)

/-- Every turn moves on, so that the length of the message is fuel enough. -/
def skipName (pkt : Packet) (ansp extrabytes : ℕ) : Option ℕ :=
  (skipLoop pkt (pkt.plen + 1) ansp).filter fun p => pkt.checkLen p extrabytes

def base32Value (c : UInt8) : Option ℕ :=
  if 48 ≤ c ∧ c ≤ 57 then some (c.toNat - 48)
  else if 97 ≤ c ∧ c ≤ 118 then some (c.toNat - 97 + 10)
  else if 65 ≤ c ∧ c ≤ 86 then some (c.toNat - 65 + 10)
  else none

/-- One bit: the octet so far, the number of bits, the octets that are finished. -/
def base32Bit (s : ℕ × ℕ × Digest) (bit : Bool) : ℕ × ℕ × Digest :=
  let oc := if bit then s.1 ||| 1 else s.1
  let on := s.2.1 + 1
  (oc <<< 1, on, if on &&& 7 = 0 then s.2.2 ++ [oc % 256] else s.2.2)

def base32Loop : CString → ℕ × ℕ × Digest → Option (ℕ × ℕ × Digest)
  | [], s => some s
  | c :: rest, s =>
    if c = dot then some s
    else (base32Value c).bind fun v =>
      base32Loop rest (([0x10, 0x08, 0x04, 0x02, 0x01].map fun mask => v &&& mask !=
        0).foldl base32Bit s)

def base32Decode (s : CString) : Option Digest :=
  match base32Loop s (0, 0, []) with
  | none => none
  | some (_, on, out) => if on &&& 7 ≠ 0 ∨ out = [] then none else some out

end Nsec3

/-- An NSEC3 record taken apart. The type map is at `map` and `rdlen` octets long. -/
structure Nsec3 where
  hash : Digest
  algo : ℕ
  flags : ℕ
  iterations : ℕ
  salt : List UInt8
  next : Digest
  map : ℕ
  rdlen : ℕ
  deriving DecidableEq, Repr

namespace Nsec3

variable (pkt : Packet)

/-- The hash value in the owner name, and the position behind the name. -/
def ownerHash (pos : ℕ) : Option (Digest × ℕ) :=
  (pkt.extractName pos 0).bind fun r => (base32Decode (present r.1)).map fun hash => (hash, r.2)

/-- The fields, from the position behind the owner name on; the message has been checked up to
the salt. -/
def fields (p : ℕ) (hash : Digest) : Nsec3 :=
  let psave := p + 10
  let saltLen := pkt.get (psave + 4)
  let hashLen := pkt.get (psave + 5 + saltLen)
  let pnext := psave + 6 + saltLen
  { hash
    algo := pkt.get psave
    flags := pkt.get (psave + 1)
    iterations := pkt.getShort (psave + 2)
    salt := pkt.bytes (psave + 5) saltLen
    next := (pkt.bytes pnext hashLen).map UInt8.toNat
    map := pnext + hashLen
    rdlen := pkt.getShort (p + 8) - (pnext + hashLen - psave) }

/-- The record at a position as `check_nsec3_coverage` reads it. -/
def read (pos : ℕ) : Option Nsec3 :=
  (ownerHash pkt pos).bind fun (hash, p) =>
    let v := fields pkt p hash
    if pkt.checkLen (v.map - v.next.length) v.next.length then some v else none

def covers (v : Nsec3) (digest : Digest) : Bool :=
  if v.hash < digest then digest ≤ v.next ∨ v.next ≤ v.hash else v.next ≤ v.hash ∧ digest ≤ v.next

def decides (v : Nsec3) (digest : Digest) : Bool :=
  digest.length == v.hash.length && v.next.length == v.hash.length &&
    (v.hash == digest || v.covers digest)

/-- The first record that has to do with the hash value. -/
def decider (pkt : Packet) (digest : Digest) : List ℕ → Option Nsec3
  | [] => none
  | pos :: rest =>
    (read pkt pos).bind fun v => if v.decides digest then some v else decider pkt digest rest

/-- What the record says about the hash value, and what is stored through `nons`. -/
def verdict (v : Nsec3) (digest : Digest) (nameLabels type : ℕ) : Option (Bool × Bool) :=
  if v.hash = digest then
    let nons := !(pkt.checkLen v.map v.rdlen && startsWith pkt v.map v.rdlen tNs)
    (typeAbsent3 pkt type v.map v.rdlen nameLabels).map (·, nons)
  -- opt out
  else some (true, v.flags &&& 1 == 0)

def checkCoverage (nsecs : List ℕ) (digest : Digest) (nameLabels type : ℕ) : Option (Bool × Bool) :=
  match decider pkt digest nsecs with
  | none => some (false, true)
  | some v => v.verdict pkt digest nameLabels type

/-- The algorithm, iterations and salt that are used: those of the first record with an
algorithm that is known. -/
def chooseParams (pkt : Packet) : List ℕ → Option (ℕ × ℕ × List UInt8)
  | [] => none
  | pos :: rest =>
    (skipName pkt pos 15).bind fun p =>
      let v := fields pkt p []
      if (nsec3DigestName v.algo).isNone then chooseParams pkt rest
      else if 2500 < v.iterations then none
      else if !pkt.checkLen (p + 15) v.salt.length then none
      else some (v.algo, v.iterations, v.salt)

/-- The records with these parameters; `none` is a bad packet. -/
def prune (pkt : Packet) (algo iterations : ℕ) (salt : List UInt8) : List ℕ → Option (List ℕ)
  | [] => some []
  | pos :: rest =>
    (skipName pkt pos 15).bind fun p =>
      let v := fields pkt p []
      if v.algo ≠ algo ∨ (v.flags ≠ 0 ∧ v.flags ≠ 1) ∨ v.iterations ≠ iterations ∨
        v.salt.length ≠ salt.length then
        prune pkt algo iterations salt rest
      else if !pkt.checkLen (p + 15) salt.length then none
      else if v.salt ≠ salt then prune pkt algo iterations salt rest
      else (prune pkt algo iterations salt rest).map (pos :: ·)

/-- Does the owner of a record have the hash value? `none` is a bad packet. -/
def ownerMatches (pkt : Packet) (digest : Digest) : List ℕ → Option Bool
  | [] => some false
  | pos :: rest =>
    (ownerHash pkt pos).bind fun (hash, _) => if hash = digest then some true
      else ownerMatches pkt digest rest

def strchr (s : CString) : Option CString :=
  match s.dropWhile (· ≠ dot) with
  | [] => none
  | rest => some rest

section Search

variable (pkt : Packet) (hash : CString → Option Digest) (nsecs : List ℕ)
  (wildname : Option CString)

/-- The search for the closest encloser: it and the name below it on the way. -/
def closestEncloser : ℕ → CString → Option CString → Option (CString × CString)
  | 0, _, _ => none
  | fuel + 1, s, nextClosest =>
    let closest := if s.head? = some dot then s.tail else s
    if wildname.any (hostnameIsequal closest) then nextClosest.map (closest, ·)
    else (hash closest).bind fun digest =>
      (ownerMatches pkt digest nsecs).bind fun found =>
        if found then nextClosest.map (closest, ·)
        else (strchr closest).bind fun s => closestEncloser fuel s (some closest)

end Search

/-- The wildcard beside a name: the last character of its first label becomes a star. -/
def wildcardOf (nextClosest : CString) : Option CString :=
  match strchr nextClosest with
  | none => none
  | some rest => if rest = nextClosest then none else some (42 :: rest)

section

variable (pkt : Packet) (hash : CString → Option Digest) (nsecs : List ℕ)
  (name : CString) (type : ℕ)

def coverageOf : Option Bool :=
  match hash name with
  | none => some false
  | some digest => (checkCoverage pkt nsecs digest 1 type).map Prod.fst

/-- The second half: a closest encloser, and records for the next closer name and the wildcard. -/
def proveByEncloser (wildname : Option CString) : Option Bool :=
  match closestEncloser pkt hash nsecs wildname (name.length + 1) name none with
  | none => some false
  | some (_, nextClosest) =>
    (coverageOf pkt hash nsecs nextClosest type).bind fun covered =>
      if !covered then some false
      else if wildname.isSome then some true
      else match wildcardOf nextClosest with
        | none => some false
        | some wildcard => coverageOf pkt hash nsecs wildcard type

end

/-- The return value and what is stored through `nons`; `none` is a walk without end. -/
def proveNonExistence (oracle : HashOracle) (pkt : Packet) (nsecs : List ℕ)
    (name : CString) (type : ℕ) (wildname : Option CString) : Option (Bool × Bool) :=
  match chooseParams pkt nsecs with
  | none => some (false, true)
  | some (algo, iterations, salt) =>
    match prune pkt algo iterations salt nsecs with
    | none => some (false, true)
    | some kept =>
      match oracle algo salt iterations name with
      | none => some (false, true)
      | some digest =>
        (checkCoverage pkt kept digest (countLabels name) type).bind fun (found, nons) =>
          if found then some (true, nons)
          else (proveByEncloser pkt (oracle algo salt iterations) kept name type wildname).map (·,
            nons)

end Nsec3

end Dnsmasq.Dnssec
