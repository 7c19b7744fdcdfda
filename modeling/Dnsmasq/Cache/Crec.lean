import Dnsmasq.Lib.PointerChain
import Dnsmasq.Util.Hostname

/-!
The records of the DNS cache (`struct crec`). Every field that holds a pointer is a map of its own
from addresses, natural numbers; those below `cachesize` are the pool.
-/
namespace Dnsmasq.Cache

open Lib Function

abbrev CrecId := ℕ

/-- The `F_` bits a record can have. -/
structure Flags where
  immortal : Bool := false
  namep : Bool := false
  reverse : Bool := false
  forward : Bool := false
  dhcp : Bool := false
  neg : Bool := false
  hosts : Bool := false
  ipv4 : Bool := false
  ipv6 : Bool := false
  bigname : Bool := false
  nxdomain : Bool := false
  cname : Bool := false
  dnskey : Bool := false
  config : Bool := false
  ds : Bool := false
  dnssecok : Bool := false
  srv : Bool := false
  deriving DecidableEq, Repr, Inhabited

namespace Flags

/-- `F_HOSTS | F_DHCP | F_CONFIG`: not from upstream, never freed to the pool. -/
def isStatic (f : Flags) : Bool := f.hosts || f.dhcp || f.config

/-- `F_FORWARD | F_REVERSE` -/
def inUse (f : Flags) : Bool := f.forward || f.reverse

/-- `F_DNSKEY | F_DS` -/
def dnssec (f : Flags) : Bool := f.dnskey || f.ds

/-- `F_IPV4 | F_IPV6 | F_CNAME | F_SRV | F_DNSKEY | F_DS`, of which an empty entry has none. -/
def held (f : Flags) : Bool := f.ipv4 || f.ipv6 || f.cname || f.srv || f.dnssec

/-- `f & g & (F_IPV4 | F_IPV6)` -/
def sameFamily (f g : Flags) : Bool := f.ipv4 && g.ipv4 || f.ipv6 && g.ipv6

/-- `f & g` is not zero. -/
def meets (f g : Flags) : Bool :=
  f.immortal && g.immortal || f.namep && g.namep || f.reverse && g.reverse ||
    f.forward && g.forward || f.dhcp && g.dhcp || f.neg && g.neg || f.hosts && g.hosts ||
    f.ipv4 && g.ipv4 || f.ipv6 && g.ipv6 || f.bigname && g.bigname || f.nxdomain && g.nxdomain ||
    f.cname && g.cname || f.dnskey && g.dnskey || f.config && g.config || f.ds && g.ds ||
    f.dnssecok && g.dnssecok || f.srv && g.srv

/-- What `cache_free` clears. -/
def freed (f : Flags) : Flags := { f with forward := false, reverse := false, bigname := false }

end Flags

def uidNone : ℕ := 0

def smalldname : ℕ := 50

def dnssecMinTtl : ℕ := 60

structure Crec where
  flags : Flags := {}
  /-- The name, wherever it is stored. -/
  name : CString := []
  addr : List UInt8 := []
  /-- `addr.cname` -/
  target : Option CrecId := none
  targetUid : ℕ := 0
  isNamePtr : Bool := false
  uid : ℕ := uidNone
  ttd : ℤ := 0
  deriving DecidableEq, Repr, Inhabited

structure Config where
  cachesize : ℕ
  /-- The bytes of the type table, which `hash_bucket` mixes in. -/
  mixTab : UInt32 → UInt32 := fun _ => 0
  /-- Whether the `n`-th call of the allocator finds memory. -/
  malloc : ℕ → Bool := fun _ => true
  maxCacheTtl : ℕ := 0
  minCacheTtl : ℕ := 0
  localTtl : ℤ := 0

/-- The cache; `next` links the LRU list, but also the new records of an insertion, spare DHCP
records, and the answers of a look-up. -/
structure State extends DLinks CrecId where
  crec : CrecId → Crec := fun _ => {}
  hashNext : CrecId → Option CrecId := fun _ => none
  table : ℕ → Option CrecId := fun _ => none
  hashSize : ℕ := 0
  newChain : Option CrecId := none
  dhcpSpare : Option CrecId := none
  insertError : Bool := false
  /-- "Internal error in cache." has been logged. -/
  warned : Bool := false
  bigFree : ℕ := 0
  bignamesLeft : ℕ := 0
  lastUid : ℕ := 0
  /-- No record has this address or a higher one. -/
  nextCrec : CrecId
  allocs : ℕ := 0

namespace State

variable (s : State)

def modify (c : CrecId) (u : Crec → Crec) : State :=
  { s with crec := update s.crec c (u (s.crec c)) }

theorem modify_self (c : CrecId) (u : Crec → Crec) : (s.modify c u).crec c = u (s.crec c) :=
  update_self _ _ _

theorem modify_congr {c : CrecId} {u u' : Crec → Crec} (h : u (s.crec c) = u' (s.crec c)) :
    s.modify c u = s.modify c u' := by
  unfold modify
  rw [h]

theorem modify_eq_self {c : CrecId} {u : Crec → Crec} (h : u (s.crec c) = s.crec c) :
    s.modify c u = s := by
  unfold modify
  rw [h, update_eq_self]

/-- Read through a pointer to the head of chain `i` or to the `hash_next` of a record. -/
def load (i : ℕ) : Option CrecId → Option CrecId
  | none => s.table i
  | some c => s.hashNext c

def store (i : ℕ) (up p : Option CrecId) : State :=
  { s with
    hashNext := linkSet s.hashNext up p
    table := update s.table i (headSet (s.table i) up p) }

/-- `whine_malloc` of a record, which is all zero. -/
def allocate (cfg : Config) (s : State) : State × Option CrecId :=
  if cfg.malloc s.allocs then
    ({ s.modify s.nextCrec fun _ => {} with nextCrec := s.nextCrec + 1, allocs := s.allocs + 1 },
      some s.nextCrec)
  else ({ s with allocs := s.allocs + 1 }, none)

end State

/-- A record gets a uid when a CNAME is made to point at it. -/
def nextUid (s : State) (c : CrecId) : State :=
  if (s.crec c).uid = uidNone then
    let uid := (s.lastUid + 1) % 2 ^ 32
    let uid := if uid = uidNone then uid + 1 else uid
    { s with lastUid := uid }.modify c fun r => { r with uid := uid }
  else s

section

variable (s : State) (c : CrecId)

def cacheLink : State := { s with toDLinks := s.toDLinks.pushFront c }

def cacheUnlink : State := { s with toDLinks := s.toDLinks.remove c }

def cacheFree : State :=
  let big := (s.crec c).flags.bigname
  let s := s.modify c fun r => { r with flags := r.flags.freed, uid := uidNone }
  { s with
    toDLinks := s.toDLinks.pushBack c
    bigFree := if big then s.bigFree + 1 else s.bigFree }

/-- A record that was looked up becomes the most recently used one. -/
def touch : State := cacheLink (cacheUnlink s c) c

/-- A record that is in no chain any more goes to the end of the LRU list. -/
def release : State := cacheFree (cacheUnlink s c) c

end

def hashStep (cfg : Config) (val : UInt32) (c : UInt8) : UInt32 :=
  let c := (lower c).toUInt32
  ((val <<< 7) ||| (val >>> 25)) + (cfg.mixTab ((val + c) &&& 0x3f) ^^^ c)

def hashBucket (cfg : Config) (size : ℕ) (name : CString) : ℕ :=
  let val := name.foldl (hashStep cfg) 7989
  (val ^^^ (val >>> 16)).toNat &&& (size - 1)

/-- Go along a chain as long as the flags of the next record satisfy `skip`. -/
def advance (s : State) (skip : Flags → Bool) :
    ℕ → Option CrecId → Option CrecId → Option (Option CrecId × Option CrecId)
  | _, up, none => some (up, none)
  | 0, _, some _ => none
  | k + 1, up, some c =>
    if skip (s.crec c).flags then advance s skip k (some c) (s.hashNext c) else some (up, some c)

/-- Reverse entries go to the start of the chain, immortal ones that are not reverse behind
all mortal ones. -/
def hashPlace (s : State) (f : Flags) (i : ℕ) : Option (Option CrecId × Option CrecId) :=
  if f.reverse then some (none, s.table i)
  else do
    let (up, p) ← advance s Flags.reverse s.nextCrec none (s.table i)
    if f.immortal then advance s (fun g => !g.immortal) s.nextCrec up p else some (up, p)

def cacheHash (cfg : Config) (s : State) (c : CrecId) : Option State := do
  let r := s.crec c
  let i := hashBucket cfg s.hashSize r.name
  let (up, p) ← hashPlace s r.flags i
  let s := { s with hashNext := update s.hashNext c p }
  some (s.store i up (some c))

/-- The records of an old chain go to the new table one by one. -/
def rehashChain (cfg : Config) : ℕ → State → Option CrecId → Option State
  | _, s, none => some s
  | 0, _, some _ => none
  | k + 1, s, some p => do
      let tmp := s.hashNext p
      let s ← cacheHash cfg s p
      rehashChain cfg k s tmp

/-- Double `n` until it reaches `size`. -/
def doubleTo (size : ℕ) : ℕ → ℕ → ℕ
  | 0, n => n
  | k + 1, n => if n < size then doubleTo size k (2 * n) else n

def rehash (cfg : Config) (s : State) (size : ℕ) : Option State :=
  let newSize := doubleTo (size / 10) (size / 10) 64
  if s.hashSize = 0 then some { s with table := fun _ => none, hashSize := newSize }
  else if newSize ≤ s.hashSize then some s
  else if cfg.malloc s.allocs = false then some { s with allocs := s.allocs + 1 }
  else
    let new := { s with table := fun _ => none, hashSize := newSize, allocs := s.allocs + 1 }
    (List.range s.hashSize).foldlM (fun t i => rehashChain cfg s.nextCrec t (s.table i)) new

/-- `cache_init`: every record of the pool is free. -/
def cacheInit (cfg : Config) : Option State :=
  let empty : State := { next := fun _ => none, prev := fun _ => none, head := none, tail := none
                         bignamesLeft := cfg.cachesize / 10, nextCrec := cfg.cachesize }
  rehash cfg ((List.range cfg.cachesize).foldl cacheLink empty) cfg.cachesize

def isOutdatedCnamePointer (s : State) (c : CrecId) : Bool :=
  let r := s.crec c
  if !r.flags.cname || r.isNamePtr then false
  else
    match r.target with
    | none => true
    | some t => (s.crec t).flags.dnssec || !decide (r.targetUid = (s.crec t).uid)

def isExpired (now : ℤ) (r : Crec) : Bool := !r.flags.immortal && !decide (now < r.ttd)

/-- A record that is taken out of its chain for good; those of the pool become free. -/
def discard (s : State) (c : CrecId) : State :=
  if (s.crec c).flags.isStatic then s else release s c

/-- What a loop does with the record it has come to. -/
inductive Verdict (α : Type)
  | stop
  | keep (s : State) (acc : α)
  /-- `*up = crecp->hash_next`, and then `after`. -/
  | drop (after : State → State) (acc : α)

/-- The loops over chain `i` that take records out of it; the result is the record the loop
stopped at. -/
def sweep {α : Type} (body : State → α → CrecId → Verdict α) (i : ℕ) :
    ℕ → State → α → Option CrecId → Option CrecId → Option (State × α × Option CrecId)
  | _, s, acc, _, none => some (s, acc, none)
  | 0, _, _, _, some _ => none
  | k + 1, s, acc, up, some c =>
    match body s acc c with
    | .stop => some (s, acc, some c)
    | .keep s acc => sweep body i k s acc (some c) (s.hashNext c)
    | .drop after acc =>
      let s := after (s.store i up (s.hashNext c))
      sweep body i k s acc up (s.hashNext c)

section

variable {α : Type} (body : State → α → CrecId → Verdict α) (s : State) (acc : α)

def sweepChain (i : ℕ) :
    Option (State × α × Option CrecId) :=
  sweep body i s.nextCrec s acc none (s.table i)

def sweepTable :
    Option (State × α) :=
  (List.range s.hashSize).foldlM (fun (s, acc) i => do
    let (s, acc, _) ← sweepChain body s acc i
    some (s, acc)) (s, acc)

end

end Dnsmasq.Cache
