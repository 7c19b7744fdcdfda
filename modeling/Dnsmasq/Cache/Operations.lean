import Dnsmasq.Cache.Crec

/-!
The operations of the DNS cache. What the rest of the program decides (the text of a hosts file, the
allocator) comes in as data.
-/
namespace Dnsmasq.Cache

open Lib Function

namespace Flags

/-- A record with flags `f` does not go together with one of the same name with flags `g` that
is in the cache. -/
def clashes (f g : Flags) : Bool :=
  f.sameFamily g || f.srv && g.srv || f.nxdomain && g.nxdomain || (g.cname || f.cname) && !g.dnssec

def sameDnssec (f g : Flags) : Bool := f.dnskey && g.dnskey || f.ds && g.ds

def addrlen (f : Flags) : ℕ := if f.ipv6 then 16 else 4

end Flags

/-- `memcmp(a, b, len) == 0` -/
def sameAddr (len : ℕ) (a b : List UInt8) : Bool := a.take len = b.take len

structure ScanArgs where
  name : CString := []
  addr : Option (List UInt8) := none
  cls : ℕ := 0
  now : ℤ := 0
  flags : Flags := {}
  /-- The record whose name `name` points at. -/
  owner : Option CrecId := none
  /-- What `name` reads once the buffer of the owner's long name has been given back. -/
  garbled : CString := []

structure ScanAcc where
  name : CString
  /-- `target_crec` and `target_uid` -/
  target : Option (CrecId × ℕ) := none

/-- The loop body for `flags & F_FORWARD`. -/
def scanForward (args : ScanArgs) (s : State) (acc : ScanAcc) (c : CrecId) : Verdict ScanAcc :=
  let r := s.crec c
  let same := r.flags.forward && hostnameIsequal r.name acc.name
  let freed := if args.owner = some c ∧ r.flags.bigname then
    { acc with name := args.garbled } else acc
  if same && args.flags.clashes r.flags then
    if r.flags.isStatic then .stop
    else .drop (release · c) { freed with target := if r.uid = uidNone then acc.target
                                            else some (c, r.uid) }
  else if same && args.flags.sameDnssec r.flags && decide (r.uid = args.cls) then
    if r.flags.config then .stop else .drop (release · c) freed
  else if isExpired args.now r || isOutdatedCnamePointer s c then .drop (discard · c) freed
  else .keep s acc

def scanAll (args : ScanArgs) (s : State) (acc : Unit) (c : CrecId) : Verdict Unit :=
  let r := s.crec c
  if !r.flags.reverse && r.flags.immortal then .stop
  else if isExpired args.now r then .drop (discard · c) acc
  else if !r.flags.isStatic && (args.flags.reverse && r.flags.reverse) &&
    args.flags.sameFamily r.flags &&
      args.addr.any (sameAddr args.flags.addrlen r.addr) then .drop (release · c) acc
  else .keep s acc

/-- Besides the state: the entry that must not be deleted, and the CNAME target that was. -/
def cacheScanFree (cfg : Config) (s : State) (args : ScanArgs) :
    Option (State × Option CrecId × Option (CrecId × ℕ)) :=
  if args.flags.forward then do
    let (s, acc, found) ← sweepChain (scanForward args) s { name := args.name }
      (hashBucket cfg s.hashSize args.name)
    some (s, found, acc.target)
  else do
    let (s, _) ← sweepTable (scanAll args) s ()
    some (s, none, none)

/-- The entries not committed by the last insertion are freed. -/
def freeNewChain : ℕ → State → Option State
  | k, s =>
    match s.newChain, k with
    | none, _ => some s
    | some _, 0 => none
    | some c, k + 1 =>
      let tmp := s.next c
      freeNewChain k { cacheFree s c with newChain := tmp }

def cacheStartInsert (s : State) : Option State := do
  let s ← freeNewChain s.nextCrec s
  some { s with insertError := false }

namespace Flags

/-- Flags that say what kind of forward record it is. -/
def typed (f : Flags) : Bool :=
  f.ipv4 || f.ipv6 || f.srv || f.nxdomain || f.cname || f.dnskey || f.ds

/-- The flags the callers of `cache_insert` use: a forward record of some type, or a reverse
record for an address; none that is immortal, and no address with a CNAME or a DNSSEC record. -/
def upstream (f : Flags) : Bool :=
  !f.isStatic && !f.immortal && !(f.cname && f.dnssec) &&
    !((f.cname || f.dnssec) && (f.ipv4 || f.ipv6)) && if f.forward then f.typed
    else f.reverse && (f.ipv4 || f.ipv6)

end Flags

structure Insert where
  name : Option CString
  addr : Option (List UInt8) := none
  cls : UInt16 := 1
  now : ℤ := 0
  ttl : ℕ
  flags : Flags
  /-- What is left of a long name when its buffer is given back while it is scanned for. -/
  garbled : CString := []
  upstream : flags.upstream = true

def Insert.scanArgs (ins : Insert) : ScanArgs :=
  { name := ins.name.getD [], addr := ins.addr, cls := ins.cls.toNat, now := ins.now,
    flags := ins.flags }

/-- To free a record by its own name, address, class and flags. -/
def Crec.scanArgs (r : Crec) (c : CrecId) (now : ℤ) (garbled : CString) : ScanArgs :=
  { name := r.name, addr := some r.addr, cls := r.uid % 2 ^ 16, now := now, flags := r.flags
    owner := some c, garbled := garbled }

/-- The loop that gets a free record from the end of the LRU list. -/
def takeTail (cfg : Config) (ins : Insert) : ℕ → State → Bool → Bool →
    Option (State × Option CrecId)
  | 0, _, _, _ => none
  | k + 1, s, freedAll, freeAvail =>
    match s.tail with
    | none => some ({ s with insertError := true }, none)
    | some new =>
      let r := s.crec new
      if !r.flags.inUse then some (s, some new)
      else if freeAvail then some ({ s with insertError := true, warned := true }, none)
      else if freedAll then do
        let (s, _) ← cacheScanFree cfg s (r.scanArgs new ins.now ins.garbled)
        takeTail cfg ins k s freedAll true
      else do
        let (s, _) ← cacheScanFree cfg s { cls := ins.cls.toNat, now := ins.now }
        takeTail cfg ins k s true freeAvail

variable (cfg : Config)

/-- A buffer for a long name: the second component is `none` if there is none to be had, and
says otherwise whether one was needed. -/
def takeBigname (s : State) (ins : Insert) : State × Option Bool :=
  if (ins.name.getD []).length ≤ smalldname - 1 then (s, some false)
  else if s.bigFree ≠ 0 then ({ s with bigFree := s.bigFree - 1 }, some true)
  else if s.bignamesLeft = 0 ∧ ins.flags.dnssec = false then (s, none)
  else if cfg.malloc s.allocs = false then ({ s with allocs := s.allocs + 1 }, none)
  else ({ s with allocs := s.allocs + 1, bignamesLeft := s.bignamesLeft - 1 }, some true)

/-- The record is taken from the LRU list, filled in and put on the chain of new ones. -/
def grab (s : State) (new : CrecId) (ins : Insert) (ttl : ℕ) (big : Bool) : State :=
  let s := cacheUnlink s new
  let s := s.modify new fun r => { r with
    flags := { ins.flags with bigname := ins.flags.bigname || big }
    name := ins.name.getD []
    uid := if ins.flags.dnssec then ins.cls.toNat else r.uid
    addr := ins.addr.getD r.addr
    ttd := ins.now + ttl }
  { s with next := update s.next new s.newChain, newChain := some new }

/-- The existing entry is for the address that is to be inserted. -/
def sameEntry (r : Crec) (ins : Insert) : Bool :=
  ins.flags.forward && ins.addr.any fun a =>
    ins.flags.ipv4 && r.flags.ipv4 && sameAddr 4 r.addr a ||
      ins.flags.ipv6 && r.flags.ipv6 && sameAddr 16 r.addr a

def reallyInsert (s : State) (ins : Insert) (ttl : ℕ) : Option (State × Option CrecId) :=
  if s.insertError then some (s, none)
  else if ttl = 0 then some ({ s with insertError := true }, none)
  else do
    let (s, found, target) ← cacheScanFree cfg s ins.scanArgs
    match found with
    | some c =>
      if sameEntry (s.crec c) ins then some (s, some c)
      else some ({ s with insertError := true }, none)
    | none => do
        let (s, new) ← match target with
          | some (c, _) => some (s, some c)
          | none => takeTail cfg ins 3 s ins.flags.reverse false
        match new with
        | none => some (s, none)
        | some c =>
          match takeBigname cfg s ins with
          | (s, none) => some ({ s with insertError := true }, none)
          | (s, some big) =>
            -- a CNAME target that is replaced keeps its uid
            let s := match target with
              | some (_, uid) => s.modify c fun r => { r with uid := uid }
              | none => s
            some (grab s c ins ttl big, some c)

def Config.ttl (cfg : Config) (f : Flags) (ttl : ℕ) : ℕ :=
  if f.dnssec then max ttl dnssecMinTtl
  else
    let ttl := if cfg.maxCacheTtl ≠ 0 ∧ cfg.maxCacheTtl < ttl then cfg.maxCacheTtl else ttl
    if cfg.minCacheTtl ≠ 0 ∧ ttl < cfg.minCacheTtl then cfg.minCacheTtl else ttl

/-- `cache_insert`, after which the caller initialises the target of a CNAME. -/
def cacheInsert (s : State) (ins : Insert) : Option (State × Option CrecId) := do
  let (s, new) ← reallyInsert cfg s ins (cfg.ttl ins.flags ins.ttl)
  match new with
  | some c =>
    if ins.flags.cname then some (s.modify c fun r => { r with target := none, isNamePtr := false },
      new)
    else some (s, new)
  | none => some (s, none)

/-- The CNAME `cpp` is made to point at `newc`. -/
def linkCname (s : State) (cpp newc : CrecId) : State :=
  let s := nextUid s newc
  s.modify cpp fun r => { r with target := some newc, targetUid := (s.crec newc).uid }

def commitNewChain (cfg : Config) : ℕ → State → Option State
  | k, s =>
    match s.newChain, k with
    | none, _ => some s
    | some _, 0 => none
    | some c, k + 1 => do
        let tmp := s.next c
        let s ← if isOutdatedCnamePointer s c then some (cacheFree s c)
          else do
            let s ← cacheHash cfg s c
            some (cacheLink s c)
        commitNewChain cfg k { s with newChain := tmp }

def cacheEndInsert (s : State) : Option State :=
  if s.insertError then some s else commitNewChain cfg s.nextCrec s

/-- The answers found so far: the first one, and the record whose `next` the following one is
to be stored in (`chainp`). -/
structure Answers where
  ans : Option CrecId := none
  last : Option CrecId := none

/-- `*chainp = p` -/
def Answers.put (a : Answers) (s : State) (p : Option CrecId) : State × Answers :=
  match a.last with
  | none => (s, { a with ans := p })
  | some c => ({ s with next := update s.next c p }, a)

/-- Entries that are not of the pool are chained, the others brought to the front of the LRU
list, where they will be found behind them. -/
def Answers.add (a : Answers) (s : State) (c : CrecId) : State × Answers :=
  if (s.crec c).flags.isStatic then
    let (s, a) := a.put s (some c)
    (s, { a with last := some c })
  else (touch s c, a)

structure Rotation where
  answers : Answers := {}
  /-- Where the next answer goes to, and which of the flags that order the chain it needs. -/
  insert : Option (Option CrecId) := none
  insReverse : Bool := false
  insImmortal : Bool := false

/-- The record is a forward entry for `name` of a type asked for. -/
def Crec.answers (r : Crec) (name : CString) (prot : Flags) : Bool :=
  r.flags.forward && r.flags.meets prot && hostnameIsequal r.name name

/-- The search of `cache_find_by_name` along chain `i`. All answers but the first move up. -/
def findLoop (name : CString) (now : ℤ) (prot : Flags) (noRr : Bool) (i : ℕ) :
    ℕ → State → Rotation → Option CrecId → Option CrecId → Option (State × Answers)
  | _, s, rot, _, none => some (s, rot.answers)
  | 0, _, _, _, some _ => none
  | k + 1, s, rot, up, some c =>
    let next := s.hashNext c
    let r := s.crec c
    if !isExpired now r && !isOutdatedCnamePointer s c then
      if r.answers name prot then
        let (s, answers) := rot.answers.add s c
        let rot := { rot with answers := answers }
        match rot.insert with
        | some ins =>
          if r.flags.reverse = rot.insReverse ∧ r.flags.immortal = rot.insImmortal then
            let s := s.store i up next
            let s := { s with hashNext := update s.hashNext c (s.load i ins) }
            let s := s.store i ins (some c)
            findLoop name now prot noRr i k s { rot with insert := some (some c) } up next
          else findLoop name now prot noRr i k s rot (some c) next
        | none =>
          let rot := if noRr then rot else
            { rot with insert := some up, insReverse := r.flags.reverse,
                       insImmortal := r.flags.immortal }
          findLoop name now prot noRr i k s rot (some c) next
      else findLoop name now prot noRr i k s rot (some c) next
    else
      let s := discard (s.store i up next) c
      findLoop name now prot noRr i k s rot up next

/-- With a record, the next answer of a search already made; without, a new search. -/
def cacheFindByName (s : State) (crecp : Option CrecId) (name : CString) (now : ℤ)
    (prot : Flags) (noRr : Bool := false) : Option (State × Option CrecId) := do
  let (s, ans) ← match crecp with
    | some c => some (s, s.next c)
    | none => do
        let i := hashBucket cfg s.hashSize name
        let (s, a) ← findLoop name now prot noRr i s.nextCrec s {} none (s.table i)
        let (s, a) := a.put s s.head
        some (s, a.ans)
  some (s, ans.filter fun c => (s.crec c).answers name prot)

/-- The loop body of `cache_find_by_addr`: reverse entries are at the start of the chains. -/
def findAddr (addr : List UInt8) (now : ℤ) (prot : Flags) (s : State) (a : Answers) (c : CrecId) :
    Verdict Answers :=
  let r := s.crec c
  if !r.flags.reverse then .stop
  else if isExpired now r then .drop (discard · c) a
  else if r.flags.meets prot && sameAddr prot.addrlen r.addr addr then
    let (s, a) := a.add s c
    .keep s a
  else .keep s a

def cacheFindByAddr (s : State) (crecp : Option CrecId) (addr : List UInt8) (now : ℤ)
    (prot : Flags) : Option (State × Option CrecId) := do
  let (s, ans) ← match crecp with
    | some c => some (s, s.next c)
    | none => do
        let (s, a) ← sweepTable (findAddr addr now prot) s {}
        let (s, a) := a.put s s.head
        some (s, a.ans)
  some (s, ans.filter fun c =>
    let r := s.crec c
    r.flags.reverse && r.flags.meets prot && sameAddr prot.addrlen r.addr addr)

/-- Entries from DHCP on the one hand, from hosts files and the configuration on the other. -/
def Flags.ofSort (dhcp : Bool) (f : Flags) : Bool := if dhcp then f.dhcp else f.hosts || f.config

def toSpare (s : State) (c : CrecId) : State :=
  { s with next := update s.next c s.dhcpSpare, dhcpSpare := some c }

def takeStatic (s : State) (dhcp : Bool) : State × Option CrecId :=
  match dhcp, s.dhcpSpare with
  | true, some c => ({ s with dhcpSpare := s.next c }, some c)
  | _, _ => s.allocate cfg

def chainFind (s : State) (p : CrecId → Bool) : ℕ → Option CrecId → Option (Option CrecId)
  | _, none => some none
  | 0, some _ => none
  | k + 1, some c => if p c then some (some c) else chainFind s p k (s.hashNext c)

/-- The parents of a name: what follows each of its dots. -/
def subnames : CString → List CString
  | [] => []
  | c :: cs => if c = dot then cs :: subnames cs else subnames cs

/-- One empty entry of the same sort for the name goes: the loop ends with the first. -/
def dropEmpty (source : Crec) (s : State) (done : Bool) (c : CrecId) : Verdict Bool :=
  let r := s.crec c
  if done then .stop
  else if !isOutdatedCnamePointer s c && r.flags.forward && r.flags.ofSort source.flags.dhcp &&
      !r.flags.held && hostnameIsequal source.name r.name then
    .drop (fun s => if source.flags.dhcp then toSpare s c else s) true
  else .keep s done

/-- The flags of an empty entry made for a parent of `source`. -/
def Flags.empty (f : Flags) : Flags :=
  { f with namep := true, ipv4 := false, ipv6 := false, cname := false, srv := false,
           dnskey := false
           ds := false, reverse := false }

def addNonTerminal (source : Crec) (s : State) (name : CString) : Option State := do
  let found ← chainFind s (fun c =>
    let r := s.crec c
    !isOutdatedCnamePointer s c && r.flags.forward && r.flags.ofSort source.flags.dhcp &&
      hostnameIsequal name r.name) s.nextCrec (s.table (hashBucket cfg s.hashSize name))
  match found with
  | some c =>
    -- if the new name expires later, so does the empty entry
    some (s.modify c fun r =>
      if r.flags.immortal then r
      else if source.flags.immortal then { r with flags := { r.flags with immortal := true } }
      else { r with ttd := max r.ttd source.ttd })
  | none =>
    match takeStatic cfg s source.flags.dhcp with
    | (s, none) => some s
    | (s, some c) =>
      let s := s.modify c fun r => { r with
        flags := source.flags.empty
        ttd := if source.flags.immortal then r.ttd else source.ttd
        name := name }
      cacheHash cfg s c

def makeNonTerminals (s : State) (source : Crec) : Option State := do
  let (s, _, _) ← sweepChain (dropEmpty source) s false (hashBucket cfg s.hashSize source.name)
  (subnames source.name).foldlM (addNonTerminal cfg source) s

/-- A record that is not of the pool is filled in and hashed, with empty entries for its
parents. -/
def hashStatic (s : State) (c : CrecId) (u : Crec → Crec) : Option State := do
  let s ← cacheHash cfg (s.modify c u) c
  makeNonTerminals cfg s (s.crec c)

structure HostsEntry where
  name : CString
  addr : List UInt8
  ipv6 : Bool := false
  /-- While many entries are read: the address has been met before (`rhash`). -/
  seen : Bool := false
  deriving DecidableEq, Repr

def HostsEntry.family (e : HostsEntry) : Flags := { ipv4 := !e.ipv6, ipv6 := e.ipv6 }

def HostsEntry.crec (e : HostsEntry) (config : Bool) (ttd : ℤ) (index : ℕ) (reverse : Bool)
    (r : Crec) : Crec :=
  { r with
    flags := { e.family with hosts := true, immortal := true, forward := true, reverse := reverse
                             namep := config, config := config }
    name := e.name, addr := e.addr, uid := index, ttd := ttd }

/-- `add_hosts_entry` on a new record `c`; `bulk` says that `rhash` is used. -/
def addHostsEntry (s : State) (c : CrecId) (e : HostsEntry) (bulk config : Bool)
    (ttd : ℤ) (index : ℕ) : Option State := do
  let len := e.family.addrlen
  let (s, found) ← cacheFindByName cfg s none e.name 0 e.family
  if found.any fun l => (s.crec l).flags.hosts && sameAddr len (s.crec l).addr e.addr then some s
  else do
    let (s, seen) ← if bulk then some (s, e.seen)
      else do
        let (s, found) ← cacheFindByAddr s none e.addr 0 e.family
        some (s, found.any fun l => (s.crec l).flags.hosts)
    hashStatic cfg s c (e.crec config ttd index (!seen))

/-- One entry of a hosts file or of the configuration, if there is memory for it. -/
def addHost (s : State) (e : HostsEntry) (bulk config : Bool) (ttd : ℤ) (index : ℕ) :
    Option State :=
  match s.allocate cfg with
  | (s, none) => some s
  | (s, some c) => addHostsEntry cfg s c e bulk config ttd index

/-- A line of a hosts file: the names of one address. -/
abbrev HostsLine := List HostsEntry

structure HostsFile where
  index : ℕ := 2
  lines : List HostsLine

/-- One line; names are counted so that the table can grow along. -/
def readHostsLine (bulk : Bool) (index : ℕ) :
    State × ℕ × ℕ → HostsLine → Option (State × ℕ × ℕ)
  | (s, nameCount, cacheSize), line => do
      let grow := bulk && decide (1000 < nameCount - cacheSize)
      let s ← if grow then rehash cfg s nameCount else some s
      let (s, n) ← line.foldlM (fun (s, n) e => do
        let s' ← addHost cfg s e bulk false cfg.localTtl index
        some (s', if cfg.malloc s.allocs then n + 1 else n)) (s, nameCount)
      some (s, n, if grow then nameCount else cacheSize)

def readHostsfile (bulk : Bool) : State × ℕ → HostsFile → Option (State × ℕ)
  | (s, cacheSize), file => do
      let (s, nameCount, _) ← file.lines.foldlM (readHostsLine cfg bulk file.index) (s,
        cacheSize, cacheSize)
      let s ← if bulk then rehash cfg s nameCount else some s
      some (s, nameCount)

def cacheUnhashDhcp (s : State) : Option State := do
  let (s, _) ← sweepTable (fun s acc c =>
    if (s.crec c).flags.dhcp then .drop (toSpare · c) acc else .keep s acc) s ()
  some s

structure Lease where
  name : CString
  addr : List UInt8
  ipv6 : Bool := false
  ttd : ℤ
  deriving DecidableEq, Repr

def Lease.family (l : Lease) : Flags := { ipv4 := !l.ipv6, ipv6 := l.ipv6 }

/-- The loop over all entries for the name of a lease, at the entry found last: whether the name
is in a hosts file with this address, and whether it is there with another one. -/
def dhcpNames (cfg : Config) (l : Lease) :
    ℕ → State → Option CrecId → Bool → Bool → Option (State × Bool × Bool)
  | _, s, none, inHosts, fail => some (s, inHosts, fail)
  | 0, _, some _, _, _ => none
  | k + 1, s, some c, inHosts, fail =>
    let r := s.crec c
    if !(r.flags.hosts || r.flags.config) && !r.flags.dhcp then do
      let flags : Flags :=
        { ipv4 := r.flags.ipv4 && l.family.ipv4, ipv6 := r.flags.ipv6 && l.family.ipv6
          cname := r.flags.cname, forward := r.flags.forward }
      let (s, _) ← cacheScanFree cfg s { name := l.name, cls := 1, now := 0, flags := flags }
      some (s, inHosts, fail)
    else do
      let same := sameAddr l.family.addrlen r.addr l.addr
      let known := (r.flags.hosts || r.flags.config) && !r.flags.cname
      let (s, found) ← cacheFindByName cfg s (some c) l.name 0 { l.family with cname := true }
      dhcpNames cfg l k s found (inHosts || known && same) (fail || known && !same)

def Lease.crec (l : Lease) (reverse : Bool) (r : Crec) : Crec :=
  { r with
    flags := { l.family with namep := true, dhcp := true, forward := true, reverse := reverse
                             immortal := l.ttd = 0 }
    ttd := if l.ttd = 0 then r.ttd else l.ttd
    addr := l.addr, name := l.name, uid := uidNone }

/-- If the address has an entry already, the lease gets a reverse entry only if that is negative. -/
def dhcpReverse (s : State) (l : Lease) : Option CrecId → Option (State × Bool)
  | none => some (s, true)
  | some c =>
    if (s.crec c).flags.neg then do
      let (s, _) ← cacheScanFree cfg s
        { addr := some l.addr, cls := 1, now := 0, flags := { l.family with reverse := true } }
      some (s, true)
    else some (s, false)

def cacheAddDhcpEntry (s : State) (l : Lease) : Option State := do
  let (s, found) ← cacheFindByName cfg s none l.name 0 { l.family with cname := true }
  let (s, inHosts, fail) ← dhcpNames cfg l (s.nextCrec + 1) s found false false
  if inHosts || fail then some s
  else do
    let (s, found) ← cacheFindByAddr s none l.addr 0 l.family
    let (s, reverse) ← dhcpReverse cfg s l found
    match takeStatic cfg s true with
    | (s, none) => some s
    | (s, some c) => hashStatic cfg s c (l.crec reverse)

structure LocalData where
  /-- Aliases and their times to live. -/
  cnames : List (CString × ℤ) := []
  /-- Trust anchors: name and class. -/
  ds : List (CString × ℕ) := []
  hostRecords : List (HostsEntry × ℤ) := []
  hostsFiles : List HostsFile := []
  /-- The owners of all other local records. -/
  names : List CString := []

def clearEntry (s : State) (acc : Unit) (c : CrecId) : Verdict Unit :=
  let r := s.crec c
  if r.flags.hosts || r.flags.config then .drop id acc
  else if !r.flags.dhcp then
    .drop (fun s =>
      { s with bigFree := if r.flags.bigname then s.bigFree + 1 else s.bigFree }.modify c fun r =>
        { r with flags := {} }) acc
  else .keep s acc

def addConfig (s : State) (u : Crec → Crec) : Option State :=
  match s.allocate cfg with
  | (s, none) => some s
  | (s, some c) => hashStatic cfg s c u

def cnameCrec (a : CString × ℤ) (r : Crec) : Crec :=
  { r with
    flags := { forward := true, namep := true, cname := true, immortal := true, config := true }
    ttd := a.2, name := a.1, isNamePtr := true, uid := uidNone }

def addCname (s : State) (a : CString × ℤ) : Option State :=
  -- names that start with a wildcard are not in the cache
  if a.1[1]? = some 42 then some s else addConfig cfg s (cnameCrec a)

def dsCrec (d : CString × ℕ) (r : Crec) : Crec :=
  { r with
    flags := { forward := true, immortal := true, ds := true, config := true, namep := true }
    ttd := cfg.localTtl, name := d.1, uid := d.2 }

def addDs (s : State) (d : CString × ℕ) : Option State := addConfig cfg s (dsCrec cfg d)

/-- The record `lrec` that stands for a local name when its parents are made. -/
def localName (name : CString) : Crec :=
  { flags := { forward := true, config := true, namep := true, immortal := true }, name := name }

def cacheReload (s : State) (d : LocalData) : Option State := do
  let (s, _) ← sweepTable clearEntry s ()
  let s ← d.cnames.foldlM (addCname cfg) s
  let s ← d.ds.foldlM (addDs cfg) s
  let s ← d.hostRecords.foldlM (fun s (e, ttl) => addHost cfg s e true true ttl 1) s
  let (s, _) ← d.hostsFiles.foldlM (readHostsfile cfg true) (s, cfg.cachesize)
  d.names.foldlM (fun s name => makeNonTerminals cfg s (localName name)) s

inductive Op
  | startInsert
  | insert (ins : Insert)
  | linkCname (cpp newc : CrecId)
  | endInsert
  | findByName (name : CString) (now : ℤ) (prot : Flags) (noRr : Bool)
  | findByAddr (addr : List UInt8) (now : ℤ) (prot : Flags)
  | unhashDhcp
  | addDhcpEntry (l : Lease)
  /-- A hosts file that has appeared or changed is read on its own. -/
  | hostsFile (file : HostsFile)
  | reload (d : LocalData)

def step (s : State) : Op → Option State
  | .startInsert => cacheStartInsert s
  | .insert ins => (cacheInsert cfg s ins).map Prod.fst
  | .linkCname cpp newc => some (linkCname s cpp newc)
  | .endInsert => cacheEndInsert cfg s
  | .findByName name now prot noRr => (cacheFindByName cfg s none name now prot noRr).map Prod.fst
  | .findByAddr addr now prot => (cacheFindByAddr s none addr now prot).map Prod.fst
  | .unhashDhcp => cacheUnhashDhcp s
  | .addDhcpEntry l => cacheAddDhcpEntry cfg s l
  | .hostsFile file => (readHostsfile cfg false (s, 0) file).map Prod.fst
  | .reload d => cacheReload cfg s d

def run (s : State) (ops : List Op) : Option State := ops.foldlM (step cfg) s

end Dnsmasq.Cache
