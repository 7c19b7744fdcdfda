import Mathlib.Data.List.Nodup
import Dnsmasq.Util.Hostname

/-!
The lease database of `lease.c` as DHCPv4 uses it: the leases, newest first, and `leases_left`. A
lease has an `id` in the place of its address in memory.
-/
namespace Dnsmasq.Dhcp

open List

abbrev InAddr := BitVec 32
abbrev Bytes := List UInt8

/-- `v6` stands for `flags & (LEASE_TA | LEASE_NA)`. A hardware address of `none` is the
illegal length 256 that a fresh lease has, and `expires = 0` is an infinite lease. -/
structure Lease where
  id : ℕ
  addr : InAddr
  v6 : Bool
  clid : Option Bytes
  hwaddr : Option Bytes
  hwaddrType : ℕ
  expires : ℕ
  override : InAddr
  deriving DecidableEq, Repr

structure LeaseDb where
  leases : List Lease
  leasesLeft : ℕ
  nextId : ℕ
  nodup : (leases.map Lease.id).Nodup
  fresh : ∀ l ∈ leases, l.id < nextId

namespace LeaseDb

def noLeases (leasesLeft : ℕ) : LeaseDb where
  leases := []
  leasesLeft
  nextId := 0
  nodup := by simp
  fresh := by simp

variable (db : LeaseDb)

def find (p : Lease → Bool) : Option Lease := db.leases.find? p

/-- A client-id decides if both sides have one. Otherwise the hardware address does. -/
def leaseFindByClient (hwaddr : Bytes) (hwType : ℕ) (clid : Option Bytes) :
    Option Lease :=
  (db.find fun l => !l.v6 && clid.isSome && l.clid == clid) <|>
    db.find fun l => !l.v6 && (l.clid.isNone || clid.isNone) && !hwaddr.isEmpty &&
      l.hwaddr == some hwaddr && l.hwaddrType == hwType

def leaseFindByAddr (addr : InAddr) : Option Lease :=
  db.find fun l => !l.v6 && l.addr == addr

def expired (l : Lease) (now : ℕ) : Bool := l.expires ≠ 0 ∧ l.expires ≤ now

def leasePrune (target : Option ℕ) (now : ℕ) : LeaseDb where
  leases := db.leases.filter fun l => !(expired l now || target == some l.id)
  leasesLeft := db.leasesLeft +
    (db.leases.filter fun l => expired l now || target == some l.id).length
  nextId := db.nextId
  nodup := db.nodup.sublist (filter_sublist.map _)
  fresh l hl := db.fresh l (mem_of_mem_filter hl)

/-- `memory` is whether `whine_malloc` succeeds. -/
def leaseAllocate (memory : Bool) (addr : InAddr) (v6 : Bool) :
    Option (Lease × LeaseDb) :=
  if db.leasesLeft = 0 ∨ memory = false then none
  else
    let lease : Lease :=
      { id := db.nextId, addr, v6, clid := none, hwaddr := none, hwaddrType := 0, expires := 1,
        override := 0 }
    some (lease,
      { leases := lease :: db.leases
        leasesLeft := db.leasesLeft - 1
        nextId := db.nextId + 1
        nodup := by
          refine nodup_cons.mpr ⟨fun hmem => ?_, db.nodup⟩
          obtain ⟨l, hl, hid⟩ := mem_map.mp hmem
          exact absurd (db.fresh l hl) (by simp [hid, lease])
        fresh := by
          intro l hl
          rcases mem_cons.mp hl with rfl | hl
          · exact Nat.lt_succ_self _
          · exact Nat.lt_succ_of_lt (db.fresh l hl) })

def lease4Allocate (memory : Bool) (addr : InAddr) :
    Option (Lease × LeaseDb) := db.leaseAllocate memory addr false

/-- A store through a pointer to a lease. It cannot move the lease. -/
def update (db : LeaseDb) (id : ℕ) (f : Lease → Lease) (hf : ∀ l, (f l).id = l.id) :
    LeaseDb where
  leases := db.leases.map fun l => if l.id = id then f l else l
  leasesLeft := db.leasesLeft
  nextId := db.nextId
  nodup := by
    have : (db.leases.map fun l => if l.id = id then f l else l).map Lease.id =
        db.leases.map Lease.id := by
      rw [map_map]
      refine map_congr_left fun l _ => ?_
      by_cases h : l.id = id <;> simp [h, hf]
    rw [this]
    exact db.nodup
  fresh := by
    intro l hl
    obtain ⟨l', hl', rfl⟩ := mem_map.mp hl
    split_ifs with h
    · rw [hf]; exact db.fresh l' hl'
    · exact db.fresh l' hl'

end LeaseDb

namespace Lease

def infinite : ℕ := 0xffffffff

/-- `time_t` has room for `now + len`, so the overflow check only catches `len = 0`. -/
def leaseSetExpires (l : Lease) (len now : ℕ) : Lease :=
  { l with expires :=
      if len = infinite then 0
      else
        let exp := now + len
        if exp ≤ now then 0 else exp }

section

variable (l : Lease) (hwaddr : Bytes) (hwType : ℕ) (clid : Option Bytes) (memory : Bool)

/-- The client-id is only ever replaced, never removed, except that running out of memory
for a copy of another length loses it. -/
def leaseSetHwaddr : Lease :=
  let l := { l with hwaddr := some hwaddr, hwaddrType := hwType }
  match clid with
  | none => l
  | some [] => l
  | some clid =>
    if (l.clid.map List.length).getD 0 ≠ clid.length ∧ memory = false then
      { l with clid := none }
    else { l with clid := some clid }

theorem leaseSetHwaddr_frame : ∃ clid', l.leaseSetHwaddr hwaddr hwType clid memory =
      { l with hwaddr := some hwaddr, hwaddrType := hwType, clid := clid' } := by
  unfold leaseSetHwaddr
  dsimp only
  split
  · exact ⟨l.clid, rfl⟩
  · exact ⟨l.clid, rfl⟩
  · split_ifs
    · exact ⟨none, rfl⟩
    · exact ⟨_, rfl⟩

end

end Lease

structure StoredLease where
  expires : ℕ
  addr : InAddr
  v6 : Bool
  hwaddr : Bytes
  hwaddrType : ℕ
  clid : Option Bytes

/-- For backwards compatibility, no hardware type means ether. -/
def StoredLease.restore (r : StoredLease) (l : Lease) : Lease :=
  { l.leaseSetHwaddr r.hwaddr (if r.hwaddrType = 0 ∧ !r.hwaddr.isEmpty then 1 else r.hwaddrType)
      r.clid true with expires := r.expires }

theorem StoredLease.restore_frame (r : StoredLease) (l : Lease) :
    (r.restore l).id = l.id ∧ (r.restore l).addr = l.addr ∧ (r.restore l).v6 = l.v6 := by
  obtain ⟨clid', h⟩ := l.leaseSetHwaddr_frame r.hwaddr
    (if r.hwaddrType = 0 ∧ !r.hwaddr.isEmpty then 1 else r.hwaddrType) r.clid true
  simp only [StoredLease.restore, h, and_self]

namespace LeaseDb

/-- Running out of leases or memory here ends the program. -/
def readLeases (db : LeaseDb) (memory : Bool) : List StoredLease → Option LeaseDb
  | [] => some db
  | r :: rest =>
    match db.leaseAllocate memory r.addr r.v6 with
    | none => none
    | some (l, db) =>
      (db.update l.id r.restore fun l => (r.restore_frame l).1).readLeases memory rest

def leaseInit (dhcpMax : ℕ) (memory : Bool) (stored : List StoredLease) (now : ℕ) :
    Option LeaseDb :=
  let empty : LeaseDb :=
    { leases := [], leasesLeft := dhcpMax, nextId := 0, nodup := by simp, fresh := by simp }
  (empty.readLeases memory stored).map (·.leasePrune none now)

end LeaseDb

/-!
A `struct dhcp_context *` is the list of the positions in `daemon->dhcp` that are chained on
`current`.
-/
abbrev Tag := CString

def isNegated (t : Tag) : Bool := t.head? == some 33 || t.head? == some 35

def matchNetid (check pool : List Tag) (tagNotNeeded : Bool) : Bool :=
  if check.isEmpty && !tagNotNeeded then false
  else check.all fun t => if isNegated t then !pool.contains t.tail else pool.contains t

/-- A trailing `*` matches every tag that starts with the rest. -/
def matchNetidWild (check pool : List Tag) : Bool :=
  check.all fun t =>
    let hit (name : Tag) : Bool :=
      if t.getLast? == some 42 then pool.any fun p => p.take (name.length - 1) == name.dropLast
      else pool.contains name
    if isNegated t then !hit t.tail else hit t

structure TagIf where
  tag : List Tag
  set : List Tag

def runTagIf (exprs : List TagIf) (tags : List Tag) : List Tag :=
  exprs.foldl (fun tags e => if matchNetidWild e.tag tags then e.set.reverse ++ tags else tags)
    tags

/-- A `dhcp-range`. The option parser exchanges the ends of a range given backwards. -/
structure Context where
  static : Bool := false
  proxy : Bool := false
  hasNetmask : Bool := false
  netmask : InAddr
  start : InAddr
  stop : InAddr
  localAddr : InAddr := 0
  router : InAddr := 0
  leaseTime : ℕ := 3600
  addrEpoch : BitVec 32 := 0
  filter : List Tag := []
  netid : Option Tag := none
  ordered : start.toNat ≤ stop.toNat := by decide

structure HwaddrConfig where
  hwaddr : Bytes
  hwaddrType : ℕ
  wildcardMask : BitVec 32 := 0

/-- A `dhcp-host` line. The flags `CONFIG_CLID`, `CONFIG_NAME`, `CONFIG_ADDR` and
`CONFIG_TIME` say which of the optional fields are there. -/
structure Config where
  disable : Bool := false
  noclid : Bool := false
  declineTime : Option ℕ := none
  clid : Option Bytes := none
  hostname : Option CString := none
  addr : Option InAddr := none
  hasAddr6 : Bool := false
  leaseTime : Option ℕ := none
  hwaddr : List HwaddrConfig := []
  filter : List Tag := []
  netid : List Tag := []

structure PingResult where
  addr : InAddr
  time : ℕ
  hash : BitVec 32

structure SharedNetwork where
  ifIndex : ℕ
  matchAddr : InAddr
  sharedAddr : InAddr

structure PxeService where
  type : ℕ
  basename : Option CString

/-- The part of `daemon` that the DHCPv4 server reads and writes. `echoReplies` are the
outcomes of the echo requests still to be sent, and `interfaces` the addresses that
`enumerate_interfaces` finds fit for a server-id. -/
structure Daemon where
  db : LeaseDb
  dhcp : List Context
  dhcpConf : List Config := []
  pingResults : List PingResult := []
  echoReplies : List Bool := []
  optIgnoreClid : Bool := false
  optConsecAddr : Bool := false
  optNoPing : Bool := false
  optAuthoritative : Bool := false
  optRapidCommit : Bool := false
  enablePxe : Bool := false
  overrideRelays : Option (List InAddr) := none
  tagIf : List TagIf := []
  dhcpIgnore : List (List Tag) := []
  bootpDynamic : List (List Tag) := []
  sharedNetworks : List SharedNetwork := []
  pxeServices : List PxeService := []
  interfaces : List InAddr := []

def isSameNet (a b mask : InAddr) : Bool := a &&& mask == b &&& mask

namespace Daemon

def contexts (d : Daemon) (context : List ℕ) : List Context := context.filterMap (d.dhcp[·]?)

def config (d : Daemon) (i : Option ℕ) : Option Config := i.bind (d.dhcpConf[·]?)

def isConfigInContext (d : Daemon) (context : List ℕ) (config : Config) : Bool :=
  context.isEmpty || match config.addr with
    | none => !config.hasAddr6
    | some addr => (d.contexts context).any fun c => isSameNet addr c.start c.netmask

end Daemon

def configHasMac (config : Config) (hwaddr : Option Bytes) (type : ℕ) : Bool :=
  config.hwaddr.any fun c =>
    c.wildcardMask == 0 && some c.hwaddr == hwaddr && (c.hwaddrType == type || c.hwaddrType == 0)

/-- Counts the equal octets outside the mask, from the last one on. -/
def memcmpMasked (a b : Bytes) (mask : BitVec 32) : ℕ :=
  let rec go : Bytes → Bytes → BitVec 32 → ℕ → ℕ
    | x :: xs, y :: ys, mask, count =>
      if mask &&& 1 = 0 then (if x = y then go xs ys (mask >>> 1) (count + 1) else 0)
      else go xs ys (mask >>> 1) count
    | _, _, _, count => count
  go a.reverse b.reverse mask 1

namespace Daemon

variable (d : Daemon)

section

variable (context : List ℕ) (clid : Option Bytes) (hwaddr : Bytes) (hwType : ℕ)
  (hostname : Option CString) (tags : List Tag)

def findConfigMatch (tagNotNeeded : Bool) :
    Option ℕ :=
  let usable (c : Config) : Bool :=
    d.isConfigInContext context c && matchNetid c.filter tags tagNotNeeded
  let byClid := clid.bind fun clid => d.dhcpConf.findIdx? fun c =>
    -- dhcpcd puts a zero in front of textual client-ids.
    (c.clid == some clid || (clid.head? == some 0 && c.clid == some clid.tail)) && usable c
  let byMac := d.dhcpConf.findIdx? fun c => configHasMac c (some hwaddr) hwType && usable c
  let byName := if context.isEmpty then none else hostname.bind fun hostname =>
    d.dhcpConf.findIdx? fun c => c.hostname.any (hostnameIsequal · hostname) && usable c
  let masked (c : Config) : ℕ := if usable c then
    ((c.hwaddr.filter fun h => h.wildcardMask ≠ 0 ∧ h.hwaddr.length = hwaddr.length ∧
      (h.hwaddrType = hwType ∨ h.hwaddrType = 0)).map fun h =>
        memcmpMasked h.hwaddr hwaddr h.wildcardMask).foldl max 0 else 0
  let best := (d.dhcpConf.map masked).foldl max 0
  byClid <|> byMac <|> byName <|>
    if best = 0 then none else d.dhcpConf.findIdx? fun c => masked c == best

def findConfig : Option ℕ :=
  d.findConfigMatch context clid hwaddr hwType hostname tags false <|>
    d.findConfigMatch context clid hwaddr hwType hostname tags true

end

def configFindByAddress (addr : InAddr) : Option ℕ :=
  d.dhcpConf.findIdx? fun c => c.addr == some addr

section

variable (context : List ℕ) (addr : InAddr) (netids : List Tag)

def addressAvailable :
    Option ℕ :=
  if (d.contexts context).head?.any (·.router == addr) then none
  else context.find? fun i => d.dhcp[i]?.any fun c =>
    !(c.static || c.proxy) && c.start.toNat ≤ addr.toNat && addr.toNat ≤ c.stop.toNat &&
      matchNetid c.filter netids true

/-- The one range for an address: a dynamic one, else a static one, else any on its net. -/
def narrowContext :
    Option ℕ :=
  let onNet (p : Context → Bool) := context.find? fun i => d.dhcp[i]?.any fun c =>
    matchNetid c.filter netids true && isSameNet addr c.start c.netmask && p c
  d.addressAvailable context addr netids <|> onNet (·.static) <|> onNet fun c => !c.proxy

end

def pingCacheTime : ℕ := 30

/-- 60% of the echo requests that fit into `PING_CACHE_TIME` at `PING_WAIT` each. -/
def pingMax : ℕ := 6

def doIcmpPing (now : ℕ) (addr : InAddr) (hash : BitVec 32) (loopback : Bool) :
    Option (BitVec 32) × Daemon :=
  let recent := d.pingResults.filter fun r => now ≤ r.time + pingCacheTime
  match recent.find? (·.addr == addr) with
  | some r => (some r.hash, d)
  | none =>
    if pingMax ≤ recent.length ∨ d.optNoPing ∨ loopback then (some hash, d)
    else if d.echoReplies.head?.getD false then
      (none, { d with echoReplies := d.echoReplies.tail })
    else
      -- The last expired record is used again.
      let victim := (List.range d.pingResults.length).reverse.find? fun i =>
        d.pingResults[i]?.any fun r => r.time + pingCacheTime < now
      (some hash, { d with
        echoReplies := d.echoReplies.tail
        pingResults := match victim with
          | some i => d.pingResults.set i ⟨addr, now, hash⟩
          | none => ⟨addr, now, hash⟩ :: d.pingResults })

def hashHwaddr (hwaddr : Bytes) : BitVec 32 :=
  let j := hwaddr.foldl
    (fun (j : BitVec 32) b => BitVec.ofNat 32 b.toNat + (j <<< 6) + (j <<< 16) - j) 0
  if j = 0 then 1 else j

def inClassA (a : InAddr) : Bool := a &&& 0x80000000 == 0
def inClassB (a : InAddr) : Bool := a &&& 0xc0000000 == 0x80000000
def inClassC (a : InAddr) : Bool := a &&& 0xe0000000 == 0xc0000000

/-- Free as far as we know: addresses that end in .255 and .0 are not for Windows. -/
def unusedAddr (context : List ℕ) (addr : InAddr) : Bool :=
  !(d.contexts context).any (·.router == addr) && (d.db.leaseFindByAddr addr).isNone &&
    (d.configFindByAddress addr).isNone &&
    (!inClassC addr || (addr &&& 0xff != 0xff && addr &&& 0xff != 0))

def modifyContext (i : ℕ) (f : Context → Context) : Daemon :=
  { d with dhcp := d.dhcp.modify i f }

/-- One turn of the loop of `address_allocate`: the address, if it can be given away. -/
def tryAddr (context : List ℕ) (i : ℕ) (c : Context) (addr : InAddr)
    (j : BitVec 32) (now : ℕ) (loopback : Bool) : Option InAddr × Daemon :=
  if !d.unusedAddr context addr then (none, d)
  else if d.optConsecAddr && c.addrEpoch != 0 then
    (none, d.modifyContext i fun c => { c with addrEpoch := c.addrEpoch - 1 })
  else
    match d.doIcmpPing now addr j loopback with
    | (some hash, d) => (if !d.optConsecAddr || hash == j then some addr else none, d)
    | (none, d) =>
      (none, if d.optConsecAddr then d
        else d.modifyContext i fun c => { c with addrEpoch := c.addrEpoch + 1 })

/-- The addresses of a range in cyclic order, once round. -/
def scanRange (context : List ℕ) (i : ℕ) (j : BitVec 32) (now : ℕ) (loopback : Bool)
    (start : InAddr) : ℕ → InAddr → Daemon → Option InAddr × Daemon
  | 0, _, d => (none, d)
  | fuel + 1, addr, d =>
    match d.dhcp[i]? with
    | none => (none, d)
    | some c =>
      match d.tryAddr context i c addr j now loopback with
      | (some a, d) => (some a, d)
      | (none, d) =>
        let next := if addr + 1 = c.stop + 1 then c.start else addr + 1
        if next = start then (none, d)
        else scanRange context i j now loopback start fuel next d

def leaseFindMaxAddr (c : Context) : InAddr :=
  if c.static || c.proxy then c.start
  else d.db.leases.foldl (fun addr l =>
    if !l.v6 && c.start.toNat < l.addr.toNat && l.addr.toNat ≤ c.stop.toNat &&
      addr.toNat < l.addr.toNat then l.addr else addr) c.start

def allocateFrom (context : List ℕ) (j : BitVec 32) (netids : List Tag) (now : ℕ)
    (loopback : Bool) (pass : Bool) : List ℕ → Daemon → Option InAddr × Daemon
  | [], d => (none, d)
  | i :: rest, d =>
    match d.dhcp[i]? with
    | none => allocateFrom context j netids now loopback pass rest d
    | some c =>
      if c.static || c.proxy || !matchNetid c.filter netids pass then
        allocateFrom context j netids now loopback pass rest d
      else
        let start := if d.optConsecAddr then d.leaseFindMaxAddr c
          else c.start + (j + c.addrEpoch) % (1 + c.stop - c.start)
        match scanRange context i j now loopback start
            (c.stop.toNat - c.start.toNat + 1) start d with
        | (some a, d) => (some a, d)
        | (none, d) => allocateFrom context j netids now loopback pass rest d

def addressAllocate (context : List ℕ) (hwaddr : Bytes) (netids : List Tag)
    (now : ℕ) (loopback : Bool) : Option InAddr × Daemon :=
  let j := hashHwaddr hwaddr
  match allocateFrom context j netids now loopback false context d with
  | (some a, d) => (some a, d)
  | (none, d) => allocateFrom context j netids now loopback true context d

def guessNetmask (c : Context) : InAddr :=
  if c.hasNetmask || c.netmask ≠ 0 then c.netmask
  else if inClassA c.start && inClassA c.stop then 0xff000000
  else if inClassB c.start && inClassB c.stop then 0xffff0000
  else if inClassC c.start && inClassC c.stop then 0xffffff00
  else 0

/-- The ranges for a packet: those of the receiving interface, unless the client came
through a relay, selected a subnet, or has an address on another net. -/
def selectContext (context : List ℕ) (giaddr subnetAddr ciaddr fallback : InAddr) :
    Daemon × List ℕ :=
  if giaddr = 0 ∧ subnetAddr = 0 ∧ ciaddr = 0 then (d, context)
  else
    let force := subnetAddr ≠ 0 ∨ giaddr ≠ 0
    let viaRelay := subnetAddr = 0 ∧ giaddr ≠ 0
    let addr := if subnetAddr ≠ 0 then subnetAddr else if giaddr ≠ 0 then giaddr else ciaddr
    let covers (a mask : InAddr) (c : Context) : Bool :=
      mask ≠ 0 && isSameNet a c.start mask && isSameNet a c.stop mask
    if ¬ force ∧ (d.contexts context).any (fun c => covers addr c.netmask c) then (d, context)
    else
      let shared (c : Context) : Bool := viaRelay && d.sharedNetworks.any fun s =>
        s.sharedAddr ≠ 0 && s.ifIndex = 0 && s.matchAddr = giaddr &&
          covers s.sharedAddr (guessNetmask c) c
      let hit (c : Context) : Bool := shared c || covers addr (guessNetmask c) c
      let fill (c : Context) : Context :=
        { c with
          netmask := guessNetmask c
          localAddr := if c.localAddr = 0 then fallback else c.localAddr
          router := if c.router = 0 ∧ !shared c then giaddr else c.router }
      let found := ((List.range d.dhcp.length).filter fun i => d.dhcp[i]?.any hit).reverse
      ({ d with dhcp := d.dhcp.map fun c => if hit c then fill c else c },
        if found.isEmpty ∧ ¬ force then context else found)

end Daemon

end Dnsmasq.Dhcp
