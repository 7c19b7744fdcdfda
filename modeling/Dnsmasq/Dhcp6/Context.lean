import Dnsmasq.Lib.Registry
import Dnsmasq.Dhcp.Context

/-!
The lease database of `lease.c` as the DHCPv6 server uses it. IPv4 leases share the list and the
count `leases_left`.
-/
namespace Dnsmasq.Dhcp6

open List

open Dhcp (Bytes Tag matchNetid runTagIf TagIf configHasMac memcmpMasked)

/-- The low half is what `addr6part` reads and `setaddr6part` writes. -/
structure In6Addr where
  hi : BitVec 64
  lo : BitVec 64
  deriving DecidableEq, Repr

def In6Addr.setPart (a : In6Addr) (host : BitVec 64) : In6Addr := { a with lo := host }

def isSameNet6 (a b : In6Addr) (len : ℕ) : Bool :=
  if len ≤ 64 then a.hi >>> (64 - len) == b.hi >>> (64 - len)
  else a.hi == b.hi && a.lo >>> (128 - len) == b.lo >>> (128 - len)

@[simp] theorem isSameNet6_full {a b : In6Addr} : isSameNet6 a b 128 = true ↔ a = b := by
  cases a
  cases b
  simp [isSameNet6]

/-- `LEASE_NA` and `LEASE_TA`, for `OPTION6_IA_NA` and `OPTION6_IA_TA`. -/
inductive LeaseType
  | na
  | ta
  deriving DecidableEq, Repr

/-- `used` is the flag `LEASE_USED`. A hardware address of `none` is the illegal length of a
fresh lease, and `expires = 0` is an infinite lease. -/
structure Lease where
  id : ℕ
  type : LeaseType
  addr : In6Addr
  iaid : ℕ := 0
  clid : Option Bytes := none
  hwaddr : Option Bytes := none
  hwaddrType : ℕ := 0
  expires : ℕ := 1
  used : Bool := false
  deriving DecidableEq, Repr

variable {f : Lease → Lease}

namespace Lease

def leaseSetExpires (l : Lease) (len now : ℕ) : Lease :=
  { l with expires :=
      if len = Dhcp.Lease.infinite then 0
      else
        let exp := now + len
        if exp ≤ now then 0 else exp }

def leaseSetIaid (l : Lease) (iaid : ℕ) : Lease := { l with iaid }

/-- Running out of memory for a client-id of another length loses the old one. -/
def leaseSetHwaddr (l : Lease) (hwaddr : Bytes) (hwType : ℕ) (clid : Bytes) (memory : Bool) :
    Lease :=
  let l := { l with hwaddr := some hwaddr, hwaddrType := hwType }
  if clid.isEmpty then l
  else if (l.clid.map List.length).getD 0 ≠ clid.length ∧ memory = false then
    { l with clid := none }
  else { l with clid := some clid }

/-- The stores that leave the identity, the type and the address of a lease alone. -/
structure Keeps (f : Lease → Lease) : Prop where
  id : ∀ l, (f l).id = l.id
  type : ∀ l, (f l).type = l.type
  addr : ∀ l, (f l).addr = l.addr

theorem Keeps.comp {g : Lease → Lease} (hf : Keeps f) (hg : Keeps g) : Keeps fun l => f (g l) :=
  ⟨fun l => (hf.id _).trans (hg.id l), fun l => (hf.type _).trans (hg.type l),
    fun l => (hf.addr _).trans (hg.addr l)⟩

theorem keeps_setExpires (len now : ℕ) : Keeps (·.leaseSetExpires len now) :=
  ⟨fun _ => rfl, fun _ => rfl, fun _ => rfl⟩

theorem keeps_setIaid (iaid : ℕ) : Keeps (·.leaseSetIaid iaid) :=
  ⟨fun _ => rfl, fun _ => rfl, fun _ => rfl⟩

theorem leaseSetHwaddr_frame (l : Lease) (hwaddr : Bytes) (hwType : ℕ) (clid : Bytes)
    (memory : Bool) : ∃ clid', l.leaseSetHwaddr hwaddr hwType clid memory =
      { l with hwaddr := some hwaddr, hwaddrType := hwType, clid := clid' } := by
  unfold leaseSetHwaddr
  dsimp only
  split_ifs
  · exact ⟨l.clid, rfl⟩
  · exact ⟨none, rfl⟩
  · exact ⟨some clid, rfl⟩

theorem leaseSetHwaddr_clid {l : Lease} {clid : Bytes} (h : l.clid = some clid)
    (hwaddr : Bytes) (hwType : ℕ) (memory : Bool) :
    (l.leaseSetHwaddr hwaddr hwType clid memory).clid = some clid := by
  unfold leaseSetHwaddr
  dsimp only
  split_ifs with hempty hlen
  · exact h
  · simp [h] at hlen
  · rfl

theorem keeps_setHwaddr (hwaddr : Bytes) (hwType : ℕ) (clid : Bytes) (memory : ℕ → Bool) :
    Keeps fun l => l.leaseSetHwaddr hwaddr hwType clid (memory l.id) := by
  refine ⟨fun l => ?_, fun l => ?_, fun l => ?_⟩
  all_goals
    obtain ⟨clid', h⟩ := l.leaseSetHwaddr_frame hwaddr hwType clid (memory l.id)
    rw [h]

end Lease

/-- `v4` holds the expiry times of the IPv4 leases. -/
structure LeaseDb where
  leases : Lib.Registry Lease Lease.id
  v4 : List ℕ := []
  leasesLeft : ℕ

namespace LeaseDb

variable (db : LeaseDb)

/-- `memory` is whether `whine_malloc` succeeds. -/
def lease6Allocate (memory : Bool) (addr : In6Addr) (type : LeaseType) :
    Option (Lease × LeaseDb) :=
  if db.leasesLeft = 0 ∨ memory = false then none
  else
    let lease : Lease := { id := db.leases.next, type, addr }
    some (lease, { db with leases := db.leases.add lease rfl, leasesLeft := db.leasesLeft - 1 })

def lease6Find (clid : Bytes) (type : LeaseType) (iaid : ℕ) (addr : In6Addr) :
    Option Lease :=
  db.leases.items.find? fun l => l.type == type && l.iaid == iaid && l.addr == addr &&
    l.clid == some clid

def lease6FindByAddr (net : In6Addr) (len : ℕ) (host : BitVec 64) : Option Lease :=
  db.leases.items.find? fun l => isSameNet6 l.addr net len && (len == 128 || l.addr.lo == host)

def findByAddr (addr : In6Addr) : Option Lease := db.lease6FindByAddr addr 128 0

def lease6Reset : LeaseDb :=
  { db with leases := db.leases.modify (fun l => { l with used := false }) fun _ => rfl }

def update (db : LeaseDb) (id : ℕ) (f : Lease → Lease) (hf : Lease.Keeps f) : LeaseDb :=
  { db with leases := db.leases.update id f hf.id }

def expired (expires now : ℕ) : Bool := expires ≠ 0 ∧ expires ≤ now

def leasePrune (target : Option ℕ) (now : ℕ) : LeaseDb :=
  let old (l : Lease) : Bool := expired l.expires now || target == some l.id
  { leases := db.leases.remove old
    v4 := db.v4.filter fun e => !expired e now
    leasesLeft := db.leasesLeft + (db.leases.items.filter old).length +
      (db.v4.filter (expired · now)).length }

def Bound (clid : Bytes) (type : LeaseType) (iaid : ℕ) (addr : In6Addr) : Prop :=
  ∃ l ∈ db.leases.items, l.type = type ∧ l.iaid = iaid ∧ l.addr = addr ∧ l.clid = some clid

def Distinct : Prop := (db.leases.items.map Lease.addr).Nodup

variable {db : LeaseDb} {addr : In6Addr} {l : Lease} {clid : Bytes} {iaid : ℕ}

theorem findByAddr_eq_some (h : db.findByAddr addr = some l) :
    l ∈ db.leases.items ∧ l.addr = addr := by
  refine ⟨mem_of_find?_eq_some h, ?_⟩
  have := find?_some h
  simpa using this

variable {type : LeaseType}

theorem lease6Find_isSome :
    (db.lease6Find clid type iaid addr).isSome ↔ db.Bound clid type iaid addr := by
  simp [lease6Find, Bound, find?_isSome, and_assoc]

variable {id : ℕ}

theorem Bound.update {db : LeaseDb} {clid : Bytes} {iaid : ℕ} {addr : In6Addr}
    (h : db.Bound clid type iaid addr) (hf : Lease.Keeps f)
    (hown : ∀ l ∈ db.leases.items, l.id = id → l.addr = addr → l.clid = some clid →
      (f l).clid = some clid ∧ (f l).iaid = l.iaid) :
    (db.update id f hf).Bound clid type iaid addr := by
  obtain ⟨l, hl, rfl, rfl, rfl, hclid⟩ := h
  by_cases hid : l.id = id
  · obtain ⟨hclid', hiaid⟩ := hown l hl hid rfl hclid
    exact ⟨f l, Lib.Registry.update_mem_of_key hf.id hl hid, hf.type l, hiaid, hf.addr l, hclid'⟩
  · exact ⟨l, Lib.Registry.update_mem_of_ne hf.id hl hid, rfl, rfl, rfl, hclid⟩

theorem mem_update {db : LeaseDb} {hf : Lease.Keeps f} {l : Lease} :
    l ∈ (db.update id f hf).leases.items ↔
      ∃ l' ∈ db.leases.items, (l'.id = id ∧ l = f l') ∨ (l'.id ≠ id ∧ l = l') :=
  @Lib.Registry.mem_update _ _ _ _ _ _ hf.id

theorem lease6Allocate_eq_some {db' : LeaseDb} {memory : Bool}
    (h : db.lease6Allocate memory addr type = some (l, db')) :
    l = { id := db.leases.next, type, addr } ∧ db'.leases.items = l :: db.leases.items := by
  simp only [lease6Allocate] at h
  split_ifs at h with hc
  cases h
  exact ⟨rfl, rfl⟩

end LeaseDb

/-!
A `struct dhcp_context *` is the list of the positions in `daemon->dhcp6` that are chained on
`current`.
-/

/-- A `dhcp-range`. `used` and `confUsed` are the flags `CONTEXT_USED` and
`CONTEXT_CONF_USED`. The option parser exchanges the ends of a range given backwards. -/
structure Context where
  static : Bool := false
  raStateless : Bool := false
  isDeprecated : Bool := false
  used : Bool := false
  confUsed : Bool := false
  start : In6Addr
  stop : In6Addr
  prefixLen : ℕ := 64
  localAddr : In6Addr := ⟨0, 0⟩
  leaseTime : ℕ := 3600
  preferred : ℕ := 0xffffffff
  addrEpoch : BitVec 64 := 0
  filter : List Tag := []
  netid : Option Tag := none
  ordered : start.lo.toNat ≤ stop.lo.toNat := by decide

theorem ordered_oneRange : (⟨0x20010db800000000, 0x100⟩ : In6Addr).lo.toNat ≤
    (⟨0x20010db800000000, 0x1ff⟩ : In6Addr).lo.toNat := by
  decide

def sampleRange : Context :=
  { start := ⟨0x20010db800000000, 0x100⟩, stop := ⟨0x20010db800000000, 0x1ff⟩,
    ordered := ordered_oneRange }

/-- An IPv6 address on a `dhcp-host` line: one address, a block of them, or with `wildcard`
only the host part of one. -/
structure AddrList where
  addr : In6Addr
  prefixLen : Option ℕ := none
  wildcard : Bool := false
  declineTime : Option ℕ := none

structure Config extends Dhcp.Config where
  addr6 : List AddrList := []
  hasAddr6 := !addr6.isEmpty

/-- The part of `daemon` that the DHCPv6 server reads and writes. -/
structure Daemon where
  db : LeaseDb
  dhcp6 : List Context
  dhcpConf : List Config := []
  duid : Bytes := []
  tagIf : List TagIf := []
  dhcpIgnore : List (List Tag) := []
  optConsecAddr : Bool := false
  optAuthoritative : Bool := false

def AddrList.length (a : AddrList) : ℕ := a.prefixLen.getD 128

def declineBackoff : ℕ := 600

namespace Daemon

variable (d : Daemon)

def contexts (context : List ℕ) : List Context := context.filterMap (d.dhcp6[·]?)

def config (i : Option ℕ) : Option Config := i.bind (d.dhcpConf[·]?)

def isConfigInContext (context : List ℕ) (config : Config) : Bool :=
  context.isEmpty || (config.addr.isNone && config.addr6.isEmpty) ||
    (d.contexts context).any fun c => config.addr6.any fun a =>
      (a.wildcard && c.prefixLen == 64) || isSameNet6 a.addr c.start c.prefixLen

section

variable (context : List ℕ) (clid hwaddr : Option Bytes) (hwType : ℕ) (hostname : Option CString)
  (tags : List Tag)

def findConfigMatch (tagNotNeeded : Bool) : Option ℕ :=
  let usable (c : Config) : Bool :=
    d.isConfigInContext context c && matchNetid c.filter tags tagNotNeeded
  let byClid := clid.bind fun clid => d.dhcpConf.findIdx? fun c =>
    -- The allowance for dhcpcd is for IPv4 only, but no range means IPv4 here.
    (c.clid == some clid ||
      (context.isEmpty && clid.head? == some 0 && c.clid == some clid.tail)) && usable c
  let byMac := hwaddr.bind fun hwaddr =>
    d.dhcpConf.findIdx? fun c => configHasMac c.toConfig (some hwaddr) hwType && usable c
  let byName := if context.isEmpty then none else hostname.bind fun hostname =>
    d.dhcpConf.findIdx? fun c => c.hostname.any (hostnameIsequal · hostname) && usable c
  let byMask := hwaddr.bind fun hwaddr =>
    let masked (c : Config) : ℕ := if usable c then
      ((c.hwaddr.filter fun h => h.wildcardMask ≠ 0 ∧ h.hwaddr.length = hwaddr.length ∧
        (h.hwaddrType = hwType ∨ h.hwaddrType = 0)).map fun h =>
          memcmpMasked h.hwaddr hwaddr h.wildcardMask).foldl max 0 else 0
    let best := (d.dhcpConf.map masked).foldl max 0
    if best = 0 then none else d.dhcpConf.findIdx? fun c => masked c == best
  byClid <|> byMac <|> byName <|> byMask

def findConfig : Option ℕ :=
  d.findConfigMatch context clid hwaddr hwType hostname tags false <|>
    d.findConfigMatch context clid hwaddr hwType hostname tags true

end

/-- The test on the whole address is made for a bare host part as well. -/
def configFindByAddress6 (net : Option In6Addr) (len : ℕ) (addr : In6Addr) : Option ℕ :=
  d.dhcpConf.findIdx? fun c => c.addr6.any fun a =>
    (net.all (isSameNet6 a.addr · len) || (a.wildcard && len == 64)) &&
      isSameNet6 a.addr addr a.length

section

variable (context : List ℕ) (addr : In6Addr) (netids : List Tag) (plainRange : Bool)

/-- An address from a range that leases are given from. -/
def address6Available : Option ℕ :=
  context.find? fun i => d.dhcp6[i]?.any fun c =>
    !(c.static || c.raStateless) && isSameNet6 c.start addr c.prefixLen &&
      isSameNet6 c.stop addr c.prefixLen && c.start.lo.toNat ≤ addr.lo.toNat &&
      addr.lo.toNat ≤ c.stop.lo.toNat && matchNetid c.filter netids plainRange

def address6Valid : Option ℕ :=
  context.find? fun i => d.dhcp6[i]?.any fun c =>
    isSameNet6 c.start addr c.prefixLen && matchNetid c.filter netids plainRange

end

def leaseFindMaxAddr6 (c : Context) : BitVec 64 :=
  if c.static then c.start.lo
  else d.db.leases.items.foldl (fun addr l =>
    if isSameNet6 l.addr c.start 64 && c.start.lo.toNat < l.addr.lo.toNat &&
      l.addr.lo.toNat ≤ c.stop.lo.toNat && addr.toNat < l.addr.lo.toNat then l.addr.lo else addr)
    c.start.lo

/-- The SDBM hash of a client-id, starting from the IAID. -/
def hashClid (iaid : ℕ) (clid : Bytes) : BitVec 64 :=
  clid.foldl (fun (j : BitVec 64) b => BitVec.ofNat 64 b.toNat + (j <<< 6) + (j <<< 16) - j)
    (BitVec.ofNat 64 iaid)

def unusedAddr6 (context : List ℕ) (c : Context) (host : BitVec 64) : Bool :=
  !(d.contexts context).any (·.localAddr.lo == host) &&
    (d.db.lease6FindByAddr c.start c.prefixLen host).isNone &&
    (d.configFindByAddress6 (some c.start) c.prefixLen (c.start.setPart host)).isNone

/-- The host parts from `host` on, in cyclic order, until the search is back at `start`. -/
def scanRange6 (d : Daemon) (context : List ℕ) (c : Context) (start : BitVec 64) :
    ℕ → BitVec 64 → Option In6Addr
  | 0, _ => none
  | fuel + 1, host =>
    if d.unusedAddr6 context c host then some (c.start.setPart host)
    else
      let next := if host + 1 = c.stop.lo + 1 then c.start.lo else host + 1
      if next = start then none else scanRange6 d context c start fuel next

def modifyContext (i : ℕ) (f : Context → Context) : Daemon :=
  { d with dhcp6 := d.dhcp6.modify i f }

/-- Where the search starts. In the consecutive mode a refused address is skipped once. -/
def startAddr6 (i : ℕ) (c : Context) (temp : Bool) (j : BitVec 64) (serial : ℕ) :
    BitVec 64 × Daemon :=
  if !temp && d.optConsecAddr then
    (d.leaseFindMaxAddr6 c + 1 + BitVec.ofNat 64 serial + c.addrEpoch,
      if c.addrEpoch = 0 then d else d.modifyContext i fun c =>
      { c with addrEpoch := c.addrEpoch - 1 })
  else
    let range := 1 + c.stop.lo - c.start.lo
    let offset := j + c.addrEpoch
    (c.start.lo + (if range = 0 then offset else offset % range), d)

def allocateFrom6 (context : List ℕ) (temp : Bool) (j : BitVec 64) (serial : ℕ) (netids : List Tag)
    (pass : Bool) : List ℕ → Daemon → Option (ℕ × In6Addr) × Daemon
  | [], d => (none, d)
  | i :: rest, d =>
    match d.dhcp6[i]? with
    | none => allocateFrom6 context temp j serial netids pass rest d
    | some c =>
      if c.isDeprecated || c.static || c.raStateless || c.used ||
        !matchNetid c.filter netids pass then
        allocateFrom6 context temp j serial netids pass rest d
      else
        match d.startAddr6 i c temp j serial with
        | (start, d) =>
          match d.scanRange6 context c start (2 ^ 64) start with
          | some a => (some (i, a), d)
          | none => allocateFrom6 context temp j serial netids pass rest d

def address6Allocate (context : List ℕ) (temp : Bool) (j : BitVec 64) (serial : ℕ)
    (netids : List Tag) (plainRange : Bool) : Option (ℕ × In6Addr) × Daemon :=
  match allocateFrom6 context temp j serial netids false context d with
  | (some r, d) => (some r, d)
  | (none, d) =>
    if plainRange then allocateFrom6 context temp j serial netids true context d else (none, d)

end Daemon

/-- The entry of a `dhcp-host` line from which the address can come. -/
def configImplies (config : Option Config) (c : Context) (addr : In6Addr) : Option ℕ :=
  config.bind fun config => config.addr6.findIdx? fun a =>
    if a.wildcard && c.prefixLen == 64 then isSameNet6 (c.start.setPart a.addr.lo) addr a.length
    else isSameNet6 c.start addr c.prefixLen && isSameNet6 a.addr addr a.length

end Dnsmasq.Dhcp6
