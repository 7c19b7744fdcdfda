import Dnsmasq.Port.LeaseStore

/-!
The Rust port: the DHCPv4 server of `dhcp/v4/server.rs` over the lease database of `dhcp/lease.rs`.
A packet is given by the fields that the handlers read. The clocks and the order in which a
`HashMap` gives its values are inputs of each step.
-/
namespace Dnsmasq.Port.DhcpServer

open List Lib

abbrev Ipv4Addr := BitVec 32

inductive LeaseState
  | new
  | changed
  | unchanged
  | expired
  deriving DecidableEq, Repr

structure LeaseV4 where
  addr : Ipv4Addr
  hwaddr : Bytes
  clientId : Option Bytes
  hostname : Option Text
  expires : ℕ
  state : LeaseState
  deriving DecidableEq, Repr

/-- The IPv4 leases by address. There may be more than `maxLeases` of them: `load` does not count
what it reads from the lease file. -/
structure LeaseDatabase where
  v4ByIp : List LeaseV4
  maxLeases : ℕ
  distinct : (v4ByIp.map (·.addr)).Nodup

inductive DhcpError
  | invalidPacket (message : String)
  | invalidOption (optionCode : ℕ) (message : String)
  | databaseError (message : String)
  /-- With the first six octets of the hardware address in the text. -/
  | noAvailableAddress (clientId : Bytes)
  deriving DecidableEq, Repr

/-- The order in which the values of a `HashMap` come. -/
structure IterationOrder where
  values : List LeaseV4 → List LeaseV4
  perm : ∀ leases, (values leases).Perm leases

namespace LeaseDatabase

variable (db : LeaseDatabase)

def findByIp (addr : Ipv4Addr) : Option LeaseV4 := db.v4ByIp.find? fun l => l.addr == addr

def findByMac (order : IterationOrder) (hwaddr : Bytes) : Option LeaseV4 :=
  (order.values db.v4ByIp).find? fun l => l.hwaddr == hwaddr

def without (leases : List LeaseV4) (addr : Ipv4Addr) : List LeaseV4 :=
    leases.filter fun l => l.addr != addr

theorem distinct_without {leases : List LeaseV4} (h : (leases.map (·.addr)).Nodup)
    (addr : Ipv4Addr) : ((without leases addr).map (·.addr)).Nodup :=
      h.sublist (filter_sublist.map _)

def removeLease (addr : Ipv4Addr) : LeaseDatabase where
  v4ByIp := without db.v4ByIp addr
  maxLeases := db.maxLeases
  distinct := distinct_without db.distinct addr

def addLease (l : LeaseV4) : Except DhcpError LeaseDatabase :=
  if db.maxLeases ≤ db.v4ByIp.length ∧ l.addr ∉ db.v4ByIp.map (·.addr) then
    .error (.databaseError "Lease database full")
  else
    .ok {
      v4ByIp := l :: without db.v4ByIp l.addr
      maxLeases := db.maxLeases
      distinct := by
        rw [map_cons, nodup_cons]
        exact ⟨by simp [without], distinct_without db.distinct l.addr⟩ }

def prune (now : ℕ) : LeaseDatabase where
  v4ByIp := db.v4ByIp.filter fun l => !decide (l.expires < now)
  maxLeases := db.maxLeases
  distinct := db.distinct.sublist (filter_sublist.map _)

end LeaseDatabase

structure StaticHost where
  macAddress : Bytes
  ipAddress : LeaseStore.IpAddr
  sixOctets : macAddress.length = 6

structure DhcpContext where
  start : LeaseStore.IpAddr
  endp : LeaseStore.IpAddr
  netmask : Option Ipv4Addr
  broadcast : Option Ipv4Addr
  leaseTime : ℕ

structure Server where
  serverAddr : Ipv4Addr
  contexts : List DhcpContext
  staticHosts : List StaticHost

inductive MessageType
  | discover
  | offer
  | request
  | decline
  | ack
  | nak
  | release
  | inform
  deriving DecidableEq, Repr

structure DhcpPacket where
  messageType : MessageType
  /-- `get_chaddr` -/
  chaddr : Bytes
  clientId : Bytes
  ciaddr : Ipv4Addr
  giaddr : Ipv4Addr
  requestedIp : Option Ipv4Addr
  serverId : Option Ipv4Addr
  hlen : chaddr.length ≤ 16

/-- What else a handler reads: the order of the leases, the time since 1970 and that of the
monotonic clock. -/
structure Input where
  order : IterationOrder
  now : ℕ
  monotonic : ℕ

inductive Reply
  | offer (ip : Ipv4Addr)
  | ack (ip : Ipv4Addr)
  | nak (reason : String)
  /-- The answer to a DHCPINFORM, without an address. -/
  | information
  deriving DecidableEq, Repr

structure Handled where
  db : LeaseDatabase
  reply : Outcome DhcpError (Option Reply)

namespace Server

variable (server : Server)

def findStaticReservation (clientMac : Bytes) : Option Ipv4Addr :=
  if clientMac.length ≠ 6 then none
  else
    server.staticHosts.findSome? fun host =>
      if host.macAddress = clientMac then
        match host.ipAddress with
        | .v4 ip => some ip
        | .v6 _ => none
      else none

def isAddressInContext (addr : Ipv4Addr) (context : DhcpContext) : Bool :=
  match context.start, context.endp with
  | .v4 start, .v4 endp => start.toNat ≤ addr.toNat && addr.toNat ≤ endp.toNat
  | _, _ => false

def applyNetmask (addr : Ipv4Addr) : Option Ipv4Addr → Ipv4Addr
  | some mask => addr &&& mask
  | none => addr

def isSpecialAddress (addr : Ipv4Addr) (context : DhcpContext) : Bool :=
  match context.start with
  | .v4 start =>
    addr == applyNetmask start context.netmask || context.broadcast == some addr ||
      addr == server.serverAddr
  | .v6 _ => false

/-- `start_u32..=end_u32` -/
def addressRange (start endp : Ipv4Addr) : List Ipv4Addr :=
  (List.range' start.toNat (endp.toNat + 1 - start.toNat)).map (BitVec.ofNat 32)

/-- The text of the error takes the first six octets of the hardware address, if there are as many.
-/
def noAddress (clientMac : Bytes) : Outcome DhcpError Ipv4Addr :=
  if clientMac.length < 6 then .panic else .err (.noAvailableAddress (clientMac.take 6))

section

variable (db : LeaseDatabase)

/-- The first address of the range that is not special and not leased. -/
def allocateFree (clientMac : Bytes) (context : DhcpContext) : Outcome DhcpError Ipv4Addr :=
  match context.start, context.endp with
  | .v4 start, .v4 endp =>
    match (addressRange start endp).find? fun a => !server.isSpecialAddress a context &&
      (db.findByIp a).isNone with
    | some candidate => .ok candidate
    | none => noAddress clientMac
  | _, _ => .err (.invalidPacket "DHCPv4 context must have IPv4 address ranges")

def allocateAddress (input : Input) (clientMac : Bytes) (context : DhcpContext) :
    Outcome DhcpError Ipv4Addr :=
  match server.findStaticReservation clientMac with
  | some ip => .ok ip
  | none =>
    match db.findByMac input.order clientMac with
    | some l =>
      if isAddressInContext l.addr context && !decide (l.expires < input.monotonic) then .ok l.addr
      else server.allocateFree db clientMac context
    | none => server.allocateFree db clientMac context

/-- The address of a static host, or that of a lease, or a new one. The result of the ping is not
used. -/
def offeredIp (input : Input) (clientMac : Bytes) (context : DhcpContext) :
    Outcome DhcpError Ipv4Addr :=
  match server.findStaticReservation clientMac with
  | some ip => .ok ip
  | none =>
    match db.findByMac input.order clientMac with
    | some l => .ok l.addr
    | none => server.allocateAddress db input clientMac context

def handleDiscover (input : Input) (packet : DhcpPacket) (context : DhcpContext) : Handled where
  db := db
  reply := do
    let ip ← server.offeredIp db input packet.chaddr context
    return some (.offer ip)

def createOrUpdateLease (input : Input) (addr : Ipv4Addr) (packet : DhcpPacket)
    (context : DhcpContext) : Except DhcpError LeaseDatabase :=
  db.addLease
    { addr, hwaddr := packet.chaddr, clientId := some packet.clientId, hostname := none
      expires := input.now + context.leaseTime, state := .new }

def renewLease (input : Input) (clientMac : Bytes) (context : DhcpContext) :
    LeaseDatabase × Option DhcpError :=
  match db.findByMac input.order clientMac with
  | some l =>
    match (db.removeLease l.addr).addLease { l with expires := input.now + context.leaseTime,
                                                    state := .changed } with
    | .ok db => (db, none)
    | .error e => (db.removeLease l.addr, some e)
  | none => (db, none)

/-- The client answers an offer of the server with address `sid`. -/
def handleSelecting (input : Input) (packet : DhcpPacket) (context : DhcpContext) (sid : Ipv4Addr) :
    Handled :=
  if sid ≠ server.serverAddr then ⟨db, .ok none⟩
  else
    match packet.requestedIp with
    | none => ⟨db, .err (.invalidOption 50 "Missing required option: Requested IP Address")⟩
    | some requested =>
      if !isAddressInContext requested context then ⟨db, .ok (some (.nak "Address not in range"))⟩
      else if (db.findByIp requested).any fun l => l.hwaddr != packet.chaddr then
        ⟨db, .ok (some (.nak "Address unavailable"))⟩
      else
        match createOrUpdateLease db input requested packet context with
        | .ok db => ⟨db, .ok (some (.ack requested))⟩
        | .error e => ⟨db, .err e⟩

end

/-- The acknowledgement after `renew_lease`, unless that failed. -/
def acknowledgeRenewed (ciaddr : Ipv4Addr) : LeaseDatabase × Option DhcpError → Handled
  | (db, none) => ⟨db, .ok (some (.ack ciaddr))⟩
  | (db, some e) => ⟨db, .err e⟩

section

variable (db : LeaseDatabase)

def handleRenewing (input : Input) (packet : DhcpPacket) (context : DhcpContext) : Handled :=
  if packet.ciaddr = 0 then ⟨db, .ok (some (.nak "Invalid request"))⟩
  else if !(db.findByMac input.order packet.chaddr).any fun l => l.addr == packet.ciaddr then
    ⟨db, .ok (some (.nak "No lease found"))⟩
  else acknowledgeRenewed packet.ciaddr (renewLease db input packet.chaddr context)

def handleRequest (input : Input) (packet : DhcpPacket) (context : DhcpContext) : Handled :=
  match packet.serverId with
  | some sid => server.handleSelecting db input packet context sid
  | none => handleRenewing db input packet context

def handleRelease (packet : DhcpPacket) : Handled :=
  if packet.ciaddr = 0 then ⟨db, .ok none⟩ else ⟨db.removeLease packet.ciaddr, .ok none⟩

def handleDecline (packet : DhcpPacket) : Handled :=
  match packet.requestedIp with
  | some declined => ⟨db.removeLease declined, .ok none⟩
  | none => ⟨db, .ok none⟩

def handleInform (packet : DhcpPacket) : Handled :=
  if packet.ciaddr = 0 then ⟨db, .ok none⟩ else ⟨db, .ok (some .information)⟩

end

/-- The first context, or for a relayed packet that of the relay. -/
def findContextForPacket (packet : DhcpPacket) : Option DhcpContext :=
  if packet.giaddr = 0 then server.contexts.head?
  else
    server.contexts.find? fun context =>
      match context.start with
      | .v4 start =>
        applyNetmask start context.netmask == applyNetmask packet.giaddr context.netmask
      | .v6 _ => false

def handlePacket (db : LeaseDatabase) (input : Input) (packet : DhcpPacket) : Handled :=
  match server.findContextForPacket packet with
  | none => ⟨db, .err (.invalidPacket "No matching DHCP context found for packet")⟩
  | some context =>
    match packet.messageType with
    | .discover => server.handleDiscover db input packet context
    | .request => server.handleRequest db input packet context
    | .release => handleRelease db packet
    | .decline => handleDecline db packet
    | .inform => handleInform db packet
    | .offer | .ack | .nak => ⟨db, .ok none⟩

end Server

end Dnsmasq.Port.DhcpServer
