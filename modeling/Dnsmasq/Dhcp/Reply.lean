import Dnsmasq.Dhcp.Context

/-!
`dhcp_reply`, from the decoded request to the reply. Which tags vendor classes, `dhcp-match` lines
and the hardware address set is part of the input. Host names are left out except where they select
a `dhcp-host` line.
-/
namespace Dnsmasq.Dhcp

def dhcpdiscover : ℕ := 1
def dhcprequest : ℕ := 3
def dhcpdecline : ℕ := 4
def dhcprelease : ℕ := 7
def dhcpinform : ℕ := 8

def dhcpChaddrMax : ℕ := 16
def declineBackoff : ℕ := 600

def tagKnown : Tag := [107, 110, 111, 119, 110]

def tagKnownOthernet : Tag := tagKnown ++ [45, 111, 116, 104, 101, 114, 110, 101, 116]

def tagBootp : Tag := [98, 111, 111, 116, 112]

/-- `chaddr` holds `hlen` bytes. An absent option is `none`, an absent address is zero. `tags`
are those of the lines that match the packet, `nameTags` those of the `dhcp-name-match` lines. -/
structure Request where
  op : ℕ := 1
  htype : ℕ := 1
  chaddr : Bytes
  ciaddr : InAddr := 0
  yiaddr : InAddr := 0
  giaddr : InAddr := 0
  file : Option Tag := none
  messageType : Option ℕ := none
  cookie : Bool := true
  requestedIp : Option InAddr := none
  serverIdentifier : Option InAddr := none
  clientId : Option Bytes := none
  leaseTime : Option ℕ := none
  wantsLeaseTime : Bool := false
  rapidCommit : Bool := false
  subnetSelect : InAddr := 0
  serverOverride : InAddr := 0
  hostname : Option CString := none
  tags : List Tag := []
  nameTags : List Tag := []
  pxeClient : Bool := false
  bootItem : Option (ℕ × ℕ) := none
  arch : Option ℕ := none

/-- Some clients set `ciaddr` when they should not, which would mislead the choice of the
range. -/
def Request.clearCiaddr (req : Request) : Request :=
  if req.messageType.isSome ∧ (req.requestedIp.isSome ∨ req.messageType = some dhcpdiscover) then
    { req with ciaddr := 0 }
  else req

/-- The other arguments of `dhcp_reply`, and whether `whine_malloc` finds memory for a
lease and for a client-id. -/
structure Arrival where
  context : List ℕ
  now : ℕ
  unicastDest : Bool := false
  loopback : Bool := false
  pxe : Bool := false
  fallback : InAddr := 0
  leaseMemory : Bool := true
  clidMemory : Bool := true

inductive ReplyType
  | bootp
  | dhcpoffer
  | dhcpack
  | dhcpnak
  deriving DecidableEq, Repr

structure Reply where
  type : ReplyType
  yiaddr : InAddr
  leaseTime : Option ℕ := none
  serverIdentifier : Option InAddr := none
  message : Option String := none
  rapidCommit : Bool := false
  deriving DecidableEq, Repr

def extendedHwaddr (hwType : ℕ) (hwaddr : Bytes) (clid : Option Bytes) : Bytes :=
  match clid with
  | some (b :: rest) =>
    if hwaddr.isEmpty ∧ 3 < rest.length + 1 then
      if b.toNat = hwType ∨ (b.toNat = 27 ∧ hwType = 24) then rest else b :: rest
    else hwaddr
  | _ => hwaddr

def calcTime (context : Context) (config : Option Config) (opt : Option ℕ) : ℕ :=
  let time := (config.bind (·.leaseTime)).getD context.leaseTime
  match opt with
  | none => time
  | some reqTime =>
    let reqTime := if reqTime < 120 then 120 else reqTime
    if time = Lease.infinite ∨ (reqTime ≠ Lease.infinite ∧ reqTime < time) then reqTime
    else time

def Lease.setOverride (override : InAddr) (l : Lease) : Lease := { l with override }

section

variable (l : Lease) (req : Request) (clid : Option Bytes) (memory : Bool) (time now : ℕ)
  (override : InAddr)

/-- The stores into the lease of an acknowledged client. -/
def Lease.grant : Lease :=
  let l := (l.leaseSetHwaddr req.chaddr req.htype clid memory).leaseSetExpires time now
  { l with override := if override ≠ 0 then override else l.override }

theorem Lease.grant_frame : (l.grant req clid memory time now override).id = l.id ∧
      (l.grant req clid memory time now override).addr = l.addr ∧
      (l.grant req clid memory time now override).v6 = l.v6 := by
  obtain ⟨clid', h⟩ := l.leaseSetHwaddr_frame req.chaddr req.htype clid memory
  simp only [Lease.grant, Lease.leaseSetExpires, h, and_self]

end

/-- What `dhcp_reply` has found out about the client when it looks at the message type. -/
structure Session where
  req : Request
  arrival : Arrival
  messType : ℕ
  lease : Option Lease
  clid : Option Bytes
  emac : Bytes
  context : List ℕ
  config : Option ℕ
  netid : List Tag
  tagif : List Tag
  ignore : Bool
  override : InAddr

namespace Daemon

variable (d : Daemon)

def serverId (context : List ℕ) (override fallback : InAddr) : InAddr :=
  if override ≠ 0 then override
  else match (d.contexts context).head? with
    | some c => if c.localAddr ≠ 0 then c.localAddr else fallback
    | none => fallback

def contextTags (i : ℕ) (netid tagif : List Tag) : List Tag :=
  match d.dhcp[i]?.bind (·.netid) with
  | some tag => runTagIf d.tagIf (tag :: netid)
  | none => tagif

/-- `lease_prune`, if there is a lease to drop. -/
def dropLease (lease : Option Lease) (now : ℕ) : Daemon :=
  match lease with
  | some l => { d with db := d.db.leasePrune (some l.id) now }
  | none => d

def grantLease (lease : Lease) (req : Request) (clid : Option Bytes)
    (memory : Bool) (time now : ℕ) (override : InAddr) : Daemon :=
  { d with
    db := d.db.update lease.id (fun l => l.grant req clid memory time now override)
      fun l => (l.grant_frame req clid memory time now override).1 }

/-- The `dhcp-host` line of the client and the tags with "known" or "known-othernet". -/
def knownConfig (context : List ℕ) (clid : Option Bytes) (req : Request) :
    Option ℕ × List Tag :=
  let find (context : List ℕ) :=
    d.findConfig context clid req.chaddr req.htype none (runTagIf d.tagIf req.tags)
  match find context with
  | some i => (some i, tagKnown :: req.tags)
  | none => (none, if (find []).isSome then tagKnownOthernet :: req.tags
      else req.tags)

/-- With no `dhcp-host` line so far, one without hardware address and client-id may be
chosen by the name the client sends. -/
def namedConfig (context : List ℕ) (req : Request) (known : Option ℕ × List Tag) :
    Option ℕ × List Tag :=
  if known.1.isSome then known
  else match req.hostname with
    | none => known
    | some name =>
      match d.findConfig context none req.chaddr req.htype (some name)
          (runTagIf d.tagIf known.2) with
      | none => known
      | some i =>
        if (d.dhcpConf[i]?).any fun c => c.clid.isNone && c.hwaddr.isEmpty then
          (some i, tagKnown :: known.2)
        else known

def configTags (config : Option ℕ) (netid : List Tag) : List Tag :=
  match d.config config with
  | none => netid
  | some c => c.netid.reverse ++ netid

def disabled (config : Option ℕ) : Bool := (d.config config).any (·.disable)

def bootpAddress (context : List ℕ) (config : Option ℕ) (req : Request)
    (arrival : Arrival) (tagif : List Tag) : Option (InAddr × Option Lease) × Daemon :=
  match (d.config config).bind (·.addr) with
  | some addr =>
    let lease := d.db.leaseFindByAddr addr
    if lease.any fun l => l.hwaddr ≠ some req.chaddr ∨ l.hwaddrType ≠ req.htype then (none, d)
    else (some (addr, lease), d)
  | none =>
    let lease := d.db.leaseFindByClient req.chaddr req.htype none
    match lease.filter fun l => (d.addressAvailable context l.addr tagif).isSome with
    | some l => (some (l.addr, some l), d)
    | none =>
      -- A lease for another network is dropped.
      let d := d.dropLease lease arrival.now
      match d.addressAllocate context req.chaddr tagif arrival.now arrival.loopback with
      | (none, d) => (none, d)
      | (some addr, d) => (some (addr, none), d)

def bootpReply (context : List ℕ) (config : Option ℕ) (netid : List Tag)
    (req : Request) (arrival : Arrival) : Option Reply × Daemon :=
  if req.htype = 0 ∨ req.chaddr.isEmpty ∨ (d.contexts context).head?.any (·.proxy) then (none, d)
  else
    let netid := d.configTags config netid
    let netid := tagBootp :: (req.file.toList ++ netid)
    let tagif := runTagIf d.tagIf netid
    if d.disabled config ∨ d.dhcpIgnore.any (matchNetid · tagif false) then (none, d)
    else
      match d.bootpAddress context config req arrival tagif with
      | (none, d) => (none, d)
      | (some (yiaddr, lease), d) =>
        match d.narrowContext context yiaddr netid with
        | none => (none, d)
        | some i =>
          let tagif := d.contextTags i netid tagif
          let nailed := ((d.config config).bind (·.addr)).isSome
          if !nailed ∧ !d.bootpDynamic.any (fun l => l.isEmpty || matchNetid l tagif false) then
            (none, d)
          else
            let time := ((d.config config).bind (·.leaseTime)).getD Lease.infinite
            let reply : Reply := { type := .bootp, yiaddr }
            match lease with
            | some l => (some reply, d.grantLease l req none true time arrival.now 0)
            | none =>
              match d.db.lease4Allocate arrival.leaseMemory yiaddr with
              | none => (none, d)
              | some (l, db) =>
                (some reply,
                  { d with db }.grantLease l req none true time arrival.now 0)

/-- Boot-server requests and proxy DHCP. These are answered without a lease. -/
def pxeReply (s : Session) : Option (Option Reply) :=
  let serverIdentifier (i : ℕ) := d.dhcp[i]?.map (·.localAddr)
  if !d.enablePxe || !s.req.pxeClient then none
  else match s.req.bootItem with
    | some (type, layer) =>
      if s.messType = dhcprequest ∨ s.messType = dhcpinform then
        let service := d.pxeServices.find? (·.type = type)
        let context := s.context.find? fun i => d.dhcp[i]?.any fun c =>
          matchNetid c.filter s.tagif true && isSameNet s.req.ciaddr c.start c.netmask
        match context with
        | none => some none
        | some i =>
          if s.ignore ∨ layer &&& 0x8000 ≠ 0 ∨ !service.any (·.basename.isSome) then some none
          else some (some
            { type := .dhcpack, yiaddr := s.req.ciaddr, serverIdentifier := serverIdentifier i })
      else proxyReply serverIdentifier
    | none => proxyReply serverIdentifier
where
  proxyReply (serverIdentifier : ℕ → Option InAddr) : Option (Option Reply) :=
    if s.req.arch.isSome ∧
        (s.messType = dhcpdiscover ∨ (s.arrival.pxe ∧ s.messType = dhcprequest)) then
      match s.context.find? fun i => d.dhcp[i]?.any fun c =>
          c.proxy && matchNetid c.filter s.tagif true with
      | none => none
      | some i =>
        if s.ignore then some none
        else some (some
          { type := if s.messType = dhcpdiscover then .dhcpoffer else .dhcpack
            yiaddr := 0
            serverIdentifier := serverIdentifier i })
    else none

section

variable (s : Session)

def declineReply : Daemon :=
  match s.req.serverIdentifier, s.req.requestedIp with
  | some sid, some addr =>
    if sid ≠ d.serverId s.context s.override s.arrival.fallback then d
    else
      let d := d.dropLease (s.lease.filter (·.addr = addr)) s.arrival.now
      if (d.config s.config).any (·.addr == some addr) then
        let decline (c : Config) : Config := { c with declineTime := some s.arrival.now }
        { d with dhcpConf := s.config.elim d.dhcpConf fun i => d.dhcpConf.modify i decline }
      else
        s.context.foldl
          (fun d i => d.modifyContext i fun c => { c with addrEpoch := c.addrEpoch + 1 }) d
  | _, _ => d

def releaseReply : Daemon :=
  match d.narrowContext s.context s.req.ciaddr s.tagif, s.req.serverIdentifier with
  | some i, some sid =>
    if sid ≠ d.serverId [i] s.override s.arrival.fallback then d
    else d.dropLease (s.lease.filter (·.addr = s.req.ciaddr)) s.arrival.now
  | _, _ => d

/-- Why a request cannot be granted, or the lease to grant it on, if there is one already.
`routed` is whether the configured address is in use by the server or a relay. -/
def checkRequest (lease : Option Lease) (yiaddr : InAddr) (i : ℕ)
    (routed selecting : Bool) : Except String (Option Lease) :=
  let config := d.config s.config
  let addr := config.bind (·.addr)
  if (d.addressAvailable [i] yiaddr s.tagif).isNone ∧ addr ≠ some yiaddr then
    .error "address not available"
  else if !routed ∧ !selecting ∧
      (config.bind (·.declineTime)).all (fun t => t + declineBackoff < s.arrival.now) ∧
      addr.any (fun a => a ≠ yiaddr ∧
        (d.db.leaseFindByAddr a).all fun l => lease.any (·.id = l.id)) then
    .error "static lease available"
  else if (d.configFindByAddress yiaddr).any fun j => some j ≠ s.config then
    .error "address reserved"
  else match lease, d.db.leaseFindByAddr yiaddr with
    | none, some ltmp =>
      -- A host with several hardware addresses takes over its own lease.
      if config.any (configHasMac · ltmp.hwaddr ltmp.hwaddrType) then .ok (some ltmp)
      else .error "address in use"
    | lease, _ => .ok lease

def nakReply (context : List ℕ) (override : InAddr)
    (rapid : Bool) (message : String) : Option Reply :=
  if rapid then none
  else some
    { type := .dhcpnak, yiaddr := 0, message := some message
      serverIdentifier := some (d.serverId context override s.arrival.fallback) }

def ackReply (lease : Lease) (yiaddr : InAddr) (i : ℕ) (c : Context)
    (override : InAddr) (rapid : Bool) : Option Reply × Daemon :=
  let time := calcTime c (d.config s.config) s.req.leaseTime
  let override' := if override ≠ 0 then override else lease.override
  (some
    { type := .dhcpack, yiaddr, leaseTime := some time, rapidCommit := rapid
      serverIdentifier := some (d.serverId [i] override' s.arrival.fallback) },
    d.grantLease lease s.req s.clid s.arrival.clidMemory time s.arrival.now override)

/-- From the label `rapid_commit` on. -/
def commitReply (context : List ℕ) (lease : Option Lease)
    (yiaddr override : InAddr) (selecting rapid : Bool) (message : Option String) :
    Option Reply × Daemon :=
  match message with
  | some message => (d.nakReply s context override rapid message, d)
  | none =>
    match d.narrowContext context yiaddr s.tagif with
    | none => (d.nakReply s [] override rapid "wrong network", d)
    | some i =>
      let addr := (d.config s.config).bind (·.addr)
      let routed := addr.isSome && (d.contexts context).head?.any (some ·.router == addr)
      match d.checkRequest s lease yiaddr i routed selecting, d.dhcp[i]? with
      | .error message, _ => (d.nakReply s [i] override rapid message, d)
      | .ok _, none => (none, d)
      | .ok lease, some c =>
        if s.emac.isEmpty then (d.nakReply s [i] override rapid "no unique-id", d)
        else match lease with
          | some l => d.ackReply s l yiaddr i c override rapid
          | none =>
            match d.db.lease4Allocate s.arrival.leaseMemory yiaddr with
            | none => (d.nakReply s [i] override rapid "no leases left", d)
            | some (l, db) => { d with db }.ackReply s l yiaddr i c override rapid

/-- The configured address, unless somebody else has it, it is our own, or the client has
declined it. -/
def offeredConfigAddr : Option InAddr :=
  match d.config s.config with
  | none => none
  | some config => config.addr.filter fun addr =>
    addr ≠ 0 ∧
    !((d.db.leaseFindByAddr addr).any fun l =>
      s.lease.all (·.id ≠ l.id) && !configHasMac config l.hwaddr l.hwaddrType) ∧
    !(d.contexts s.context).head?.any (·.router == addr) ∧
    !config.declineTime.any fun t => s.arrival.now < t + declineBackoff

def requestedAddr : Option InAddr × Daemon :=
  match s.req.requestedIp with
  | none => (none, d)
  | some addr =>
    if (d.addressAvailable s.context addr s.tagif).isSome ∧
        (d.db.leaseFindByAddr addr).isNone ∧ (d.configFindByAddress addr).isNone then
      match d.doIcmpPing s.arrival.now addr 0 s.arrival.loopback with
      | (some _, d) => (some addr, d)
      | (none, d) => (none, d)
    else (none, d)

def discoverAddress : Option InAddr × Daemon :=
  match d.offeredConfigAddr s with
  | some addr => (some addr, d)
  | none =>
    match s.lease.filter fun l => (d.addressAvailable s.context l.addr s.tagif).isSome ∧
        (d.configFindByAddress l.addr).isNone with
    | some l => (some l.addr, d)
    | none =>
      match d.requestedAddr s with
      | (some addr, d) => (some addr, d)
      | (none, d) =>
        if s.emac.isEmpty then (none, d)
        else d.addressAllocate s.context s.emac s.tagif s.arrival.now s.arrival.loopback

def discoverReply : Option Reply × Daemon :=
  if s.ignore ∨ d.disabled s.config then (none, d)
  else
    match d.discoverAddress s with
    | (none, d) => (none, d)
    | (some yiaddr, d) =>
      match d.narrowContext s.context yiaddr s.tagif with
      | none => (none, d)
      | some i =>
        let s := { s with tagif := d.contextTags i s.netid s.tagif }
        if d.optRapidCommit ∧ s.req.rapidCommit then
          d.commitReply s [i] s.lease yiaddr s.override false true none
        else match d.dhcp[i]? with
          | none => (none, d)
          | some c =>
            (some
              { type := .dhcpoffer, yiaddr
                leaseTime := some (calcTime c (d.config s.config) s.req.leaseTime)
                serverIdentifier :=
                  some (d.serverId [i] s.override s.arrival.fallback) }, d)

/-- Whether a client in state SELECTING has selected us: the ranges, the server-id to use
and a complaint. A silent refusal is `none`. -/
def selectedServer (sid : InAddr) :
    Option (List ℕ × InAddr × Option String) :=
  if s.override ≠ 0 then if sid ≠ s.override then none else some (s.context, s.override, none)
  else
    match s.context.dropWhile fun i => !d.dhcp[i]?.any (·.localAddr == sid) with
    | i :: rest => some (i :: rest, s.override, none)
    | [] =>
      if sid ∈ d.interfaces then some ([], sid, none)
      else if d.optAuthoritative then some ([], s.override, some "wrong server-ID")
      else none

/-- In authoritative mode a lease may be missing, as long as it can be allocated now. -/
def renewalMissing : Bool :=
  match s.lease with
  | some l => s.req.ciaddr ≠ l.addr
  | none => !d.optAuthoritative

def requestReply : Option Reply × Daemon :=
  if s.ignore ∨ d.disabled s.config then (none, d)
  else match s.req.requestedIp, s.req.serverIdentifier with
    | some yiaddr, some sid =>
      match d.selectedServer s sid with
      | none => (none, d)
      | some (context, override, message) =>
        -- A lease of this client for another address is squashed.
        (d.dropLease (s.lease.filter (·.addr ≠ yiaddr)) s.arrival.now).commitReply s context
          (s.lease.filter (·.addr = yiaddr)) yiaddr override true false message
    | some yiaddr, none =>
      if s.lease.isNone ∧ !d.optAuthoritative then (none, d)
      else d.commitReply s s.context s.lease yiaddr s.override false false
        (if s.lease.any (·.addr ≠ yiaddr) then some "wrong address" else none)
    | none, _ =>
      if d.renewalMissing s ∧ !s.arrival.unicastDest then (none, d)
      else d.commitReply s s.context s.lease s.req.ciaddr s.override false false
        (if d.renewalMissing s then some "lease not found" else none)

def informReply : Option Reply × Daemon :=
  if s.ignore ∨ d.disabled s.config ∨ s.req.ciaddr = 0 then (none, d)
  else
    let context := (d.narrowContext s.context s.req.ciaddr s.tagif).toList
    match s.lease <|> d.db.leaseFindByAddr s.req.ciaddr with
    | none =>
      (some
        { type := .dhcpack, yiaddr := s.req.yiaddr
          serverIdentifier := some (d.serverId context s.override s.arrival.fallback) }, d)
    | some l =>
      let override := if s.override ≠ 0 then s.override else l.override
      (some
        { type := .dhcpack, yiaddr := s.req.yiaddr
          serverIdentifier := some (d.serverId context override s.arrival.fallback)
          leaseTime := if !s.req.wantsLeaseTime then none
            else some (if l.expires = 0 then Lease.infinite else l.expires - s.arrival.now) },
        { d with db := d.db.update l.id (Lease.setOverride override) fun _ => rfl })

end

/-- Without a client identifier option, or told to ignore it, we use the hardware address. -/
def clientId (req : Request) : Option Bytes :=
  if req.messageType.isSome ∧ !d.optIgnoreClid then req.clientId else none

def clientLease (req : Request) : Option Lease :=
  if req.messageType.isSome then
    d.db.leaseFindByClient req.chaddr req.htype (d.clientId req)
  else none

def knownClid (req : Request) : Option Bytes :=
  d.clientId req <|> (d.clientLease req).bind (·.clid)

def session (req : Request) (arrival : Arrival) (context : List ℕ) : Session :=
  let clid := d.knownClid req
  let known := d.knownConfig context clid req
  let named := d.namedConfig context req (known.1, req.nameTags ++ known.2)
  let netid := d.configTags named.1 named.2
  let tagif := runTagIf d.tagIf netid
  let relayed := match d.overrideRelays with
    | none => false
    | some relays => req.giaddr ≠ 0 && req.serverOverride == 0 &&
        (relays.isEmpty || relays.contains req.giaddr)
  { req, arrival, context, netid, tagif
    messType := req.messageType.getD 0
    lease := d.clientLease req
    emac := if req.messageType.isSome then extendedHwaddr req.htype req.chaddr clid else []
    config := named.1
    clid := if (d.config named.1).any (·.noclid) then none else clid
    ignore := d.dhcpIgnore.any (matchNetid · tagif false)
    override := if relayed then req.giaddr else req.serverOverride }

def dispatchReply (s : Session) : Option Reply × Daemon :=
  match d.pxeReply s with
  | some reply => (reply, d)
  | none =>
    if (d.contexts s.context).head?.any (·.proxy) ∨ s.arrival.pxe then (none, d)
    else if s.messType = dhcpdecline then (none, d.declineReply s)
    else if s.messType = dhcprelease then (none, d.releaseReply s)
    else if s.messType = dhcpdiscover then d.discoverReply s
    else if s.messType = dhcprequest then d.requestReply s
    else if s.messType = dhcpinform then d.informReply s
    else (none, d)

def dhcpReply (req : Request) (arrival : Arrival) : Option Reply × Daemon :=
  if req.op ≠ 1 ∨ dhcpChaddrMax < req.chaddr.length then (none, d)
  else if req.htype = 0 ∧ !req.chaddr.isEmpty then (none, d)
  else if req.messageType.isSome ∧ !req.cookie then (none, d)
  else
    let req := req.clearCiaddr
    match d.selectContext arrival.context req.giaddr req.subnetSelect req.ciaddr
        arrival.fallback with
    | (d, []) => (none, d)
    | (d, context) =>
      if req.messageType.getD 0 = 0 ∧ !arrival.pxe then
        let known := d.knownConfig context (d.knownClid req) req
        d.bootpReply context known.1 known.2 req arrival
      else d.dispatchReply (d.session req arrival context)

end Daemon

end Dnsmasq.Dhcp
