import Dnsmasq.Dhcp6.Context
import Dnsmasq.Dhcp.Reply

/-!
`dhcp6_no_relay`, from the decoded message to the reply. Which tags its classes, `dhcp-match` lines
and hardware address set is part of the input. Host names that select no `dhcp-host` line and
options without addresses are left out.
-/
namespace Dnsmasq.Dhcp6

open Dhcp (Bytes Tag matchNetid runTagIf tagKnown tagKnownOthernet)

inductive MsgType
  | solicit
  | request
  | confirm
  | renew
  | rebind
  | release
  | decline
  | ireq
  | other (code : ℕ)
  deriving DecidableEq, Repr

def MsgType.code : MsgType → ℕ
  | solicit => 1
  | request => 3
  | confirm => 4
  | renew => 5
  | rebind => 6
  | release => 8
  | decline => 9
  | ireq => 11
  | other code => code

def dhcp6advertise : ℕ := 2
def dhcp6reply : ℕ := 7

def dhcp6success : ℕ := 0
def dhcp6unspec : ℕ := 1
def dhcp6noaddrs : ℕ := 2
def dhcp6nobinding : ℕ := 3
def dhcp6notonlink : ℕ := 4
def dhcp6usemulti : ℕ := 5

structure IaAddr where
  addr : In6Addr
  preferred : ℕ := 0
  valid : ℕ := 0
  deriving DecidableEq, Repr

structure Ia where
  type : LeaseType
  iaid : ℕ
  addrs : List IaAddr := []
  deriving DecidableEq, Repr

/-- `hostname` is the name the client sends, without its domain. An empty client-id is not
taken for one. -/
structure Message where
  type : MsgType
  clid : Option Bytes
  clidNonempty : clid ≠ some [] := by simp
  serverId : Option Bytes := none
  rapidCommit : Bool := false
  ias : List Ia := []
  hostname : Option CString := none
  tags : List Tag := []

theorem clid_one : (some [1] : Option Bytes) ≠ some [] := by simp

theorem clid_octet (b : UInt8) : (some [b] : Option Bytes) ≠ some [] := by simp

/-- The rest of the input: the ranges, the hardware address if it is known, whether
`whine_malloc` finds memory for a lease and for its client-id, random numbers for temporary
addresses, and how often the loop around `address6_allocate` goes round. -/
structure Arrival where
  context : List ℕ
  now : ℕ
  mac : Bytes := []
  macType : ℕ := 0
  unicast : Bool := false
  leaseMemory : ℕ → Bool := fun _ => true
  clidMemory : ℕ → Bool := fun _ => true
  rand : ℕ → ℕ → BitVec 64 := fun _ _ => 0
  rounds : ℕ

inductive IaOption
  | iaaddr (a : IaAddr)
  | status (code : ℕ) (text : String)
  deriving DecidableEq, Repr

/-- The times T1 and T2 follow from `minTime`, if there is one. -/
structure IaReply where
  type : LeaseType
  iaid : ℕ
  minTime : Option ℕ
  options : List IaOption
  deriving DecidableEq, Repr

inductive ReplyOption
  | ia (r : IaReply)
  | status (code : ℕ) (text : String)
  | preference (n : ℕ)
  | rapidCommit
  deriving DecidableEq, Repr

structure Reply where
  type : ℕ
  options : List ReplyOption
  deriving DecidableEq, Repr

/-- What `dhcp6_no_relay` has found out about the client when it looks at the message type. -/
structure Session where
  arrival : Arrival
  clid : Bytes
  config : Option ℕ
  tagif : List Tag
  ignore : Bool
  leaseAllocate : Bool := false

structure IaWork where
  daemon : Daemon
  options : List IaOption := []
  minTime : ℕ := 0xffffffff
  assigned : Bool := false

/-- The least time so far, the valid and the preferred lifetime. -/
def calculateTimes (c : Context) (minTime reqValid reqPreferred leaseTime : ℕ) : ℕ × ℕ × ℕ :=
  let atMost (req time : ℕ) : ℕ := if req = 0 then time else min (max req 120) time
  let preferred := if reqPreferred ≤ reqValid then atMost reqPreferred leaseTime else leaseTime
  let valid := if reqPreferred ≤ reqValid then atMost reqValid leaseTime else leaseTime
  let preferred := if c.isDeprecated || c.preferred == 0 then 0 else preferred
  let least (time minTime : ℕ) : ℕ := if time ≠ 0 ∧ time < minTime then time else minTime
  (least valid (least preferred minTime), valid, preferred)

def Lease.grant (s : Session) (iaid valid : ℕ) (l : Lease) : Lease :=
  ((l.leaseSetExpires valid s.arrival.now).leaseSetIaid iaid).leaseSetHwaddr s.arrival.mac
    s.arrival.macType s.clid (s.arrival.clidMemory l.id)

theorem Lease.keeps_grant (s : Session) (iaid valid : ℕ) : Keeps (Lease.grant s iaid valid) :=
  (keeps_setHwaddr s.arrival.mac s.arrival.macType s.clid s.arrival.clidMemory).comp
    ((keeps_setIaid iaid).comp (keeps_setExpires valid s.arrival.now))

def Lease.markUsed (l : Lease) : Lease := { l with used := true }

theorem Lease.keeps_markUsed : Keeps Lease.markUsed := ⟨fun _ => rfl, fun _ => rfl, fun _ => rfl⟩

namespace Daemon

variable (d : Daemon)

def checkAddress (s : Session) (iaid : ℕ) (addr : In6Addr) : Bool :=
  (d.db.findByAddr addr).all fun l => l.clid == some s.clid && l.iaid == iaid

def firstFree (d : Daemon) (s : Session) (iaid : ℕ) (base : In6Addr) :
    ℕ → BitVec 64 → Option In6Addr
  | 0, _ => none
  | n + 1, host =>
    if d.checkAddress s iaid (base.setPart host) then some (base.setPart host)
    else firstFree d s iaid base n (host + 1)

/-- An address of the client's `dhcp-host` line for this range that nobody else has. -/
def configValid (s : Session) (iaid : ℕ) (c : Context) : Option In6Addr :=
  match d.config s.config with
  | none => none
  | some config => config.addr6.findSome? fun a =>
    if a.declineTime.any (s.arrival.now < · + declineBackoff) then none
    else
      let addresses := match a.prefixLen with
        | some len => 2 ^ (128 - len) % 2 ^ 64
        | none => 1
      if a.wildcard then
        if c.prefixLen ≠ 64 then none else d.firstFree s iaid c.start addresses a.addr.lo
      else if isSameNet6 c.start a.addr c.prefixLen then
        d.firstFree s iaid a.addr addresses a.addr.lo
      else none

def modifyContexts (context : List ℕ) (f : Context → Context) : Daemon :=
  context.foldl (fun d i => d.modifyContext i f) d

def markContextUsed (context : List ℕ) (addr : In6Addr) : Daemon :=
  d.modifyContexts context fun c => if isSameNet6 addr c.start c.prefixLen then
    { c with used := true } else c

def markConfigUsed (context : List ℕ) (addr : In6Addr) : Daemon :=
  d.modifyContexts context fun c => if isSameNet6 addr c.start c.prefixLen then
    { c with confUsed := true } else c

/-- The lease for the address, a new one if there is none, goes to the client. -/
def updateLeases (s : Session) (ia : Ia) (addr : In6Addr) (valid : ℕ) : Daemon :=
  let grant (db : LeaseDb) (l : Lease) : LeaseDb :=
    db.update l.id (Lease.grant s ia.iaid valid) (Lease.keeps_grant s ia.iaid valid)
  { d with
    db := match d.db.findByAddr addr with
      | some l => grant d.db l
      | none =>
        match d.db.lease6Allocate (s.arrival.leaseMemory d.db.leases.next) addr ia.type with
        | some (l, db) => grant db l
        | none => d.db }

def useLease (addr : In6Addr) : Daemon :=
  match d.db.findByAddr addr with
  | some l => { d with db := d.db.update l.id Lease.markUsed Lease.keeps_markUsed }
  | none => d

section

variable (s : Session)

/-- `req` is the option of the client that asks for the address, if it does. -/
def addAddress (ia : Ia) (c : Context) (leaseTime : ℕ) (req : Option IaAddr) (addr : In6Addr)
    (w : IaWork) : IaWork :=
  let (minTime, valid, preferred) :=
    calculateTimes c w.minTime ((req.map IaAddr.valid).getD 0)
      ((req.map IaAddr.preferred).getD 0) leaseTime
  let d := if s.leaseAllocate then w.daemon.updateLeases s ia addr valid else w.daemon
  { daemon := d.useLease addr
    options := w.options ++ [.iaaddr { addr, preferred, valid }]
    minTime
    assigned := true }

def leaseTime (c : Context) : ℕ :=
  ((d.config s.config).bind (·.leaseTime)).getD c.leaseTime

/-- An address the client asks for. A configured address on the same net is given instead. -/
def solicitAddr (ia : Ia) (w : IaWork) (req : IaAddr) : IaWork :=
  let d := w.daemon
  let context := s.arrival.context
  match d.address6Valid context req.addr s.tagif true with
  | none => w
  | some i =>
    match d.dhcp6[i]? with
    | none => w
    | some c =>
      match (if c.confUsed then none else d.configValid s ia.iaid c) with
      | some addr =>
        let d := d.markConfigUsed (context.dropWhile (· ≠ i)) addr
        let w := addAddress s ia c (d.leaseTime s c) (some req) addr { w with daemon := d }
        { w with daemon := w.daemon.markContextUsed context addr }
      | none =>
        match (d.address6Available context req.addr s.tagif true).bind (d.dhcp6[·]?) with
        | none => w
        | some c' =>
          if !d.checkAddress s ia.iaid req.addr then w
          else
            let w := addAddress s ia c' c.leaseTime (some req) req.addr w
            { w with daemon := w.daemon.markContextUsed context req.addr }

/-- The configured address for one range, if it is not used yet. -/
def solicitConfig (ia : Ia) (w : IaWork) (i : ℕ) : IaWork :=
  let d := w.daemon
  let context := s.arrival.context
  match d.dhcp6[i]? with
  | none => w
  | some c =>
    if c.confUsed || !matchNetid c.filter s.tagif true then w
    else match d.configValid s ia.iaid c with
      | none => w
      | some addr =>
        let d := d.markConfigUsed context addr
        let w := addAddress s ia c (d.leaseTime s c) none addr { w with daemon := d }
        { w with daemon := w.daemon.markContextUsed context addr }

def solicitLease (ia : Ia) (w : IaWork) (id : ℕ) : IaWork :=
  let d := w.daemon
  let context := s.arrival.context
  match d.db.leases.items.find? (·.id == id) with
  | none => w
  | some l =>
    if l.used || l.type != ia.type || l.iaid != ia.iaid || l.clid != some s.clid then w
    else match (d.address6Available context l.addr s.tagif true).bind (d.dhcp6[·]?) with
      | none => w
      | some c =>
        let w := addAddress s ia c c.leaseTime none l.addr w
        { w with daemon := w.daemon.markContextUsed context l.addr }

end

/-- New addresses, as long as there is a range without one. `n` is the position of the IA. -/
def solicitAllocate (s : Session) (ia : Ia) (n : ℕ) : ℕ → IaWork → IaWork
  | 0, w => w
  | rounds + 1, w =>
    let context := s.arrival.context
    let temp : Bool := ia.type = .ta
    let j := if temp then s.arrival.rand n rounds else hashClid ia.iaid s.clid
    match w.daemon.address6Allocate context temp j ia.addrs.length s.tagif true with
    | (none, d) => { w with daemon := d }
    | (some (i, addr), d) =>
      match d.dhcp6[i]? with
      | none => { w with daemon := d }
      | some c =>
        let w := addAddress s ia c c.leaseTime none addr { w with daemon := d }
        solicitAllocate s ia n rounds { w with daemon := w.daemon.markContextUsed context addr }

def solicitIa (s : Session) (ia : Ia) (n : ℕ) : IaWork :=
  let context := s.arrival.context
  -- One address per range and IA.
  let w : IaWork := { daemon := d.modifyContexts context fun c => { c with used := false } }
  let w := ia.addrs.foldl (solicitAddr s ia) w
  let w := context.foldl (solicitConfig s ia) w
  let w := (w.daemon.db.leases.items.map Lease.id).foldl (solicitLease s ia) w
  solicitAllocate s ia n s.arrival.rounds w

/-- The IAs from the `n`-th on, and whether an address was assigned. -/
def solicitIas (s : Session) : List Ia → ℕ → Daemon → Bool → List ReplyOption × Bool × Daemon
  | [], _, d, assigned => ([], assigned, d)
  | ia :: ias, n, d, assigned =>
    let w := d.solicitIa s ia n
    let (options, assigned, d) := solicitIas s ias (n + 1) w.daemon (assigned || w.assigned)
    let minTime := if ia.type = .na then some w.minTime else none
    if w.assigned then
      (.ia { type := ia.type, iaid := ia.iaid, minTime, options := w.options } :: options, assigned,
        d)
    else if s.leaseAllocate then
      (.ia { type := ia.type, iaid := ia.iaid, minTime
             options := w.options ++ [.status dhcp6noaddrs "address unavailable"] } :: options,
               assigned, d)
    -- An advertisement leaves out an IA without addresses.
    else (options, assigned, d)

/-- From the label `request_no_address` on. -/
def solicitReply (s : Session) (ias : List Ia) : Option (List ReplyOption) × Daemon :=
  if s.ignore then (none, d)
  else
    let d := { d with db := d.db.lease6Reset }
    let d := d.modifyContexts s.arrival.context fun c => { c with confUsed := false }
    let (options, assigned, d) := solicitIas s ias 0 d false
    (some (options ++
      if assigned then
        [.status dhcp6success "success", .preference (if d.optAuthoritative then 255 else 0)]
      else [.status dhcp6noaddrs "no addresses available"]), d)

def requestAddr (s : Session) (ia : Ia) (w : IaWork) (req : IaAddr) : IaWork :=
  let d := w.daemon
  let context := s.arrival.context
  let valid := (d.address6Valid context req.addr s.tagif true).bind (d.dhcp6[·]?)
  let configOk := valid.any fun c => (configImplies (d.config s.config) c req.addr).isSome
  let dynamic := (d.address6Available context req.addr s.tagif true).bind (d.dhcp6[·]?)
  match dynamic <|> valid with
  | none => { w with options := w.options ++ [.status dhcp6notonlink "not on link"] }
  | some c =>
    if dynamic.isNone && !configOk then
      { w with options := w.options ++ [.status dhcp6noaddrs "address unavailable"] }
    else if !d.checkAddress s ia.iaid req.addr then
      { w with options := w.options ++ [.status dhcp6unspec "address in use"] }
    else
      addAddress s ia c (if configOk then d.leaseTime s c else c.leaseTime) (some req) req.addr w

def requestIa (s : Session) (ia : Ia) : IaWork :=
  ia.addrs.foldl (requestAddr s ia) { daemon := d }

/-- The IAs of a request. There is no result if one of them asks for no address. -/
def requestIas (s : Session) : List Ia → Daemon → Bool → Option (List ReplyOption × Bool) × Daemon
  | [], d, assigned => (some ([], assigned), d)
  | ia :: ias, d, assigned =>
    if ia.addrs.isEmpty then (none, d)
    else
      let w := d.requestIa s ia
      let minTime := if ia.type = .na then some w.minTime else none
      match requestIas s ias w.daemon (assigned || w.assigned) with
      | (none, d) => (none, d)
      | (some (options, assigned), d) =>
        (some (.ia { type := ia.type, iaid := ia.iaid, minTime, options := w.options } :: options,
          assigned), d)

def requestReply (s : Session) (ias : List Ia) : Option (List ReplyOption) × Daemon :=
  if s.ignore then (none, d)
  else match requestIas s ias d false with
    -- A request without addresses is treated like a solicitation with rapid commit.
    | (none, d) => d.solicitReply s ias
    | (some (options, assigned), d) =>
      (some (options ++
        if assigned then [.status dhcp6success "success"]
        else [.status dhcp6noaddrs "no addresses available"]), d)

/-- The stores into the lease of a client that renews. -/
def renewLease (s : Session) (id valid : ℕ) : Daemon :=
  let db := d.db.update id (·.leaseSetExpires valid s.arrival.now)
    (Lease.keeps_setExpires valid s.arrival.now)
  { d with
    db := if s.arrival.mac.isEmpty then db
      else db.update id _ (Lease.keeps_setHwaddr s.arrival.mac s.arrival.macType s.clid
        s.arrival.clidMemory) }

def renewAddr (s : Session) (id : ℕ) (req : IaAddr) (w : IaWork) : IaWork :=
  let d := w.daemon
  let context := s.arrival.context
  match (d.address6Available context req.addr s.tagif true <|>
      d.address6Valid context req.addr s.tagif true).bind (d.dhcp6[·]?) with
  | none => { w with options := w.options ++ [.iaaddr { addr := req.addr }] }
  | some c =>
    let time := if (configImplies (d.config s.config) c req.addr).isSome then d.leaseTime s c
      else c.leaseTime
    let (minTime, valid, preferred) := calculateTimes c w.minTime req.valid req.preferred time
    { daemon := d.renewLease s id valid
      options := w.options ++ [.iaaddr { addr := req.addr, preferred, valid }]
      minTime
      assigned := true }

/-- The addresses of one IA. A missing lease ends the loop, unless the client rebinds and a
new one can be had. -/
def renewAddrs (s : Session) (rebind : Bool) (ia : Ia) : List IaAddr → IaWork → IaWork × Bool
  | [], w => (w, true)
  | req :: rest, w =>
    match w.daemon.db.lease6Find s.clid ia.type ia.iaid req.addr with
    | some l => renewAddrs s rebind ia rest (renewAddr s l.id req w)
    | none =>
      if rebind then
        match w.daemon.db.lease6Allocate (s.arrival.leaseMemory w.daemon.db.leases.next)
          req.addr ia.type with
        | none => (w, true)
        | some (l, db) =>
          let db := db.update l.id (·.leaseSetIaid ia.iaid) (Lease.keeps_setIaid ia.iaid)
          renewAddrs s rebind ia rest (renewAddr s l.id req
            { w with daemon := { w.daemon with db } })
      else ({ w with options := [.status dhcp6nobinding "no binding found"] }, false)

def renewIas (s : Session) (rebind : Bool) : List Ia → Daemon → Bool →
    List ReplyOption × Bool × Daemon
  | [], d, assigned => ([], assigned, d)
  | ia :: ias, d, assigned =>
    let (w, times) := renewAddrs s rebind ia ia.addrs { daemon := d }
    let (options, assigned, d) := renewIas s rebind ias w.daemon (assigned || w.assigned)
    let minTime := if ia.type = .na ∧ times then some w.minTime else none
    (.ia { type := ia.type, iaid := ia.iaid, minTime, options := w.options } :: options, assigned,
      d)

def renewReply (s : Session) (rebind : Bool) (ias : List Ia) : List ReplyOption × Daemon :=
  let (options, assigned, d) := renewIas s rebind ias d false
  (options ++ if !assigned && rebind then [.status dhcp6noaddrs "no addresses available"]
    else [], d)

/-- Whether all addresses are on the net. There is no result without an address. -/
def confirmReply (s : Session) (ias : List Ia) : Option Bool :=
  let addrs := ias.flatMap Ia.addrs
  if addrs.any fun a => (d.address6Valid s.arrival.context a.addr s.tagif true).isNone
    then some false
  else if addrs.isEmpty then none
  else some true

/-- A lease the client gives back. An address without one is sent back. -/
def dropAddr (s : Session) (ia : Ia) (w : IaWork) (req : IaAddr) : IaWork :=
  match w.daemon.db.lease6Find s.clid ia.type ia.iaid req.addr with
  | some l =>
    { w with daemon := { w.daemon with db := w.daemon.db.leasePrune (some l.id) s.arrival.now } }
  | none => { w with options := w.options ++ [.iaaddr { addr := req.addr }] }

def dropIas (s : Session) (before : Session → Daemon → In6Addr → Daemon) :
    List Ia → Daemon → List ReplyOption × Daemon
  | [], d => ([], d)
  | ia :: ias, d =>
    let w := ia.addrs.foldl (fun (w : IaWork) req =>
      dropAddr s ia { w with daemon := before s w.daemon req.addr } req) { daemon := d }
    let (options, d) := dropIas s before ias w.daemon
    (if w.options.isEmpty then options
      else .ia { type := ia.type, iaid := ia.iaid, minTime := none
                 options := w.options ++ [.status dhcp6nobinding "no binding found"] } :: options,
                   d)

def releaseReply (s : Session) (ias : List Ia) : List ReplyOption × Daemon :=
  let (options, d) := dropIas s (fun _ d _ => d) ias d
  (options ++ [.status dhcp6success "release received"], d)

/-- A refused address from the client's `dhcp-host` line is disabled for a while. -/
def declineAddr (s : Session) (d : Daemon) (addr : In6Addr) : Daemon :=
  let c := s.arrival.context.head?.bind (d.dhcp6[·]?)
  match s.config, c.bind fun c => configImplies (d.config s.config) c addr with
  | some i, some k =>
    let decline (a : AddrList) : AddrList := { a with declineTime := some s.arrival.now }
    { d with dhcpConf := d.dhcpConf.modify i fun c => { c with addr6 := c.addr6.modify k decline } }
  | _, _ => d.modifyContexts s.arrival.context fun c => { c with addrEpoch := c.addrEpoch + 1 }

def declineReply (s : Session) (ias : List Ia) : List ReplyOption × Daemon :=
  let (options, d) := dropIas s declineAddr ias d
  (options ++ [.status dhcp6success "success"], d)

section

variable (m : Message) (a : Arrival)

/-- The `dhcp-host` line of the client: by its identity, else by its name if the line has
neither client-id nor hardware address. -/
def identify : Option ℕ :=
  let tags := runTagIf d.tagIf m.tags
  match m.clid.bind fun clid => d.findConfig a.context (some clid) (some a.mac)
    a.macType none tags with
  | some i => some i
  | none => m.hostname.bind fun name =>
    (d.findConfig a.context none none 0 (some name) tags).filter fun i =>
      (d.dhcpConf[i]?).any fun c => c.clid.isNone && c.hwaddr.isEmpty

/-- The tags of the client with those of its line and "known" or "known-othernet". -/
def knownTags : List Tag :=
  match d.config (d.identify m a) with
  | some c => tagKnown :: (c.netid.reverse ++ m.tags)
  | none =>
    if m.clid.any fun clid => (d.findConfig [] (some clid) (some a.mac) a.macType none
        (runTagIf d.tagIf m.tags)).isSome then tagKnownOthernet :: m.tags
    else m.tags

def session : Session :=
  let tagif := runTagIf d.tagIf (d.knownTags m a)
  { arrival := a
    clid := m.clid.getD []
    config := d.identify m a
    tagif
    ignore := (d.config (d.identify m a)).any (·.disable) ||
      d.dhcpIgnore.any (matchNetid · tagif false)
    leaseAllocate := m.type = .request || (m.type = .solicit && m.rapidCommit) }

end

def wanted (m : Message) : Bool :=
  (m.clid.isSome || m.type = .ireq) &&
    (m.type = .solicit || m.type = .confirm || m.type = .ireq || m.type = .rebind ||
      m.serverId == some d.duid)

def dhcp6NoRelay (m : Message) (a : Arrival) : Option Reply × Daemon :=
  let s := d.session m a
  let reply (type : ℕ) (r : List ReplyOption × Daemon) : Option Reply × Daemon :=
    (some { type, options := r.1 }, r.2)
  if a.context.isEmpty || !d.wanted m then (none, d)
  -- The type of the request stays in place here and where a confirmation fails.
  else if a.unicast && (m.type = .request || m.type = .renew || m.type = .release ||
    m.type = .decline) then
    reply m.type.code ([.status dhcp6usemulti "Use multicast"], d)
  else match m.type with
    | .solicit =>
      let (options, d) := d.solicitReply s m.ias
      (options.map fun options => if m.rapidCommit then
        { type := dhcp6reply, options := .rapidCommit :: options }
        else { type := dhcp6advertise, options }, d)
    | .request =>
      let (options, d) := d.requestReply s m.ias
      (options.map fun options => { type := dhcp6reply, options }, d)
    | .renew => reply dhcp6reply (d.renewReply s false m.ias)
    | .rebind => reply dhcp6reply (d.renewReply s true m.ias)
    | .confirm => match d.confirmReply s m.ias with
        | none => (none, d)
        | some false => reply m.type.code ([.status dhcp6notonlink "confirm failed"], d)
        | some true => reply dhcp6reply ([.status dhcp6success "all addresses still on link"], d)
    | .ireq => if s.ignore then (none, d) else reply dhcp6reply ([], d)
    | .release => reply dhcp6reply (d.releaseReply s m.ias)
    | .decline => reply dhcp6reply (d.declineReply s m.ias)
    | .other _ => (none, d)

end Daemon

end Dnsmasq.Dhcp6
