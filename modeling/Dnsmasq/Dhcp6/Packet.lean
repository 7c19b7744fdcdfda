import Dnsmasq.Dhcp6.Tags
import Dnsmasq.Lib.Peek

/-!
How `rfc3315.c` reads the options of a packet. A pointer is a position in the receive buffer, and
what a loop reads is read whether or not it lies inside the packet.
-/
namespace Dnsmasq.Dhcp6

open Lib Dhcp
open Lib.Peek (octet octets forEach forUntil)

def option6ClientId : ℕ := 1
def option6ServerId : ℕ := 2
def option6IaNa : ℕ := 3
def option6IaTa : ℕ := 4
def option6Iaaddr : ℕ := 5
def option6Oro : ℕ := 6
def option6RelayMsg : ℕ := 9
def option6RapidCommit : ℕ := 14
def option6UserClass : ℕ := 15
def option6VendorClass : ℕ := 16
def option6VendorOpts : ℕ := 17
def option6RemoteId : ℕ := 37
def option6SubscriberId : ℕ := 38
def option6Fqdn : ℕ := 39
def option6ClientMac : ℕ := 79

/-- A number of `size` octets, the most significant first. -/
def opt6Uint (p size : ℕ) : Peek ℕ := do
  let cs ← octets p size
  pure (cs.foldl (fun n c => n * 256 + c.toNat) 0)

def opt6Type (opt : ℕ) : Peek ℕ := opt6Uint opt 2

def opt6Len (opt : ℕ) : Peek ℕ := opt6Uint (opt + 2) 2

def opt6Data (opt : ℕ) : Peek Bytes := do
  let len ← opt6Len opt
  octets (opt + 4) len

/-- The loop of `opt6_find`. Every round goes on by four octets at least. -/
def opt6FindFrom (search minsize stop : ℕ) : ℕ → ℕ → Peek (Option ℕ)
  | 0, _ => pure none
  | rounds + 1, opts =>
    if stop < opts + 4 then pure none
    else do
      let opt ← opt6Type opts
      let len ← opt6Len opts
      if stop < opts + 4 + len then pure none
      else if opt = search ∧ minsize ≤ len then pure (some opts)
      else opt6FindFrom search minsize stop rounds (opts + 4 + len)

variable (opts stop search minsize : ℕ)

def opt6Find : Peek (Option ℕ) :=
  opt6FindFrom search minsize stop (stop - opts) opts

def opt6Next (opts stop : ℕ) : Peek (Option ℕ) :=
  if stop < opts + 4 then pure none
  else do
    let len ← opt6Len opts
    pure (if stop ≤ opts + 4 + len then none else some (opts + 4 + len))

/-- The positions of a loop over all options: the first is not tested, and of the others only
the first octet is known to be there. -/
def opt6Walk (stop : ℕ) : ℕ → ℕ → Peek (List ℕ)
  | 0, _ => pure []
  | rounds + 1, opt => do
      match ← opt6Next opt stop with
      | none => pure [opt]
      | some next => do
          let rest ← opt6Walk stop rounds next
          pure (opt :: rest)

def opt6FindNext (opt stop search minsize : ℕ) : Peek (Option ℕ) := do
  match ← opt6Next opt stop with
  | none => pure none
  | some next => opt6Find next stop search minsize

def opt6All (stop search minsize : ℕ) : ℕ → Option ℕ → Peek (List ℕ)
  | _, none => pure []
  | 0, some _ => pure []
  | rounds + 1, some opt => do
      let next ← opt6FindNext opt stop search minsize
      let rest ← opt6All stop search minsize rounds next
      pure (opt :: rest)

def opt6Every : Peek (List ℕ) := do
  let first ← opt6Find opts stop search minsize
  opt6All stop search minsize (stop - opts) first

def opt6Get : Peek (Option Bytes) := do
  match ← opt6Find opts stop search minsize with
  | none => pure none
  | some opt => do
      let data ← opt6Data opt
      pure (some data)

def in6Addr (p : ℕ) : Peek In6Addr := do
  let hi ← opt6Uint p 8
  let lo ← opt6Uint (p + 8) 8
  pure { hi := BitVec.ofNat 64 hi, lo := BitVec.ofNat 64 lo }

/-- The lifetimes are not looked at for every message. -/
def iaAddr (times : Bool) (opt : ℕ) : Peek IaAddr := do
  let addr ← in6Addr (opt + 4)
  if times then
    let preferred ← opt6Uint (opt + 20) 4
    let valid ← opt6Uint (opt + 24) 4
    pure { addr, preferred, valid }
  else pure { addr }

def iaHead : LeaseType → ℕ
  | .na => 12
  | .ta => 4

def iaType (type : ℕ) : Option LeaseType :=
  if type = option6IaNa then some .na else if type = option6IaTa then some .ta else none

/-- The octets are taken for a part of the message, whether they are read or not. -/
def takes (p len : ℕ) : Peek Unit := do
  let _ ← octets p len
  pure ()

/-- The option is taken for an IA if its type and its length fit. Where it ends is not tested. -/
def checkIa (times : Bool) (opt : ℕ) : Peek (Option Ia) := do
  let code ← opt6Type opt
  match iaType code with
  | none => pure none
  | some type => do
      let len ← opt6Len opt
      if len < iaHead type then pure none
      else
        takes (opt + 4) len
        let stop := opt + 4 + len
        let iaid ← opt6Uint (opt + 4) 4
        let iaaddrs ← opt6Every (opt + 4 + iaHead type) stop option6Iaaddr 24
        let addrs ← forEach (iaAddr times) iaaddrs
        pure (some { type, iaid, addrs })

/-- The message types with a loop over IAs, and whether the lifetimes are looked at. -/
def MsgType.iaTimes : MsgType → Option Bool
  | .solicit | .request | .renew | .rebind => some true
  | .confirm | .release | .decline => some false
  | .ireq | .other _ => none

/-- The loop over IAs ends with the first one that `last` holds for. -/
def readIas (type : MsgType) (last : Ia → Bool) (opts stop : ℕ) : Peek (List Ia) :=
  match type.iaTimes with
  | none => pure []
  | some times => do
      let walk ← opt6Walk stop (stop - opts + 1) opts
      let ias ← forUntil (checkIa times) (·.any last) walk
      pure (ias.filterMap id)

/-- The positions of the counted strings of a class option that ends at `stop`. The step from
one to the next is that of `opt6_next`, two octets earlier. -/
def userVendorWalk (stop : ℕ) : ℕ → ℕ → Peek (List ℕ)
  | 0, _ => pure []
  | rounds + 1, enc => do
      match ← opt6Next (enc - 2) stop with
      | none => pure [enc]
      | some next => do
          let rest ← userVendorWalk stop rounds next
          pure (enc :: rest)

/-- A string shorter than the data of all lines is not compared with any. -/
def countedString (lines : List Vendor) (enc : ℕ) : Peek Bytes := do
  let len ← opt6Uint enc 2
  if lines.any fun v => v.data.length ≤ len then octets (enc + 2) len else pure []

def userVendorStrings (lines : List Vendor) (stop enc : ℕ) : Peek (List Bytes) := do
  let walk ← userVendorWalk stop (stop - enc + 1) enc
  forEach (countedString lines) walk

def vendorLines (vendors : List Vendor) (enterprise : ℕ) : List Vendor :=
  vendors.filter fun v => v.matchType = .vendor && v.enterprise == enterprise

def userLines (vendors : List Vendor) : List Vendor := vendors.filter fun v => v.matchType = .user

/-- The strings are looked at if there is a line for the enterprise. -/
def readVendorClass (vendors : List Vendor) (opts stop : ℕ) : Peek (Option (ℕ × List Bytes)) := do
  match ← opt6Find opts stop option6VendorClass 2 with
  | none => pure none
  | some opt => do
      let len ← opt6Len opt
      if len < 4 then pure none
      else
        let enterprise ← opt6Uint (opt + 4) 4
        if (vendorLines vendors enterprise).isEmpty then pure none
        else
          let strings ← userVendorStrings (vendorLines vendors enterprise) (opt + 4 + len) (opt + 8)
          pure (some (enterprise, strings))

def readUserClass (vendors : List Vendor) (opts stop : ℕ) : Peek (Option (List Bytes)) := do
  if (userLines vendors).isEmpty then pure none
  else
    match ← opt6Find opts stop option6UserClass 2 with
    | none => pure none
    | some opt => do
        let len ← opt6Len opt
        let strings ← userVendorStrings (userLines vendors) (opt + 4 + len) (opt + 4)
        pure (some strings)

/-- A `dhcp-match` line: the option, and the octets it has to have. With a mask they stand at
its beginning, otherwise at a multiple of their length, or anywhere if they are a string. -/
structure Match6 extends MatchLine where
  opt : ℕ
  val : Bytes := []
  mask : Option (BitVec 32) := none
  isString : Bool := false

def Match6.matchBytes (o : Match6) (p : Bytes) : Bool :=
  let len := o.val.length
  if p.length < len then false
  else if len = 0 then true
  else match o.mask with
    | some mask => memcmpMasked o.val (p.take len) mask != 0
    | none => (List.range (p.length - len + 1)).any fun i =>
      (o.isString || i % len == 0) && (p.drop i).take len == o.val

/-- The suboptions of one vendor option. The last one of them that is looked at decides. -/
def Match6.matchVendor (o : Match6) (isMatch : Bool) (vopts : List Bytes) : Bool :=
  if vopts.isEmpty then isMatch else vopts.any o.matchBytes

def readVendorOpts (o : Match6) (opt : ℕ) : Peek (List Bytes) := do
  let len ← opt6Len opt
  let vopts ← opt6Every (opt + 8) (opt + 4 + len) o.opt 0
  forEach opt6Data vopts

def readMatch (opts stop : ℕ) (o : Match6) : Peek Bool :=
  if o.rfc3925 then do
    let found ← opt6Every opts stop option6VendorOpts 4
    let vopts ← forEach (readVendorOpts o) found
    pure (vopts.foldl o.matchVendor false)
  else do
    let data ← opt6Get opts stop o.opt 1
    pure (data.any o.matchBytes)

/-- The labels of a name of `len` octets. The octet after it is looked at too, but whatever it
is, the loop ends there. -/
def fqdnLabels (p len : ℕ) : ℕ → ℕ → Peek CString
  | 0, _ => pure []
  | rounds + 1, off =>
    if len ≤ off then pure []
    else do
      let n ← octet (p + off)
      if n = 0 ∨ len ≤ off + n.toNat then pure []
      else do
        let label ← octets (p + off + 1) n.toNat
        let rest ← fqdnLabels p len rounds (off + n.toNat + 1)
        pure (label ++ dot :: rest)

/-- The flags of the option and the name as a C string. -/
def readFqdn (opts stop : ℕ) : Peek (Option (UInt8 × Option CString)) := do
  match ← opt6Find opts stop option6Fqdn 1 with
  | none => pure none
  | some opt => do
      let size ← opt6Len opt
      let flags ← octet (opt + 4)
      let len := size - 1
      if len ≠ 0 ∧ len < 255 then
        let labels ← fqdnLabels (opt + 5) len len 0
        pure (some (flags, some (labels.dropLast.takeWhile (· != 0))))
      else pure (some (flags, none))

def readOro (opts stop : ℕ) : Peek (Option (List ℕ)) := do
  match ← opt6Find opts stop option6Oro 0 with
  | none => pure none
  | some opt => do
      let len ← opt6Len opt
      let codes ← forEach (fun i => opt6Uint (opt + 4 + 2 * i) 2) (List.range (len / 2))
      pure (some codes)

/-!
`dhcp6_reply` from the received octets to the reply. Tag lists are plain lists.
-/

structure SharedNetwork where
  ifIndex : ℕ := 0
  matchAddr : In6Addr
  sharedAddr : In6Addr

/-- The configuration that is only read, and what is known about the arrival of the packet. -/
structure Server where
  lines : TagLines := {}
  dhcpMatch6 : List Match6 := []
  sharedNetworks : List SharedNetwork := []
  optFqdnUpdate : Bool := false
  ifaceName : Tag := []
  arrival : Arrival

def Server.tagLines (srv : Server) : TagLines :=
  { srv.lines with dhcpMatch6 := srv.dhcpMatch6.map Match6.toMatchLine }

/-- What `add_options` makes options of. -/
structure OptionInput where
  oro : Option (List ℕ)
  fqdnFlags : UInt8
  clientHostname : Option CString
  tags : List Tag
  deriving DecidableEq, Repr

structure Answer where
  xid : Bytes
  clid : Option Bytes
  serverId : Bytes
  reply : Reply
  options : Option OptionInput
  deriving DecidableEq, Repr

inductive Part
  | relayHeader (header : Bytes)
  | option (type : ℕ) (data : Bytes)
  | openOption (type : ℕ)
  | closeOption
  | answer (a : Answer)
  deriving DecidableEq, Repr

/-- The state while a packet is answered: the tags so far, the lines of `dhcp-vendorclass`
and the like that have set theirs, and the hardware address from a relay with its type. -/
structure Pass where
  daemon : Daemon
  tags : List Tag := []
  pushed : List ℕ := []
  mac : Bytes × ℕ := ([], 0)

def MsgType.ofCode (code : UInt8) : MsgType :=
  match code.toNat with
  | 1 => .solicit
  | 3 => .request
  | 4 => .confirm
  | 5 => .renew
  | 6 => .rebind
  | 8 => .release
  | 9 => .decline
  | 11 => .ireq
  | n => .other n

def dhcp6relayforw : UInt8 := 12
def dhcp6relayrepl : UInt8 := 13

def isAlnum (c : UInt8) : Bool := (65 ≤ c && c ≤ 90) || (97 ≤ c && c ≤ 122) || (48 ≤ c && c ≤ 57)

/-- Letters, digits and, but not first, `-` and `_`, up to the first dot. -/
def legalHostname (name : CString) : Option CString :=
  (checkName name).filter fun s =>
    let host := s.takeWhile (· ≠ dot)
    host.zipIdx.all fun x => isAlnum x.1 || (x.2 ≠ 0 && (x.1 == 45 || x.1 == 95))

def stripHostname (name : CString) : CString := name.takeWhile (· ≠ dot)

/-- The client has no way to update its name, so that it is always done here. -/
def fqdnFlags (optFqdnUpdate : Bool) (flags : UInt8) : UInt8 :=
  (if !optFqdnUpdate && flags &&& 1 = 0 then flags ||| 3 else flags) &&& 251

def Message.head (type : MsgType) (clid serverId : Option Bytes) : Message :=
  { type, serverId
    clid := clid.filter (· ≠ [])
    clidNonempty := by simp [Option.filter_eq_some_iff] }

/-- Whether the request is looked at beyond the identities in it. -/
def Daemon.looksAt (d : Daemon) (m : Message) (a : Arrival) : Bool :=
  d.wanted m && !(a.unicast && (m.type = .request || m.type = .renew || m.type = .release ||
    m.type = .decline))

/-- What the tag lines and the message type need of the rest of the message. -/
def Server.readClient (srv : Server) (m : Message) (a : Arrival) (opts stop : ℕ) :
    Peek (Client × Option (UInt8 × Option CString)) := do
  let vendorClass ← readVendorClass srv.lines.dhcpVendors opts stop
  let userClass ← readUserClass srv.lines.dhcpVendors opts stop
  let matched ← forEach (readMatch opts stop) srv.dhcpMatch6
  let fqdn ← readFqdn opts stop
  let rapid ← opt6Find opts stop option6RapidCommit 0
  let clientHostname := (fqdn.bind Prod.snd).bind legalHostname
  pure ({ message := { m with rapidCommit := rapid.isSome
                              hostname := (clientHostname.map stripHostname).filter (· ≠ []) }
          arrival := a
          ifaceName := srv.ifaceName
          vendorClass, userClass, clientHostname
          isMatch := fun i => matched.getD i false }, fqdn)

/-- The message without its IAs, and with the tags of the client. -/
def Server.tagged (srv : Server) (p : Pass) (c : Client) : Message :=
  let m := srv.tagLines.decoded c
  { m with tags := m.tags ++ p.tags }

/-- An ignored client does not get as far as the loop over its IAs if it asks for addresses. -/
def Daemon.ignores (d : Daemon) (m : Message) (a : Arrival) : Bool :=
  (d.session m a).ignore && (m.type = .solicit || m.type = .request)

/-- The first address that is not on the net is the end of a confirmation. -/
def Daemon.confirmFails (d : Daemon) (m : Message) (a : Arrival) (ia : Ia) : Bool :=
  m.type = .confirm && ia.addrs.any fun x =>
    (d.address6Valid a.context x.addr (d.session m a).tagif true).isNone

def Daemon.clientIas (d : Daemon) (m : Message) (a : Arrival) (opts stop : ℕ) : Peek (List Ia) :=
  if d.ignores m a then pure [] else readIas m.type (d.confirmFails m a) opts stop

/-- The answers that `add_options` is called for. -/
def addsOptions (m : Message) (r : Reply) : Bool :=
  let assigned := r.options.any fun o => match o with
    | .preference _ => true
    | _ => false
  match m.type with
  | .solicit => assigned
  | .request => !(m.ias.any (·.addrs.isEmpty)) || assigned
  | .renew | .rebind | .ireq => true
  | .confirm | .release | .decline | .other _ => false

/-- `dhcp6_no_relay` on a message of `size` octets. -/
def Server.noRelay (srv : Server) (a : Arrival) (pos size : ℕ) (p : Pass) :
    Peek (Bool × List Part × Pass) := do
  let header ← octets pos 4
  let opts := pos + 4
  let stop := pos + size
  let clid ← opt6Get opts stop option6ClientId 1
  let serverId ← opt6Get opts stop option6ServerId 1
  let m := Message.head (MsgType.ofCode (header.headD 0)) clid serverId
  let answer (reply : Reply) (options : Option OptionInput) : Part :=
    .answer { xid := header.drop 1, clid := m.clid, serverId := p.daemon.duid, reply, options }
  if p.daemon.looksAt m a then
    let (c, fqdn) ← srv.readClient m a opts stop
    let ias ← p.daemon.clientIas (srv.tagged p c) a opts stop
    let oro ← readOro opts stop
    let m := { srv.tagged p c with ias }
    let tags := p.daemon.knownTags m a
    let options : OptionInput :=
      { oro, fqdnFlags := ((fqdn.map Prod.fst).map (fqdnFlags srv.optFqdnUpdate)).getD 1
        clientHostname := c.clientHostname, tags }
    let pushed := (srv.tagLines.classNodes c).filterMap fun x => match x.1 with
      | .vendor i => some i
      | _ => none
    let (reply, d) := p.daemon.dhcp6NoRelay m a
    let p := { p with daemon := d, tags, pushed := pushed ++ p.pushed }
    match reply with
    | none => pure (false, [], p)
    | some r => pure (true, [answer r (if addsOptions m r then some options else none)], p)
  else
    let (reply, d) := p.daemon.dhcp6NoRelay m a
    let p := { p with daemon := d, tags := tagDhcpv6 :: srv.ifaceName :: p.tags }
    match reply with
    | none => pure (false, [], p)
    | some r => pure (true, [answer r none], p)

def In6Addr.isLoopback (a : In6Addr) : Bool := a.hi == 0 && a.lo == 1

def In6Addr.isLinklocal (a : In6Addr) : Bool := a.hi >>> 54 == 0x3fa

def In6Addr.isMulticast (a : In6Addr) : Bool := a.hi >>> 56 == 0xff

def Server.relayContext (srv : Server) (d : Daemon) (link : In6Addr) : List ℕ :=
  if link.isLoopback || link.isLinklocal || link.isMulticast then []
  else ((List.range d.dhcp6.length).filter fun i => d.dhcp6[i]?.any fun c =>
    srv.sharedNetworks.any (fun share => share.ifIndex == 0 && link == share.matchAddr &&
      isSameNet6 share.sharedAddr c.start c.prefixLen &&
      isSameNet6 share.sharedAddr c.stop c.prefixLen) ||
    (isSameNet6 link c.start c.prefixLen && isSameNet6 link c.stop c.prefixLen)).reverse

/-- The arrival of a message that came through relays, if it has a link address. -/
def Server.relayed (srv : Server) (link : Option In6Addr) (p : Pass) : Arrival × Pass :=
  match link with
  | none => (srv.arrival, p)
  | some link =>
    let context := srv.relayContext p.daemon link
    ({ srv.arrival with context, mac := p.mac.1, macType := p.mac.2, unicast := false },
      { p with daemon := p.daemon.modifyContexts context fun c =>
                 { c with preferred := 0xffffffff } })

/-- A line for relays sets its tag only if it has been set before. -/
def Server.relayTags (srv : Server) (header : RelayHeader) (p : Pass) : Pass :=
  match srv.lines.dhcpVendors.zipIdx.find? fun x => matchesRelay x.1 header &&
    p.pushed.contains x.2 with
  | some x => { p with tags := x.1.netid :: p.tags }
  | none => p

def dhcpChaddrMax : ℕ := 16

/-- The hardware address in the first such option. There is no result if it is too long. -/
def relayMac (mac : Bytes × ℕ) (data : Option Bytes) : Option (Bytes × ℕ) :=
  match data with
  | none => some mac
  | some data => if dhcpChaddrMax < data.length - 2 then none
      else some (data.drop 2, (data.take 2).foldl (fun n c => n * 256 + c.toNat) 0)

/-- The options of a relay message that ends at `stop`. `answer` answers a message inside. -/
def relayOptions (answer : ℕ → ℕ → Pass → Peek (Bool × List Part × Pass)) (stop : ℕ) :
    List ℕ → Pass → Peek (Bool × List Part × Pass)
  | [], p => pure (true, [], p)
  | opt :: opts, p =>
    -- Whatever its length is, an option with less than four octets does not fit.
    if stop < opt + 4 then pure (false, [], p)
    else do
      let type ← opt6Type opt
      let len ← opt6Len opt
      if stop < opt + 4 + len then pure (false, [], p)
      else if type = option6ClientMac then relayOptions answer stop opts p
      else if type = option6RelayMsg then do
        let (ok, parts, p) ← answer (opt + 4) len p
        if ok then
          let (ok, rest, p) ← relayOptions answer stop opts p
          pure (ok, .openOption type :: parts ++ .closeOption :: rest, p)
        else pure (false, [], p)
      else do
        let data ← octets (opt + 4) len
        let (ok, rest, p) ← relayOptions answer stop opts p
        pure (ok, .option type data :: rest, p)

/-- The options that belong to the relay itself. -/
def readRelay (opts stop : ℕ) : Peek (RelayHeader × Option Bytes) := do
  let subscriberId ← opt6Get opts stop option6SubscriberId 1
  let remoteId ← opt6Get opts stop option6RemoteId 1
  let clientMac ← opt6Get opts stop option6ClientMac 3
  pure ({ subscriberId, remoteId }, clientMac)

/-- `depth` bounds how deep relay messages are nested. -/
def Server.dhcp6MaybeRelay (srv : Server) : ℕ → Option In6Addr → ℕ → ℕ → Pass →
    Peek (Bool × List Part × Pass)
  | 0, _, _, _, p => pure (false, [], p)
  | depth + 1, link, pos, size, p => do
      let type ← octet pos
      if type ≠ dhcp6relayforw then
        let (a, p) := srv.relayed link p
        if a.context.isEmpty then pure (false, [], p) else srv.noRelay a pos size p
      else if size < 38 then pure (false, [], p)
      else do
        let opts := pos + 34
        let stop := pos + size
        let header ← octets pos 34
        let r ← readRelay opts stop
        let p := srv.relayTags r.1 p
        match relayMac p.mac r.2 with
        | none => pure (false, [], p)
        | some mac => do
            let link ← in6Addr (pos + 2)
            let walk ← opt6Walk stop size opts
            let (ok, parts, p) ← relayOptions (srv.dhcp6MaybeRelay depth (some link))
              stop walk { p with mac }
            pure (ok, .relayHeader (dhcp6relayrepl :: header.drop 1) :: parts, p)

def Server.dhcp6Reply (srv : Server) (d : Daemon) (sz : ℕ) : Peek (Option (List Part) × Daemon) :=
  if sz ≤ 4 then pure (none, d)
  else do
    let (ok, parts, p) ← srv.dhcp6MaybeRelay sz none 0 sz { daemon := d }
    pure (if ok then some parts else none, p.daemon)

end Dnsmasq.Dhcp6
