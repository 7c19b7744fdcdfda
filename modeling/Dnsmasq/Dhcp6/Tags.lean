import Dnsmasq.Dhcp.Tags
import Dnsmasq.Dhcp6.Reply

/-!
The tag list of a DHCPv6 packet: every place that pushes a node on it or searches it, in the order
of the source. There is no result if a circular list is walked.
-/
namespace Dnsmasq.Dhcp6

open Lib Dhcp

structure MatchLine where
  rfc3925 : Bool := false
  netid : Tag

/-- The lines of the configuration that set a tag if something in the packet matches. -/
structure TagLines where
  dhcpVendors : List Vendor := []
  dhcpMatch6 : List MatchLine := []
  dhcpMacs : List Mac := []
  dhcpNameMatch : List NameMatch := []

/-- A message of a client with what the tag lines are compared with: the enterprise number and
the counted strings of the first vendor class, those of the first user class, and which
`dhcp-match` lines match. What it does with the tags later, the ranges it uses, the tags that
are looked for and whether options are sent, is given too. -/
structure Client where
  message : Message
  arrival : Arrival
  ifaceName : Tag
  vendorClass : Option (ℕ × List Bytes) := none
  userClass : Option (List Bytes) := none
  isMatch : ℕ → Bool := fun _ => false
  clientHostname : Option CString := none
  uses : List ℕ := []
  checks : List (List Tag) := []
  addsOptions : Bool := true

/-- The options that the relay's own lines are compared with. -/
structure RelayHeader where
  subscriberId : Option Bytes := none
  remoteId : Option Bytes := none

/-- `broken` is a message that is too short or an option that does not fit. -/
inductive Packet
  | client (c : Client)
  | relay (header : RelayHeader) (msgs : List Packet)
  | broken

def tagDhcpv6 : Tag := [100, 104, 99, 112, 118, 54]

/-- The strings of the class option that the line is compared with. -/
def Client.classStrings (c : Client) (v : Vendor) : List Bytes :=
  match v.matchType with
  | .vendor => match c.vendorClass with
    | some (enterprise, strings) => if v.enterprise = enterprise then strings else []
    | none => []
  | .user => c.userClass.getD []
  | .circuit | .remote | .subscriber => []

def macMatches (m : Mac) (a : Arrival) : Bool :=
  !a.mac.isEmpty && m.hwaddr.length == a.mac.length &&
    (m.hwaddrType == a.macType || m.hwaddrType == 0) && memcmpMasked m.hwaddr a.mac m.mask != 0

def matchesRelay (v : Vendor) (header : RelayHeader) : Bool :=
  match v.matchType with
  | .subscriber => header.subscriberId == some v.data
  | .remote => header.remoteId == some v.data
  | .vendor | .user | .circuit => false

namespace TagLines

def localNodes (c : Client) : List (TagNode × Tag) := [(.iface, c.ifaceName), (.dhcpv6, tagDhcpv6)]

variable (lines : TagLines)

/-- The inner loop ends with the first match in one string, the outer one goes on to the next. -/
def classNodes (c : Client) : List (TagNode × Tag) :=
  lines.dhcpVendors.zipIdx.flatMap fun x =>
    ((c.classStrings x.1).filter (hasData x.1.data)).map fun _ => (.vendor x.2, x.1.netid)

def matchNodes (c : Client) : List (TagNode × Tag) :=
  ((lines.dhcpMatch6.zipIdx.takeWhile fun x => !(x.1.rfc3925 && c.isMatch x.2)).filter fun x =>
    c.isMatch x.2).map fun x => (.dhcpMatch x.2, x.1.netid)

/-- The nodes pushed before the server looks for a `dhcp-host` line, after the local ones. -/
def clientNodes (c : Client) : List (TagNode × Tag) :=
  lines.classNodes c ++ lines.matchNodes c ++
    matching .mac Mac.netid lines.dhcpMacs (fun m _ => macMatches m c.arrival) ++
    matching .nameMatch NameMatch.netid lines.dhcpNameMatch fun m _ =>
    c.clientHostname.any m.isMatch

def decoded (c : Client) : Message :=
  { c.message with tags := ((lines.clientNodes c).map Prod.snd).reverse ++
                     ((localNodes c).map Prod.snd).reverse }

/-- The lines of relays set their tag only if it has been pushed before. -/
def relayTags (header : RelayHeader) (s : TagStack) : TagStack :=
  match lines.dhcpVendors.zipIdx.find? fun x =>
      matchesRelay x.1 header && s.next (.vendor x.2) != some (.vendor x.2) with
  | some x => s.push (.vendor x.2) x.1.netid
  | none => s

end TagLines

/-- The link of a node that has not been used for this message leads to itself. -/
def markContext (s : TagStack) (i : ℕ) : TagStack :=
  { s with next := Function.update s.next (.context i) (some (.context i)) }

/-- A message from a unicast address that has to be sent to the multicast address. -/
def Client.usesUnicast (c : Client) : Bool :=
  c.arrival.unicast && (c.message.type = .request || c.message.type = .renew ||
    c.message.type = .release || c.message.type = .decline)

namespace Daemon

section

variable (d : Daemon)

/-- The tags that `find_config` may look for. -/
def filters : List (List Tag) := d.dhcpConf.map (·.filter)

def identifyClient (m : Message) (a : Arrival) (s : TagStack) : Option (Option ℕ × TagStack) :=
  match m.clid with
  | none => some (none, s)
  | some clid => (s.runTagIf d.tagIf d.filters).map fun r =>
    (d.findConfig a.context (some clid) (some a.mac) a.macType none r.1, r.2)

/-- The search for the client's `dhcp-host` line, and that for its name. -/
def identifyTags (m : Message) (a : Arrival) (s : TagStack) : Option (Option ℕ × TagStack) :=
  (d.identifyClient m a s).bind fun (config, s) =>
    match config, m.hostname with
    | none, some name => (s.runTagIf d.tagIf d.filters).map fun r =>
      ((d.findConfig a.context none none 0 (some name) r.1).filter fun i =>
        (d.dhcpConf[i]?).any fun c => c.clid.isNone && c.hwaddr.isEmpty, r.2)
    | config, _ => some (config, s)

def configNodes (config : Option ℕ) : List (TagNode × Tag) :=
  match config, d.config config with
  | some i, some c => c.netid.zipIdx.map fun t => (.config i t.2, t.1)
  | _, _ => []

def pushKnown (m : Message) (a : Arrival) (config : Option ℕ) (s : TagStack) : Option TagStack :=
  match d.config config with
  | some _ => some ((s.pushAll (d.configNodes config)).push .known tagKnown)
  | none =>
    match m.clid with
    | none => some s
    | some clid => (s.runTagIf d.tagIf d.filters).map fun (tags, s) =>
      if (d.findConfig [] (some clid) (some a.mac) a.macType none tags).isSome then
        s.push .known tagKnownOthernet
      else s

/-- `context_tags` is the pointer to a list of its own. -/
def getContextTag (s : TagStack × Option TagNode) (i : ℕ) : Option (TagStack × Option TagNode) :=
  match d.dhcp6[i]?.bind (·.netid) with
  | none => some s
  | some tag =>
    if s.1.next (.context i) = some (.context i) then
      let t := (s.1.rebase s.2).push (.context i) tag
      -- The tags of the ranges are compared with `dhcp-ignore-names`.
      t.labels.map fun _ => (t.rebase s.1.head, t.head)
    else some s

/-- Without addresses the tag of a range counts if there is only one. -/
def onlyContextTag (context : List ℕ) (s : TagStack) : TagStack × Option TagNode :=
  match context with
  | [i] => match d.dhcp6[i]?.bind (·.netid) with
    | some tag => (((s.rebase none).push (.context i) tag).rebase s.head, some (.context i))
    | none => (s, none)
  | _ => (s, none)

/-- The tags without and with those of the ranges, whose list is linked to that of the client. -/
def optionFilter (checks : List (List Tag)) (s : TagStack × Option TagNode) : Option TagStack :=
  (s.1.runTagIf d.tagIf checks).bind fun (_, t) => match s.2 with
    | none => some t
    | some _ => (t.rebase s.2).nodes.bind fun contexts => contexts.getLast?.bind fun last =>
      let linked : TagStack := { t with next := Function.update t.next last t.head, head := s.2 }
      (linked.runTagIf d.tagIf checks).map fun r => r.2.rebase s.1.head

def useTags (c : Client) (s : TagStack) : Option TagStack :=
  let contexts := if c.message.type = .ireq then some (d.onlyContextTag c.arrival.context s)
    else c.uses.foldlM d.getContextTag (s, none)
  contexts.bind fun s => if c.addsOptions then d.optionFilter c.checks s else some s.1

def noRelayTags (lines : TagLines) (c : Client) (s : TagStack) : Option TagStack :=
  let s := c.arrival.context.foldl markContext (s.pushAll (TagLines.localNodes c))
  if !d.wanted c.message || c.usesUnicast then some s
  else
    let m := lines.decoded c
    (d.identifyTags m c.arrival (s.pushAll (lines.clientNodes c))).bind fun (config, s) =>
      (d.pushKnown m c.arrival config s).bind fun s =>
        (s.runTagIf d.tagIf (d.dhcpIgnore ++ c.checks)).bind fun (_, s) => d.useTags c s

/-- A client message: whether it is answered, and the state after it. -/
def clientTags (lines : TagLines) (c : Client) (s : TagStack) : Option (Bool × Daemon × TagStack) :=
  (d.noRelayTags lines c s).map fun s =>
    ((d.dhcp6NoRelay (lines.decoded c) c.arrival).1.isSome,
      (d.dhcp6NoRelay (lines.decoded c) c.arrival).2, s)

end

end Daemon

mutual

def Packet.dhcp6MaybeRelay (lines : TagLines) : Packet → Daemon → TagStack →
    Option (Bool × Daemon × TagStack)
  | .client c, d, s =>
    if c.arrival.context.isEmpty then some (false, d, s) else d.clientTags lines c s
  | .relay header msgs, d, s => Packet.relayMsgs lines msgs d (lines.relayTags header s)
  | .broken, d, s => some (false, d, s)

/-- The loop over the options of a relay message, which the first failure ends. -/
def Packet.relayMsgs (lines : TagLines) : List Packet → Daemon → TagStack →
    Option (Bool × Daemon × TagStack)
  | [], d, s => some (true, d, s)
  | p :: msgs, d, s => (p.dhcp6MaybeRelay lines d s).bind fun r =>
    if r.1 then Packet.relayMsgs lines msgs r.2.1 r.2.2 else some (false, r.2.1, r.2.2)

end

/-- All vendor lines are marked as unused. `stale` are the links that earlier packets left. -/
def tagStart (stale : TagNode → Option TagNode) : TagStack where
  next x := match x with
    | .vendor i => some (.vendor i)
    | x => stale x
  label _ := []
  head := none
  size := 0

def Daemon.dhcp6Reply (d : Daemon) (lines : TagLines) (p : Packet) (stale : TagNode →
    Option TagNode) : Option (Bool × Daemon × TagStack) :=
  p.dhcp6MaybeRelay lines d (tagStart stale)

/-- What the recursion meets on its way through a packet. -/
inductive Step
  | stop
  | relay (header : RelayHeader)
  | client (c : Client)

mutual

def Packet.steps : Packet → List Step
  | .client c => if c.arrival.context.isEmpty then [.stop] else [.client c]
  | .relay header msgs => .relay header :: Packet.allSteps msgs
  | .broken => [.stop]

def Packet.allSteps : List Packet → List Step
  | [] => []
  | p :: msgs => p.steps ++ Packet.allSteps msgs

end

def runSteps (lines : TagLines) : List Step → Daemon → TagStack → Option (Bool × Daemon × TagStack)
  | [], d, s => some (true, d, s)
  | .stop :: _, d, s => some (false, d, s)
  | .relay header :: steps, d, s => runSteps lines steps d (lines.relayTags header s)
  | .client c :: steps, d, s => (d.clientTags lines c s).bind fun r =>
    if r.1 then runSteps lines steps r.2.1 r.2.2 else some (false, r.2.1, r.2.2)

theorem runSteps_append (lines : TagLines) (xs ys : List Step) (d : Daemon) (s : TagStack) :
    runSteps lines (xs ++ ys) d s = (runSteps lines xs d s).bind fun r =>
      if r.1 then runSteps lines ys r.2.1 r.2.2 else some (false, r.2.1, r.2.2) := by
  induction xs generalizing d s with
  | nil => simp [runSteps]
  | cons x xs ih =>
    cases x with
    | stop => simp [runSteps]
    | relay header => exact ih d (lines.relayTags header s)
    | client c =>
      simp only [List.cons_append, runSteps, Option.bind_assoc]
      refine Option.bind_congr fun r _ => ?_
      split
      · exact ih r.2.1 r.2.2
      · simp

mutual

theorem Packet.dhcp6MaybeRelay_eq (lines : TagLines) (p : Packet) (d : Daemon) (s : TagStack) :
    p.dhcp6MaybeRelay lines d s = runSteps lines p.steps d s := by
  cases p with
  | client c =>
    simp only [Packet.dhcp6MaybeRelay, Packet.steps]
    split
    · rfl
    simp only [runSteps]
    cases d.clientTags lines c s with
    | none => rfl
    | some r =>
      obtain ⟨ok, d', s'⟩ := r
      cases ok <;> rfl
  | relay header msgs =>
    rw [Packet.dhcp6MaybeRelay, Packet.steps, runSteps]
    exact Packet.relayMsgs_eq lines msgs d (lines.relayTags header s)
  | broken => rfl

theorem Packet.relayMsgs_eq (lines : TagLines) (msgs : List Packet) (d : Daemon) (s : TagStack) :
    Packet.relayMsgs lines msgs d s = runSteps lines (Packet.allSteps msgs) d s := by
  cases msgs with
  | nil => rfl
  | cons p msgs =>
    rw [Packet.relayMsgs, Packet.allSteps, runSteps_append, Packet.dhcp6MaybeRelay_eq lines p d s]
    refine Option.bind_congr fun r _ => ?_
    split
    · exact Packet.relayMsgs_eq lines msgs r.2.1 r.2.2
    · rfl

end

end Dnsmasq.Dhcp6
