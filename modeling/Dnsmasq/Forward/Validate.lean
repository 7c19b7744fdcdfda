import Dnsmasq.Lib.PointerChain
import Dnsmasq.Dns.HashQuestions

/-!
The table of forwarded queries of `forward.c`, `free_frec`, `get_new_frec` and the three look-ups. A
pointer to a record is its address, a natural number; no record is returned to the allocator.
-/
namespace Dnsmasq.Forward

open Lib

abbrev FrecId := ℕ

abbrev ServerId := ℕ

structure Question where
  /-- Folded to lower case, as `hash_questions` does. -/
  name : CString
  type : ℕ
  cls : ℕ
  deriving DecidableEq, Repr, Inhabited

/-- What `hash_questions` hashes. Nothing marks where a name or a question ends, so that
different questions can have the same hash. -/
def hashQuestions (questions : List Question) : List UInt8 :=
  questions.flatMap fun q => q.name ++ Dns.typeBytes q.type q.cls

/-- What the packet buffer holds, as far as the forwarder looks at it. -/
structure Message where
  id : ℕ := 0
  questions : List Question := []
  /-- What the question section reads once everything behind it is cut off. It differs from
  `questions` only if a question name is compressed with a pointer into the part cut off. -/
  stub : List Question := []
  /-- Length up to the end of the question section. -/
  head : ℕ := 0
  /-- Length of the records behind it. -/
  body : ℕ := 0
  response : Bool := false
  tc : Bool := false
  cd : Bool := false
  rcode : ℕ := 0
  deriving DecidableEq, Repr, Inhabited

def Message.len (m : Message) : ℕ := m.head + m.body

def servfail : ℕ := 2

def refused : ℕ := 5

def packetsz : ℕ := 512

def timeout : ℤ := 10

def dnssecWork : ℤ := 50

/-- A chain of `struct blockdata`; chains are told apart by `key`. -/
structure Stash where
  key : ℕ
  msg : Message
  deriving DecidableEq, Repr

structure FrecSrc where
  source : ℕ := 0
  origId : ℕ := 0
  deriving DecidableEq, Repr, Inhabited

/-- The `FREC_` flags that some modelled function tests. -/
structure FrecFlags where
  checkingDisabled : Bool := false
  noCache : Bool := false
  dnskeyQuery : Bool := false
  dsQuery : Bool := false
  adQuestion : Bool := false
  doQuestion : Bool := false
  addedPheader : Bool := false
  hasExtradata : Bool := false
  hasPheader : Bool := false
  deriving DecidableEq, Repr, Inhabited

/-- The record a validation can be short of. -/
inductive Need
  | ds
  | dnskey
  deriving DecidableEq, Repr

def Need.type : Need → ℕ
  | .ds => 43
  | .dnskey => 48

def FrecFlags.wants (f : FrecFlags) : Need → Bool
  | .ds => f.dsQuery
  | .dnskey => f.dnskeyQuery

/-- `FREC_DNSKEY_QUERY | FREC_DS_QUERY`: made by dnsmasq itself for a validation. -/
def FrecFlags.subquery (f : FrecFlags) : Bool := f.dnskeyQuery || f.dsQuery

structure Frec where
  frecSrc : FrecSrc := {}
  /-- The list that starts at `frec_src.next`. -/
  moreSrcs : List FrecSrc := []
  /-- `none` means free. -/
  sentto : Option ServerId := none
  newId : ℕ := 0
  forwardall : ℕ := 0
  flags : FrecFlags := {}
  time : ℤ := 0
  /-- The octets that were hashed; digests of different octets are taken to differ. -/
  hash : List UInt8 := []
  cls : ℕ := 0
  workCounter : ℤ := 0
  stash : Option Stash := none
  stashLen : ℕ := 0
  dependent : Option FrecId := none
  nextDependent : Option FrecId := none
  blockingQuery : Option FrecId := none
  deriving DecidableEq, Repr, Inhabited

structure Sent where
  source : ℕ
  msg : Message
  len : ℕ
  deriving DecidableEq, Repr

structure Forwarder where
  frec : FrecId → Frec := fun _ => {}
  frecList : List FrecId := []
  /-- The address the next allocation returns. -/
  nextFrec : FrecId := 0
  nextStash : ℕ := 0
  /-- The one packet buffer, `daemon->packet`. -/
  packet : Message := {}
  /-- Everything `return_reply` has sent to clients. -/
  sent : List Sent := []

/-- The upstream servers. `server_samegroup` says when two stand for the same domain, and
`check_servers` sets `SERV_DO_DNSSEC` by the domain. -/
structure Servers where
  group : ServerId → ℕ
  doDnssec : ServerId → Bool
  doDnssec_group : ∀ a b, group a = group b → doDnssec a = doDnssec b
  ftabsize : ℕ
  /-- `OPT_DNSSEC_VALID`. -/
  dnssecValid : Bool
  /-- `OPT_ORDER`. -/
  strictOrder : Bool

def Servers.samegroup (cfg : Servers) (a b : ServerId) : Bool := cfg.group a = cfg.group b

namespace Forwarder

variable (s : Forwarder)

def modify (f : FrecId) (g : Frec → Frec) : Forwarder :=
  { s with frec := Function.update s.frec f (g (s.frec f)) }

/-- `blockdata_retrieve` into the packet buffer; without a stash nothing is copied. -/
def retrieve : Option Stash → Forwarder
  | none => s
  | some st => { s with packet := st.msg }

def nextDependent (f : FrecId) : Option FrecId := (s.frec f).nextDependent

def blockingQuery (f : FrecId) : Option FrecId := (s.frec f).blockingQuery

/-- Take `f` out of the list of the records waiting for `b`. -/
def unlinkDependent (b f : FrecId) : Forwarder :=
  match findUp s.nextDependent f s.frecList.length none (s.frec b).dependent with
  | none => s
  | some none => s.modify b fun r => { r with dependent := s.nextDependent f }
  | some (some a) => s.modify a fun r => { r with nextDependent := s.nextDependent f }

end Forwarder

/-- The first half of `free_frec`. -/
def Frec.release (r : Frec) : Frec :=
  { r with moreSrcs := [], sentto := none, flags := {}, stash := none }

def Frec.detach (r : Frec) : Frec :=
  { r with blockingQuery := none, dependent := none, nextDependent := none }

/-- `free_frec`, following blocking queries at most `depth` deep. -/
def freeFrecFrom : ℕ → Forwarder → FrecId → Forwarder
  | 0, s, _ => s
  | depth + 1, s, f =>
    let s := s.modify f Frec.release
    let s :=
      match s.blockingQuery f with
      | none => s
      | some b =>
        let s := s.unlinkDependent b f
        -- we were the last one waiting for `b`
        if (s.frec b).dependent = none then freeFrecFrom depth s b else s
    s.modify f Frec.detach

def freeFrec (s : Forwarder) (f : FrecId) : Forwarder := freeFrecFrom (s.frecList.length + 1) s f

/-- The variables of the loop over `daemon->frec_list`. -/
structure Scan where
  state : Forwarder
  oldest : Option FrecId := none
  target : Option FrecId := none
  count : ℕ := 0

/-- Whether `r` was sent no later than the oldest record seen so far. -/
def Scan.noYounger (acc : Scan) (r : Frec) : Bool :=
  match acc.oldest with
  | none => true
  | some o => r.time ≤ (acc.state.frec o).time

def Scan.collect (acc : Scan) (now : ℤ) (force : Bool) (f : FrecId) : Scan :=
  let r := acc.state.frec f
  if r.sentto = none then { acc with target := some f }
  else if r.dependent = none ∧ force = false then
    if 4 * timeout ≤ now - r.time then { acc with state := freeFrec acc.state f, target := some f }
    else if acc.noYounger r then { acc with oldest := some f }
    else acc
  else acc

def Scan.tally (cfg : Servers) (acc : Scan) (now : ℤ) (master : ServerId) (f : FrecId) : Scan :=
  let r := acc.state.frec f
  match r.sentto with
  | some server =>
    if now - r.time < timeout ∧ cfg.samegroup server master then
      { acc with count := acc.count + 1 }
    else acc
  | none => acc

def Scan.visit (cfg : Servers) (now : ℤ) (master : ServerId) (force : Bool) (acc : Scan)
    (f : FrecId) : Scan :=
  (acc.collect now force f).tally cfg now master f

/-- If nothing is free, the oldest record goes, provided it has timed out. -/
def Scan.evict (acc : Scan) (now : ℤ) : Scan :=
  match acc.target, acc.oldest with
  | none, some o =>
    if timeout ≤ now - (acc.state.frec o).time then
      { acc with state := freeFrec acc.state o, target := some o }
    else acc
  | _, _ => acc

/-- A record from the allocator goes to the front of the list. -/
def Forwarder.allocate (s : Forwarder) : Forwarder :=
  { s with frecList := s.nextFrec :: s.frecList, nextFrec := s.nextFrec + 1 }

/-- `memory` says whether the allocator has room for another record. -/
def getNewFrec (cfg : Servers) (s : Forwarder) (now : ℤ) (master : ServerId) (force memory : Bool) :
    Forwarder × Option FrecId :=
  let acc := s.frecList.foldl (Scan.visit cfg now master force) { state := s }
  if force = false ∧ cfg.ftabsize ≤ acc.count then (acc.state, none)
  else
    let acc := acc.evict now
    match acc.target with
    | some f => (acc.state.modify f fun r => { r with time := now }, some f)
    | none =>
      if memory then
        let f := acc.state.nextFrec
        (acc.state.allocate.modify f fun r => { r with time := now }, some f)
      else (acc.state, none)

/-- `onSocket` lists the records that own the socket the packet came in on. -/
def lookupFrec (s : Forwarder) (id : ℕ) (onSocket : List FrecId) (hash : List UInt8) :
    Option FrecId :=
  s.frecList.find? fun f =>
    let r := s.frec f
    r.sentto.isSome && decide (r.newId = id) && decide (r.hash = hash) && onSocket.contains f

/-- The flags a client's query has to share with a record to be a retry of it. -/
def FrecFlags.matches (f want : FrecFlags) : Bool :=
  f.checkingDisabled == want.checkingDisabled && f.adQuestion == want.adQuestion &&
    f.doQuestion == want.doQuestion && f.hasPheader == want.hasPheader && !f.dnskeyQuery &&
    !f.dsQuery && !f.noCache

def lookupFrecByQuery (s : Forwarder) (hash : List UInt8) (flags : FrecFlags) : Option FrecId :=
  s.frecList.find? fun f =>
    let r := s.frec f
    r.sentto.isSome && r.flags.matches flags && decide (r.hash = hash)

def Message.asks (m : Message) (target : CString) (cls : ℕ) : Bool :=
  match m.questions.head? with
  | some q => q.name = foldCase target && q.cls = cls
  | none => false

/-- Every candidate's stash is copied into the packet buffer to be looked at; the buffer is
returned as the loop leaves it. -/
def lookupFrecDnssec (s : Forwarder) (target : CString) (cls : ℕ) (need : Need) :
    List FrecId → Message → Option FrecId × Message
  | [], m => (none, m)
  | f :: rest, m =>
    let r := s.frec f
    if r.sentto.isSome && r.flags.wants need then
      let m := (r.stash.map Stash.msg).getD m
      if m.asks target cls then (some f, m) else lookupFrecDnssec s target cls need rest m
    else lookupFrecDnssec s target cls need rest m

/-!
The events of the UDP forwarder: a query, a reply and a server that is taken out of service. What
the rest of the program decides (validators, filters, allocators, sockets) comes in as data with
each event.
-/
inductive Status
  | ok
  | secure
  | insecure
  | bogus
  | truncated
  | abandoned
  | needDs
  | needKey
  deriving DecidableEq, Repr

def Status.need : Status → Option Need
  | .needDs => some .ds
  | .needKey => some .dnskey
  | _ => none

/-- What `process_reply` makes of a reply. -/
structure Rewriting where
  /-- The client subnet does not match. -/
  discarded : Bool := false
  /-- Length of the records `rrfilter` takes out. -/
  filtered : ℕ := 0
  /-- All record counts are set to zero. -/
  munged : Bool := false
  rcode : Option ℕ := none
  /-- Length of the OPT record put back, or of the option added to it. -/
  opt : ℕ := 0
  deriving DecidableEq, Repr

/-- What the functions called by one activation of `dnssec_validate` come up with. -/
structure Attempt where
  /-- Result of `dnssec_validate_by_ds`, `dnssec_validate_ds` or `dnssec_validate_reply`. -/
  verdict : Status := .secure
  /-- The name the validator leaves in `daemon->keyname`. -/
  keyname : CString := []
  /-- The class `dnssec_validate_reply` stores in the record. -/
  cls : ℕ := 1
  /-- `blockdata_alloc` finds room for the reply. -/
  stashed : Bool := true
  /-- The server `dnssec_server` picks; it is one that does DNSSEC. -/
  server : Option ServerId := none
  /-- Length of the query written by `dnssec_generate_query`. -/
  queryLen : ℕ := 0
  /-- `hash_questions` parses the generated query. -/
  hashed : Bool := true
  socket : Bool := true
  memory : Bool := true
  newId : ℕ := 0
  /-- `blockdata_alloc` finds room for the generated query. -/
  queryStashed : Bool := true
  rewriting : Rewriting := {}
  deriving DecidableEq, Repr

instance : Inhabited Attempt := ⟨{}⟩

/-- `resize_packet` once all record counts are zero. -/
def Message.resize (m : Message) : Message := { m with questions := m.stub, body := 0 }

/-- The records are filtered, and all are dropped if the reply is munged. -/
def Message.rewritten (m : Message) (w : Rewriting) : Message :=
  let m := { m with body := m.body - w.filtered, rcode := w.rcode.getD m.rcode }
  if w.munged then { m.resize with tc := false } else m

/-- `process_reply` on a packet of length `n`, with the length it returns. A message that does
not end within `n` is left alone by `resize_packet`. -/
def processReply (w : Rewriting) (m : Message) (n : ℕ) : Message × ℕ :=
  if w.discarded then (m, 0)
  else
    let n := n - min w.filtered m.body
    let m := m.rewritten w
    if n < m.len then (m, n) else ({ m with body := m.body + w.opt }, m.len + w.opt)

variable (cfg : Servers)

/-- The packet as it goes out, without the id: processed, and cut to 512 bytes' worth of
message if the client never sent an EDNS0 header. -/
def replyPacket (r : Frec) (m : Message) (n : ℕ) (status : Status) (a : Attempt) :
    Message × ℕ :=
  let m := { m with tc := m.tc || decide (status = .truncated), cd := r.flags.checkingDisabled }
  let (m, nn) := processReply a.rewriting m n
  if cfg.dnssecValid ∧ r.flags.addedPheader ∧ packetsz < nn then
    ({ m with tc := true }.resize, m.head)
  else (m, nn)

section

variable (s : Forwarder) (f : FrecId) (n : ℕ) (status : Status) (a : Attempt)

/-- The same packet goes to every client of the record, each time with that client's id. -/
def sendReply : Forwarder :=
  let r := s.frec f
  let (m, nn) := replyPacket cfg r s.packet n status a
  let replies := (r.frecSrc :: r.moreSrcs).map fun c =>
    Sent.mk c.source { m with id := c.origId } nn
  { s with packet := m, sent := if nn = 0 then s.sent else s.sent ++ replies }

def returnReply : Forwarder :=
  freeFrec (sendReply cfg s f n status a) f

end

/-- Truncated and refused replies are not looked into. -/
def headerStatus (m : Message) (status : Status) : Status :=
  if m.rcode = refused then .abandoned else if m.tc then .truncated else status

/-- A failure stops the validation: the keys it would ask for again are not cached. -/
def Status.final (status : Status) : Bool :=
  decide (status = .bogus ∨ status = .truncated ∨ status = .abandoned)

/-- The validator; on an original query it stores the class it found. -/
def validate (s : Forwarder) (f : FrecId) (status : Status) (a : Attempt) : Forwarder × Status :=
  let status := headerStatus s.packet status
  if status.final then (s, status)
  else if (s.frec f).flags.subquery then (s, a.verdict)
  else (s.modify f fun r => { r with cls := a.cls }, a.verdict)

/-- Whether `forward` is met when blocking queries are followed from `f`. -/
def onBlockingChain (s : Forwarder) (forward : FrecId) : ℕ → Option FrecId → Bool
  | _, none => false
  | 0, some _ => true
  | k + 1, some f => decide (f = forward) || onBlockingChain s forward k (s.blockingQuery f)

/-- `forward` joins the records that wait for the sub-query `new`. -/
def joinSubquery (s : Forwarder) (forward new : FrecId) (stash : Stash) (plen : ℕ) : Forwarder :=
  let s := s.modify forward fun r => { r with
    nextDependent := (s.frec new).dependent
    blockingQuery := some new
    stash := some stash
    stashLen := plen }
  s.modify new fun r => { r with dependent := some forward }

/-- The original query at the end of the first dependents. -/
def originOf (s : Forwarder) : ℕ → FrecId → FrecId
  | 0, f => f
  | k + 1, f =>
    match (s.frec f).dependent with
    | none => f
    | some d => originOf s k d

/-- `*new = *forward` and the assignments after it; the query in the buffer is stashed. -/
def Frec.subqueryOf (forward : Frec) (id : FrecId) (server : ServerId) (need : Need) (m : Message)
    (stash : Option Stash) : Frec :=
  { forward with
    blockingQuery := none
    sentto := some server
    moreSrcs := []
    flags := { forward.flags with
      dnskeyQuery := need = .dnskey, dsQuery := need = .ds, hasExtradata := false }
    forwardall := 0
    dependent := some id
    hash := hashQuestions m.questions
    newId := m.id
    stash := stash
    stashLen := m.len }

/-- Point the new record and `forward` at each other. -/
def linkSubquery (s : Forwarder) (forward new : FrecId) (stash : Stash) (plen : ℕ)
    (server : ServerId) (need : Need) (queryStashed : Bool) : Forwarder :=
  let queryStash := if queryStashed then some (Stash.mk s.nextStash s.packet) else none
  let record := (s.frec forward).subqueryOf forward server need s.packet queryStash
  let s := s.modify new fun _ => record
  let s := s.modify forward fun r => { r with
    nextDependent := none
    blockingQuery := some new
    stash := some stash
    stashLen := plen }
  { s with nextStash := s.nextStash + 1 }

/-- The query `dnssec_generate_query` writes into the buffer. -/
def generateQuery (a : Attempt) (cls : ℕ) (need : Need) : Message :=
  let q : List Question := [⟨foldCase a.keyname, need.type, cls⟩]
  { id := a.newId, questions := q, stub := q, head := a.queryLen }

/-- `dnssec_server` only returns servers that do DNSSEC. -/
def dnssecServer (a : Attempt) : Option ServerId :=
  a.server.filter fun server => cfg.doDnssec server

/-- Start a new sub-query; the flag says whether that worked. -/
def startSubquery (now : ℤ) (s : Forwarder) (forward : FrecId) (plen : ℕ)
    (stash : Stash) (need : Need) (a : Attempt) : Forwarder × Bool :=
  match dnssecServer cfg a with
  | none => (s, false)
  | some server =>
    let s := { s with packet := generateQuery a (s.frec forward).cls need }
    if a.queryLen = 0 ∨ a.hashed = false then (s, false)
    else
      let orig := originOf s s.frecList.length forward
      let s := s.modify orig fun r => { r with workCounter := r.workCounter - 1 }
      if (s.frec orig).workCounter = 0 ∨ a.socket = false then (s, false)
      else
        match getNewFrec cfg s now server true a.memory with
        | (s, none) => (s, false)
        | (s, some new) => (linkSubquery s forward new stash plen server need a.queryStashed, true)

inductive Outcome
  /-- The reply is put aside until a sub-query is answered. -/
  | waiting (s : Forwarder)
  | settled (s : Forwarder) (status : Status)

section

variable (now : ℤ) (s : Forwarder) (forward : FrecId) (plen : ℕ)

/-- Put the reply aside and find, or start, the sub-query it has to wait for. -/
def awaitKey (need : Need)
    (a : Attempt) : Outcome :=
  if a.stashed = false then .settled s .abandoned
  else
    let stash : Stash := ⟨s.nextStash, s.packet⟩
    let s := { s with nextStash := s.nextStash + 1 }
    let (found, m) := lookupFrecDnssec s a.keyname (s.frec forward).cls need s.frecList s.packet
    let s := { s with packet := m }
    match found with
    | some new =>
      if onBlockingChain s forward s.frecList.length (some new) then .settled s .abandoned
      else .waiting (joinSubquery s forward new stash plen)
    | none =>
      match startSubquery cfg now s forward plen stash need a with
      | (s, true) => .waiting s
      | (s, false) => .settled s .abandoned

/-- `dnssec_validate` up to the point where the answer is settled. -/
def examine (status : Status) (a : Attempt) : Outcome :=
  let (s, status) := validate s forward status a
  match status.need with
  | none => .settled s status
  | some need => awaitKey cfg now s forward plen need a

end

/-- What is threaded through the recursion: the state and the inputs still to come. -/
structure Walk where
  state : Forwarder
  attempts : List Attempt

/-- The loop over the records that waited for a finished sub-query. `next_dependent` is read
before the recursive call, which may change it. -/
def validateDependents (validate : Walk → FrecId → ℕ → Option Walk) :
    ℕ → Walk → Option FrecId → Option Walk
  | _, w, none => some w
  | 0, _, some _ => none
  | k + 1, w, some prev =>
    let r := w.state.frec prev
    let s := w.state.modify prev fun r => { r with blockingQuery := none }
    match validate { w with state := s.retrieve r.stash } prev r.stashLen with
    | none => none
    | some w => validateDependents validate k w r.nextDependent

/-- `depth` bounds the recursion. -/
def dnssecValidate (cfg : Servers) (now : ℤ) : ℕ → Walk → FrecId → ℕ → Status → Option Walk
  | 0, _, _, _, _ => none
  | depth + 1, w, forward, plen, status =>
    if (w.state.blockingQuery forward).isSome then some w
    else
      let a := w.attempts.headD default
      let w := { w with attempts := w.attempts.tail }
      match examine cfg now w.state forward plen status a with
      | .waiting s => some { w with state := s }
      | .settled s status =>
        match (s.frec forward).dependent with
        | none => some { w with state := returnReply cfg s forward plen status a }
        | some first =>
          validateDependents
            (fun w prev plen => dnssecValidate cfg now depth w prev plen status)
            s.frecList.length { w with state := freeFrec s forward } (some first)

/-- The loop that sends to the servers in turn, with the outcome of each attempt to send. -/
def sendLoop (r : Frec) : List (ServerId × Bool) → Frec × Bool
  | [] => (r, false)
  | (_, false) :: rest => sendLoop r rest
  | (server, true) :: rest =>
    let r := { r with sentto := some server }
    if r.forwardall = 0 then (r, true)
    else ((sendLoop { r with forwardall := r.forwardall + 1 } rest).1, true)

/-- What sending on a query depends on: the servers tried, with the outcome of each attempt. -/
structure Sending where
  /-- `filter_servers` finds some server. -/
  servers : Bool := true
  /-- In strict order, the server just tried was the last. -/
  last : Bool := false
  attempts : List (ServerId × Bool) := []
  cacheable : Bool := true
  addedPheader : Bool := false
  hasExtradata : Bool := false
  deriving DecidableEq, Repr

/-- The flags set while the packet is rewritten for the upstream server. -/
def FrecFlags.rewritten (f : FrecFlags) (out : Sending) : FrecFlags :=
  { f with
    noCache := f.noCache || !out.cacheable
    addedPheader := f.addedPheader || out.addedPheader
    hasExtradata := f.hasExtradata || out.hasExtradata }

/-- Only servers of the record's own group are tried. -/
def Sending.within (out : Sending) (master : ServerId) : List (ServerId × Bool) :=
  out.attempts.filter fun p => cfg.samegroup p.1 master

/-- Send, and give up an original query that no server could be reached for. -/
def sendOn (s : Forwarder) (forward : FrecId) (isDnssec : Bool) (tries : List (ServerId × Bool))
    (out : Sending) : Forwarder :=
  let s := if isDnssec then s else s.modify forward fun r =>
    { r with flags := r.flags.rewritten out }
  let (r, forwarded) := sendLoop (s.frec forward) tries
  let s := s.modify forward fun _ => r
  if forwarded || isDnssec then s else freeFrec s forward

/-- The end of the blocking queries that start at `f`. -/
def lastBlocking (s : Forwarder) : ℕ → FrecId → FrecId
  | 0, f => f
  | k + 1, f =>
    match s.blockingQuery f with
    | none => f
    | some b => lastBlocking s k b

/-- `forward_query` on a record that exists; `oldReply` marks a call from `reply_query`,
`oldSrc` a query seen before from the same source. -/
def retryQuery (s : Forwarder) (forward : FrecId) (oldSrc oldReply : Bool)
    (out : Sending) : Forwarder :=
  if (s.blockingQuery forward).isSome then
    let forward := lastBlocking s s.frecList.length forward
    let s := s.retrieve (s.frec forward).stash
    match (s.frec forward).sentto with
    | none => s
    | some server =>
      if out.servers then
        let s := s.modify forward fun r => { r with forwardall := 1 }
        sendOn s forward true (out.within cfg server) out
      else s
  else
    match (s.frec forward).sentto with
    | none => s
    | some server =>
      if out.servers = false ∨ (cfg.strictOrder ∧ out.last ∧ oldReply) then s
      else
        let all := !cfg.strictOrder && oldSrc
        let s := s.modify forward fun r => { r with forwardall := if all then 1 else r.forwardall }
        sendOn s forward (s.frec forward).flags.subquery (out.within cfg server) out

structure Query where
  now : ℤ := 0
  source : ℕ := 0
  msg : Message := {}
  ad : Bool := false
  pheader : Bool := false
  doBit : Bool := false
  /-- `hash_questions` parses the query. -/
  hashed : Bool := true
  /-- There is a `struct frec_src` for another client. -/
  srcMemory : Bool := true
  /-- Answered here: configured, no server, or a simple name. -/
  localAnswer : Bool := false
  master : ServerId := 0
  memory : Bool := true
  newId : ℕ := 0
  forwardall : Bool := false
  out : Sending := {}
  deriving DecidableEq, Repr

def Query.flags (q : Query) : FrecFlags :=
  { checkingDisabled := q.msg.cd, adQuestion := q.ad, hasPheader := q.pheader,
    doQuestion := q.doBit }

def Query.src (q : Query) : FrecSrc := ⟨q.source, q.msg.id⟩

/-- The assignments to a record just taken for a new query. -/
def Frec.forQuery (r : Frec) (q : Query) : Frec :=
  { r with
    frecSrc := q.src
    moreSrcs := []
    newId := q.newId
    hash := hashQuestions q.msg.questions
    forwardall := if q.forwardall then 1 else 0
    flags := q.flags
    workCounter := dnssecWork }

def newQuery (s : Forwarder) (q : Query) : Forwarder :=
  if q.hashed = false ∨ q.localAnswer then s
  else
    match getNewFrec cfg s q.now q.master false q.memory with
    | (s, none) => s
    | (s, some f) =>
      let s := s.modify f fun r => r.forQuery q
      sendOn s f false (q.out.within cfg q.master) q.out

def forwardQuery (s : Forwarder) (q : Query) : Forwarder :=
  let s := { s with packet := q.msg }
  let existing := if q.hashed then lookupFrecByQuery s (hashQuestions q.msg.questions) q.flags
    else none
  match existing with
  | none => newQuery cfg s q
  | some f =>
    let r := s.frec f
    if q.src ∈ r.frecSrc :: r.moreSrcs then retryQuery cfg s f true false q.out
    else if q.srcMemory = false then s
    else
      let s := s.modify f fun r => { r with moreSrcs := q.src :: r.moreSrcs }
      if q.now - r.time < 2 then s else retryQuery cfg s f false false q.out

structure Answer where
  now : ℤ := 0
  msg : Message := {}
  /-- `hash_questions` parses the packet. -/
  hashed : Bool := true
  onSocket : List FrecId := []
  /-- The known server the packet came from. -/
  server : Option ServerId := none
  /-- `check_for_ignored_address`. -/
  ignored : Bool := false
  /-- The packet ends in a signature (`is_sign`). -/
  signed : Bool := false
  out : Sending := {}
  attempts : List Attempt := []

/-- A refusal or failure that is worth trying another server for. -/
def retryable (r : Frec) (m : Message) : Bool :=
  (m.rcode = refused || m.rcode = servfail) && r.forwardall = 0 && !r.flags.hasExtradata

/-- The header made that of a query again: no records, no reply flags. -/
def Message.asQuery (m : Message) (cd : Bool) : Message :=
  { m with body := 0, response := false, tc := false, rcode := 0, cd := cd }

section

variable (s : Forwarder) (forward : FrecId)

/-- The query to send again: the stashed one, or one made from the reply. The flag says whether
there is something to send; a signed packet's header is rewritten all the same. -/
def recreate (ans : Answer) : Forwarder × Bool :=
  let r := s.frec forward
  if r.flags.subquery ∧ r.blockingQuery = none then (s.retrieve r.stash, r.stashLen ≠ 0)
  else ({ s with packet := s.packet.asQuery r.flags.checkingDisabled }, !ans.signed)

/-- The reply is the answer to `forward`: note the server and validate, or send it on. The
length is still the one the packet came with. -/
def acceptReply (server : ServerId)
    (ans : Answer) : Option Walk :=
  let s := s.modify forward fun r => { r with sentto := some server }
  if cfg.doDnssec server ∧ cfg.dnssecValid ∧ (s.frec forward).flags.checkingDisabled = false then
    dnssecValidate cfg ans.now (s.frecList.length + 1) ⟨s, ans.attempts⟩ forward ans.msg.len .ok
  else
    some ⟨returnReply cfg s forward ans.msg.len .ok (ans.attempts.headD default), []⟩

/-- `forward->forwardall && --forward->forwardall > 1 && RCODE(header) == REFUSED`. -/
def countReply : Forwarder × Bool :=
  let n := (s.frec forward).forwardall
  if n = 0 then (s, false)
  else (s.modify forward fun r => { r with forwardall := n - 1 },
    decide (1 < n - 1) && decide (s.packet.rcode = refused))

/-- The reply has been matched with `forward` and a server of its group. -/
def handleReply (server : ServerId)
    (ans : Answer) : Option Walk :=
  if ans.ignored then some ⟨s, []⟩
  else
    let (s, retry) :=
      if retryable (s.frec forward) s.packet then recreate s forward ans else (s, false)
    if retry then some ⟨retryQuery cfg s forward true true ans.out, []⟩
    else
      match countReply s forward with
      | (s, true) => some ⟨s, []⟩
      | (s, false) => acceptReply cfg s forward server ans

end

/-- `none` would be a recursion that does not end. -/
def replyWalk (s : Forwarder) (ans : Answer) : Option Walk :=
  let s := { s with packet := ans.msg }
  if ans.msg.response = false ∨ ans.hashed = false then some ⟨s, []⟩
  else
    match lookupFrec s ans.msg.id ans.onSocket (hashQuestions ans.msg.questions), ans.server with
    | some forward, some server =>
      if (s.frec forward).sentto.any (cfg.samegroup server) then
        handleReply cfg s forward server ans
      else some ⟨s, []⟩
    | _, _ => some ⟨s, []⟩

def serverGone (s : Forwarder) (server : ServerId) : Forwarder :=
  s.frecList.foldl (fun s f => if (s.frec f).sentto = some server then freeFrec s f else s) s

inductive Event
  | clientQuery (q : Query)
  | upstreamReply (ans : Answer)
  | serverGone (server : ServerId)

def step (s : Forwarder) : Event → Option Forwarder
  | .clientQuery q => some (forwardQuery cfg s q)
  | .upstreamReply ans => (replyWalk cfg s ans).map Walk.state
  | .serverGone server => some (serverGone s server)

def run (cfg : Servers) (s : Forwarder) : List Event → Option Forwarder
  | [] => some s
  | e :: es => (step cfg s e).bind fun s => run cfg s es

end Dnsmasq.Forward
