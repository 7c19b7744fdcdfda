import Dnsmasq.Dhcp.Acknowledge

/-!
A client that comes back: its second message finds the ranges and the `dhcp-host` line of the first
one.
-/
namespace Dnsmasq.Dhcp

open List

/-- The request of a client that takes up the offer of `a` by the server `sid`. -/
def Request.selecting (req : Request) (a sid : InAddr) : Request :=
  { req with
    messageType := some dhcprequest, requestedIp := some a, serverIdentifier := some sid }

structure Arrival.Again (arrival arrival' : Arrival) : Prop where
  context : arrival'.context = arrival.context
  fallback : arrival'.fallback = arrival.fallback
  pxe : arrival'.pxe = arrival.pxe

namespace Daemon

variable {d d' : Daemon}

variable (shares : List SharedNetwork)

/-- Whether a relay or a subnet option selects a range. -/
def selected (giaddr subnetAddr : InAddr) (c : Context) : Bool :=
  sharedWith shares giaddr subnetAddr c || covers (if subnetAddr ≠ 0 then subnetAddr else giaddr) c
where
  covers (a : InAddr) (c : Context) : Bool :=
    guessNetmask c ≠ 0 && isSameNet a c.start (guessNetmask c) &&
      isSameNet a c.stop (guessNetmask c)
  sharedWith (shares : List SharedNetwork) (giaddr subnetAddr : InAddr) (c : Context) : Bool :=
    decide (subnetAddr = 0 ∧ giaddr ≠ 0) && shares.any fun s =>
      s.sharedAddr ≠ 0 && s.ifIndex = 0 && s.matchAddr = giaddr && covers s.sharedAddr c

/-- A range after it has been looked at by `selectContext`. -/
def completed (giaddr subnetAddr fallback : InAddr) (c : Context) :
    Context :=
  if selected shares giaddr subnetAddr c then
    { c with
      netmask := guessNetmask c
      localAddr := if c.localAddr = 0 then fallback else c.localAddr
      router := if c.router = 0 ∧ !selected.sharedWith shares giaddr subnetAddr c then giaddr
        else c.router }
  else c

theorem selectContext_forced (d : Daemon) (context : List ℕ) {giaddr subnetAddr : InAddr}
    (h : subnetAddr ≠ 0 ∨ giaddr ≠ 0) (fallback : InAddr) :
    d.selectContext context giaddr subnetAddr 0 fallback =
      ({ d with dhcp := d.dhcp.map (completed d.sharedNetworks giaddr subnetAddr fallback) },
        ((List.range d.dhcp.length).filter fun i =>
          d.dhcp[i]?.any (selected d.sharedNetworks giaddr subnetAddr)).reverse) := by
  have h0 : ¬(giaddr = 0 ∧ subnetAddr = 0 ∧ (0 : InAddr) = 0) := by tauto
  have hforce : (¬(subnetAddr ≠ 0 ∨ giaddr ≠ 0)) = False := eq_false fun hn => hn h
  have haddr : (if subnetAddr ≠ 0 then subnetAddr else if giaddr ≠ 0 then giaddr else 0) =
      if subnetAddr ≠ 0 then subnetAddr else giaddr := by
    split
    · rfl
    · split
      · rfl
      · simp_all
  unfold selectContext
  rw [if_neg h0]
  simp only [hforce, false_and, and_false, if_false, haddr]
  rfl

theorem selectContext_direct (d : Daemon) (context : List ℕ) (fallback : InAddr) :
    d.selectContext context 0 0 0 fallback = (d, context) := by
  simp [selectContext]

theorem guessNetmask_completed (giaddr subnetAddr fallback : InAddr) (c : Context) :
    guessNetmask (completed shares giaddr subnetAddr fallback c) = guessNetmask c := by
  have hagain (n : Bool) (m k : InAddr) :
      (if n || (if n || m ≠ 0 then m else k) ≠ 0 then (if n || m ≠ 0 then m else k) else k) =
        if n || m ≠ 0 then m else k := by
    cases n <;> split_ifs <;> simp_all
  unfold completed
  split
  · exact hagain c.hasNetmask c.netmask _
  · rfl

theorem covers_completed (giaddr subnetAddr fallback a : InAddr)
    (c : Context) : selected.covers a (completed shares giaddr subnetAddr fallback c) =
      selected.covers a c := by
  simp only [selected.covers, guessNetmask_completed]
  unfold completed
  split <;> rfl

section

variable (giaddr subnetAddr fallback : InAddr) (c : Context)

theorem sharedWith_completed :
    selected.sharedWith shares giaddr subnetAddr (completed shares giaddr subnetAddr fallback c) =
      selected.sharedWith shares giaddr subnetAddr c := by
  simp only [selected.sharedWith, covers_completed]

theorem selected_completed :
    selected shares giaddr subnetAddr (completed shares giaddr subnetAddr fallback c) =
      selected shares giaddr subnetAddr c := by
  simp only [selected, sharedWith_completed, covers_completed]

theorem completed_completed :
    completed shares giaddr subnetAddr fallback (completed shares giaddr subnetAddr fallback c) =
      completed shares giaddr subnetAddr fallback c := by
  conv_lhs => rw [completed]
  rw [selected_completed, sharedWith_completed, guessNetmask_completed]
  by_cases h : selected shares giaddr subnetAddr c = true
  · simp only [completed, h, if_true]
    congr 1 <;> split_ifs <;> simp_all
  · rw [if_neg h]

end

section

variable (d : Daemon) (context : List ℕ) (giaddr subnetAddr fallback : InAddr)

theorem selectContext_again :
    (d.selectContext context giaddr subnetAddr 0 fallback).1.selectContext context giaddr subnetAddr
      0 fallback = d.selectContext context giaddr subnetAddr 0 fallback := by
  by_cases h : subnetAddr ≠ 0 ∨ giaddr ≠ 0
  · simp only [selectContext_forced _ context h, map_map, length_map, getElem?_map]
    congr 1
    · congr 2
      funext c
      exact completed_completed _ _ _ _ _
    · congr 2
      funext i
      cases d.dhcp[i]? <;> simp [selected_completed]
  · push Not at h
    rw [h.1, h.2, selectContext_direct, selectContext_direct]

theorem selectContext_still : d.still.selectContext context giaddr subnetAddr 0 fallback =
      ((d.selectContext context giaddr subnetAddr 0 fallback).1.still,
        (d.selectContext context giaddr subnetAddr 0 fallback).2) := by
  by_cases h : subnetAddr ≠ 0 ∨ giaddr ≠ 0
  · have hany (i : ℕ) : d.still.dhcp[i]?.any (selected d.sharedNetworks giaddr subnetAddr) =
        d.dhcp[i]?.any (selected d.sharedNetworks giaddr subnetAddr) :=
      getElem?_still_any d i fun _ => rfl
    have hmap : (d.dhcp.map Context.settled).map
        (completed d.sharedNetworks giaddr subnetAddr fallback) =
        (d.dhcp.map (completed d.sharedNetworks giaddr subnetAddr fallback)).map
          Context.settled := by
      rw [map_map, map_map]
      congr 1
      funext c
      simp only [Function.comp, completed]
      rw [apply_ite Context.settled]
      rfl
    rw [selectContext_forced d context h, selectContext_forced d.still context h]
    simp only [still] at hany ⊢
    simp only [hany, hmap, length_map]
  · push Not at h
    rw [h.1, h.2, selectContext_direct, selectContext_direct]

end

theorem isConfigInContext_still (d : Daemon) (context : List ℕ) (config : Config) :
    d.still.isConfigInContext context config = d.isConfigInContext context config := by
  unfold isConfigInContext
  rw [contexts_still]
  cases config.addr with
  | none => rfl
  | some addr =>
    simp only [any_map]
    rfl

theorem session_still (d : Daemon) (req : Request) (arrival : Arrival) (context : List ℕ) :
    d.still.session req arrival context = d.session req arrival context := by
  have hfind (context : List ℕ) (clid : Option Bytes) (hostname : Option CString)
      (tags : List Tag) :
      d.still.findConfig context clid req.chaddr req.htype hostname tags =
        d.findConfig context clid req.chaddr req.htype hostname tags := by
    simp only [findConfig, findConfigMatch, isConfigInContext_still]
    rfl
  have hknown (clid : Option Bytes) :
      d.still.knownConfig context clid req = d.knownConfig context clid req := by
    simp only [knownConfig, hfind]
    rfl
  have hnamed (known : Option ℕ × List Tag) :
      d.still.namedConfig context req known = d.namedConfig context req known := by
    simp only [namedConfig, hfind]
    rfl
  have hclid : d.still.knownClid req = d.knownClid req := rfl
  simp only [session, hclid, hknown, hnamed]
  rfl

theorem session_selecting (d : Daemon) {req : Request} {t : ℕ} (ht : req.messageType = some t)
    (arrival arrival' : Arrival) (context : List ℕ) (a sid : InAddr) :
    d.session (req.selecting a sid) arrival' context = { d.session req arrival context with
        req := req.selecting a sid, arrival := arrival', messType := dhcprequest } := by
  have hclid : d.clientId (req.selecting a sid) = d.clientId req := by
    simp [clientId, Request.selecting, ht]
  have hlease : d.clientLease (req.selecting a sid) = d.clientLease req := by
    rw [clientLease, clientLease, hclid]
    simp [Request.selecting, ht]
  have hknown : d.knownClid (req.selecting a sid) = d.knownClid req := by
    rw [knownClid, knownClid, hclid, hlease]
  simp only [session, hknown, hlease]
  simp only [Request.selecting, ht]
  rfl

/-- The server when it looks at a message, with the ranges that the packet selects. -/
def serving (d : Daemon) (req : Request) (arrival : Arrival) : Daemon :=
  (d.selectContext arrival.context req.clearCiaddr.giaddr req.clearCiaddr.subnetSelect
    req.clearCiaddr.ciaddr arrival.fallback).1

structure Admitted (d : Daemon) (req : Request) (arrival : Arrival) : Prop where
  op : req.op = 1
  chaddr : req.chaddr.length ≤ dhcpChaddrMax
  htype : ¬(req.htype = 0 ∧ req.chaddr.isEmpty = false)
  cookie : req.cookie = true
  context : (d.clientSession req arrival).context ≠ []

theorem dhcpReply_admitted {req : Request} {arrival : Arrival} {t : ℕ}
    (ht : req.messageType = some t) (h0 : t ≠ 0) (h : d.Admitted req arrival) :
    d.dhcpReply req arrival =
      (d.serving req arrival).dispatchReply (d.clientSession req arrival) := by
  obtain ⟨ciaddr, hreq⟩ := clearCiaddr_eq req
  have hctx := h.context
  have hop : ¬(req.op ≠ 1 ∨ dhcpChaddrMax < req.chaddr.length) := by
    simp [h.op, h.chaddr]
  have hhw := h.htype
  unfold dhcpReply
  rw [if_neg hop, if_neg (by simpa using hhw), if_neg (by simp [h.cookie])]
  simp only [serving, clientSession] at hctx ⊢
  split
  · rename_i hsel
    rw [hsel] at hctx
    exact absurd rfl hctx
  · rename_i d' context hne hsel
    rw [hsel]
    simp [hreq, ht, h0]

theorem admitted_of_reply {req : Request} {arrival : Arrival} {t : ℕ} {r : Reply}
    (ht : req.messageType = some t) (hr : (d.dhcpReply req arrival).1 = some r) :
    d.Admitted req arrival := by
  unfold dhcpReply at hr
  split at hr
  · cases hr
  split at hr
  · cases hr
  split at hr
  · cases hr
  rename_i hop hhw hcookie
  simp only [not_or, not_not, not_lt] at hop
  refine ⟨hop.1, hop.2, by simpa using hhw, by simpa [ht] using hcookie, ?_⟩
  simp only at hr
  split at hr
  · cases hr
  · rename_i d' context hne hsel
    simp only [clientSession, hsel]
    exact hne

theorem clearCiaddr_discover {req : Request} (ht : req.messageType = some dhcpdiscover) :
    req.clearCiaddr = { req with ciaddr := 0 } := by
  simp [Request.clearCiaddr, ht]

theorem clearCiaddr_selecting (req : Request) (a sid : InAddr) :
    (req.selecting a sid).clearCiaddr = ({ req with ciaddr := 0 }).selecting a sid := by
  simp [Request.clearCiaddr, Request.selecting]

theorem serving_again {req : Request} {arrival arrival' : Arrival} {a sid : InAddr}
    (ht : req.messageType = some dhcpdiscover) (hagain : arrival.Again arrival')
    (h : d'.still = (d.serving req arrival).still) :
    (d'.serving (req.selecting a sid) arrival').still = (d.serving req arrival).still ∧
      d'.clientSession (req.selecting a sid) arrival' = { d.clientSession req arrival with
          req := ({ req with ciaddr := 0 }).selecting a sid, arrival := arrival'
          messType := dhcprequest } := by
  have hserve : d.serving req arrival =
      (d.selectContext arrival.context req.giaddr req.subnetSelect 0 arrival.fallback).1 := by
    rw [serving, clearCiaddr_discover ht]
  -- the choice of ranges depends on the settled server only, and making it twice is making it once
  have hsel : ((d'.selectContext arrival.context req.giaddr req.subnetSelect 0
        arrival.fallback).1.still,
      (d'.selectContext arrival.context req.giaddr req.subnetSelect 0 arrival.fallback).2) =
      ((d.selectContext arrival.context req.giaddr req.subnetSelect 0 arrival.fallback).1.still,
        (d.selectContext arrival.context req.giaddr req.subnetSelect 0 arrival.fallback).2) := by
    rw [← selectContext_still, h, hserve, selectContext_still, selectContext_again]
  obtain ⟨h1, h2⟩ := Prod.mk.inj hsel
  constructor
  · rw [hserve, ← h1, serving, hagain.context, hagain.fallback]
    rfl
  simp only [clientSession, clearCiaddr_selecting, clearCiaddr_discover ht, hagain.context,
    hagain.fallback]
  simp only [Request.selecting]
  rw [h2, ← session_still, h1, session_still]
  exact @session_selecting _ { req with ciaddr := 0 } _ ht arrival arrival' _ a sid

end Daemon

end Dnsmasq.Dhcp
