import Dnsmasq.Dhcp.Exclusion
import Dnsmasq.Dhcp.Revisit

/-!
From DISCOVER to ACK. The offer and the request decide about the same address with different tests.
-/
namespace Dnsmasq.Dhcp

open List

namespace Daemon

variable {d d' : Daemon}

def selectedContext (d : Daemon) (s : Session) (sid : InAddr) : List ℕ :=
  if s.override ≠ 0 then s.context
  else s.context.dropWhile fun i => !d.dhcp[i]?.any (·.localAddr == sid)

/-- The tests that a request for an offered address may still fail: the range chosen for it
has another router, or it is the address configured for the client. -/
def Accepts (d : Daemon) (s : Session) (a sid : InAddr) : Prop :=
  ∃ i, d.narrowContext (d.selectedContext s sid) a s.tagif = some i ∧
    ((d.addressAvailable [i] a s.tagif).isSome = true ∨
      (d.config s.config).bind (·.addr) = some a)

variable {s : Session} {a sid : InAddr}

theorem dropLease_eq (d : Daemon) (lease : Option Lease) (now : ℕ) :
    ∃ db, d.dropLease lease now = { d with db } ∧ (∀ l ∈ db.leases, l ∈ d.db.leases) ∧
      d.db.leasesLeft ≤ db.leasesLeft := by
  cases lease with
  | none => exact ⟨d.db, rfl, fun _ h => h, le_rfl⟩
  | some own =>
    exact ⟨_, rfl, fun _ h => mem_of_mem_filter h, Nat.le_add_right _ _⟩

/-- A client that has selected us keeps its ranges from the server's on; when there are none,
the request is refused. -/
theorem selectedServer_cases {context : List ℕ} {override : InAddr}
    (h : d.selectedServer s sid = some (context, override, none)) :
    context = d.selectedContext s sid ∨ context = [] := by
  unfold selectedServer at h
  unfold selectedContext
  split at h
  · rename_i ho
    split at h <;> cases h
    exact .inl (by rw [if_pos ho])
  rename_i ho
  rw [if_neg ho]
  split at h
  · rename_i hsuffix
    cases h
    exact .inl hsuffix.symm
  split at h
  · cases h
    exact .inr rfl
  · split at h <;> cases h

theorem selectedServer_eq (hover : s.override ≠ 0 → sid = s.override)
    (hne : d.selectedContext s sid ≠ []) :
    d.selectedServer s sid = some (d.selectedContext s sid, s.override, none) := by
  unfold selectedContext at hne ⊢
  unfold selectedServer
  by_cases ho : s.override ≠ 0
  · rw [if_pos ho, if_neg (not_not.mpr (hover ho)), if_pos ho]
  rw [if_neg ho] at hne ⊢
  rw [if_neg ho]
  obtain ⟨i, rest, hcons⟩ := exists_cons_of_ne_nil hne
  simp only [hcons]

theorem requestReply_acks_iff (hig : s.ignore = false) (hdis : d.disabled s.config = false)
    (hreq : s.req.requestedIp = some a) (hsid : s.req.serverIdentifier = some sid)
    (hover : s.override ≠ 0 → sid = s.override)
    (hhost : ∀ j, d.configFindByAddress a = some j → s.config = some j)
    (hmac : ∀ l ∈ d.db.leases, l.v6 = false → l.addr = a →
      (∃ own, s.lease = some own ∧ own.addr = a) ∨
        (d.config s.config).any (configHasMac · l.hwaddr l.hwaddrType) = true)
    (hleft : d.db.leasesLeft ≠ 0) (hmemory : s.arrival.leaseMemory = true) :
    (∃ r, (d.requestReply s).1 = some r ∧ r.type = .dhcpack ∧ r.yiaddr = a) ↔
      s.emac ≠ [] ∧ d.Accepts s a sid := by
  obtain ⟨db, hdrop, hsub, hle⟩ := dropLease_eq d (s.lease.filter (·.addr ≠ a)) s.arrival.now
  constructor
  · rintro ⟨r, hr, hack, -⟩
    have hserver : ∃ context override message,
        d.selectedServer s sid = some (context, override, message) := by
      cases h : d.selectedServer s sid with
      | none =>
        simp only [requestReply, hig, hdis, hreq, hsid, h] at hr
        simp at hr
      | some x => exact ⟨x.1, x.2.1, x.2.2, rfl⟩
    obtain ⟨context, override, message, hserver⟩ := hserver
    rw [requestReply_selecting hig hdis hreq hsid hserver, hdrop] at hr
    cases message with
    | some m =>
      simp only [commitReply] at hr
      rw [nakReply_type hr] at hack
      cases hack
    | none =>
      obtain hnak | ⟨-, -, hemac, i, lease', routed, hi, hcheck, -⟩ := commitReply_cases hr
      · rw [hnak] at hack
        cases hack
      have hi' : d.narrowContext context a s.tagif = some i := hi
      refine ⟨hemac, i, ?_, (checkRequest_ok hcheck).available⟩
      rcases selectedServer_cases hserver with rfl | rfl
      · exact hi'
      · cases hi'
  rintro ⟨hemac, i, hi, havail⟩
  have hne : d.selectedContext s sid ≠ [] := by
    intro h
    rw [h] at hi
    cases hi
  rw [requestReply_selecting hig hdis hreq hsid (selectedServer_eq hover hne), hdrop]
  refine commitReply_grants hi ⟨havail, hhost, ?_⟩ hemac
    (.inr ⟨(Nat.lt_of_lt_of_le (Nat.pos_of_ne_zero hleft) hle).ne', hmemory⟩)
  intro hnone l hl
  obtain ⟨hmem, h4, haddr⟩ := LeaseDb.leaseFindByAddr_eq_some hl
  rcases hmac l (hsub l hmem) h4 haddr with ⟨own, ho, ha⟩ | h
  · simp [ho, ha] at hnone
  · exact h

theorem serverId_still (d : Daemon) (context : List ℕ) (override fallback : InAddr) :
    d.still.serverId context override fallback = d.serverId context override fallback := by
  unfold serverId
  rw [contexts_still]
  cases d.contexts context <;> rfl

theorem discoverReply_offer {r : Reply} (hr : (d.discoverReply s).1 = some r)
    (ht : r.type = .dhcpoffer) :
    s.ignore = false ∧ d.disabled s.config = false ∧ Offered d s r.yiaddr ∧
      (d.discoverReply s).2.still = d.still ∧
      ∃ i, d.narrowContext s.context r.yiaddr s.tagif = some i ∧
        r.serverIdentifier = some (d.serverId [i] s.override s.arrival.fallback) := by
  obtain ⟨hstill, hoffered⟩ := discoverAddress_offered d s
  obtain ⟨hig, hdis, yiaddr, d', i, h, hi, hcommit | ⟨-, rfl, hd', hsid⟩⟩ := discoverReply_cases hr
  · rw [hcommit] at hr
    obtain hnak | ⟨hack, -⟩ := commitReply_cases hr
    · rw [hnak] at ht
      cases ht
    · rw [hack] at ht
      cases ht
  rw [h] at hstill hoffered
  refine ⟨hig, hdis, hoffered _ rfl, hd' ▸ hstill, i, ?_, ?_⟩
  · rw [← narrowContext_congr hstill, hi]
  · rw [hsid, ← serverId_still, ← serverId_still d]
    exact congrArg (fun d : Daemon => some (d.serverId [i] s.override s.arrival.fallback)) hstill

theorem Offered.requestable (ho : Offered d s a) (hconf : d.DistinctHosts) (hdb : d.db.Distinct)
    (hlease : ∀ l, s.lease = some l → l ∈ d.db.leases) :
    (∀ j, d.configFindByAddress a = some j → s.config = some j) ∧
      ∀ l ∈ d.db.leases, l.v6 = false → l.addr = a → (∃ own, s.lease = some own ∧ own.addr = a) ∨
          (d.config s.config).any (configHasMac · l.hwaddr l.hwaddrType) = true := by
  cases ho with
  | configured h =>
    obtain ⟨haddr, hl⟩ := offeredConfigAddr_eq_some h
    refine ⟨?_, ?_⟩
    · rw [configFindByAddress_own hconf haddr]
      exact fun _ h => h
    rintro l hmem h4 rfl
    refine (hl l (leaseFindByAddr_of_mem hdb hmem h4)).imp_left ?_
    rintro ⟨own, ho, hid⟩
    have : own = l := inj_on_of_nodup_map d.db.nodup (hlease own ho) hmem hid
    exact ⟨own, ho, by rw [this]⟩
  | leased hl haddr _ hfind =>
    exact ⟨by simp [hfind], fun _ _ _ _ => .inl ⟨_, hl, haddr⟩⟩
  | requested hfree _ hfind _ =>
    exact ⟨by simp [hfind], fun l hmem h4 ha =>
      absurd ha (LeaseDb.leaseFindByAddr_eq_none hfree l hmem h4)⟩
  | allocated hunused _ =>
    simp only [unusedAddr, Bool.and_eq_true, Option.isNone_iff_eq_none] at hunused
    exact ⟨by simp [hunused.1.2], fun l hmem h4 ha =>
      absurd ha (LeaseDb.leaseFindByAddr_eq_none hunused.1.1.2 l hmem h4)⟩

theorem selectedContext_still (d : Daemon) (s : Session) (sid : InAddr) :
    d.still.selectedContext s sid = d.selectedContext s sid := by
  unfold selectedContext
  congr 2
  funext i
  rw [getElem?_still_any d i fun _ => rfl]

theorem accepts_still (d : Daemon) (s : Session) (a sid : InAddr) :
    d.still.Accepts s a sid ↔ d.Accepts s a sid := by
  simp only [Accepts, narrowContext_still, addressAvailable_still, selectedContext_still]
  rfl

theorem dispatchReply_boot {r : Reply} (hmsg : s.messType = dhcprequest)
    (hboot : d.isPxeRequest s.req s.arrival = true) (hpxe : s.arrival.pxe = false)
    (hr : (d.dispatchReply s).1 = some r) : r.yiaddr = s.req.ciaddr := by
  simp only [isPxeRequest, hpxe, Bool.and_eq_true, Bool.or_eq_true, Bool.and_false,
    Bool.false_eq_true, or_false] at hboot
  obtain ⟨⟨hon, hclient⟩, hitem⟩ := hboot
  obtain ⟨⟨type, layer⟩, hitem⟩ := Option.isSome_iff_exists.mp hitem
  have hreply : ∃ reply, d.pxeReply s = some reply ∧
      ∀ r, reply = some r → r.yiaddr = s.req.ciaddr := by
    simp only [pxeReply, hon, hclient, Bool.not_true, Bool.or_self, Bool.false_eq_true, if_false,
      hitem, hmsg, true_or, if_true]
    split
    · exact ⟨none, rfl, by rintro r ⟨⟩⟩
    · split
      · exact ⟨none, rfl, by rintro r ⟨⟩⟩
      · exact ⟨_, rfl, by rintro r ⟨⟩; rfl⟩
  obtain ⟨reply, hreply, hy⟩ := hreply
  rw [dispatchReply, hreply] at hr
  exact hy r hr

theorem dispatchReply_offer {r : Reply} (hmsg : s.messType = dhcpdiscover)
    (hr : (d.dispatchReply s).1 = some r) (ht : r.type = .dhcpoffer) (ha : r.yiaddr ≠ 0) :
    d.dispatchReply s = d.discoverReply s ∧
      ¬((d.contexts s.context).head?.any (·.proxy) = true ∨ s.arrival.pxe = true) := by
  revert hr
  unfold dispatchReply
  split
  · rename_i reply h
    intro hr
    dsimp only at hr
    rw [hr] at h
    rcases pxeReply_cases h with h | h
    · rw [h.1] at ht
      cases ht
    · exact absurd h.2 ha
  simp only [hmsg]
  split
  · exact fun hr => by cases hr
  · rename_i h
    exact fun _ => ⟨rfl, h⟩

/-- The same about the second message alone: a server that differs from the one that made
the offer in settled matters only, and the client's session with the request. -/
theorem dispatchReply_selecting_acks_iff {req : Request} {arrival : Arrival}
    (hstill : d'.still = d.still) (hoff : Offered d s a) (hconf : d.DistinctHosts)
    (hdb : d.db.Distinct) (hlease : ∀ l, s.lease = some l → l ∈ d.db.leases)
    (hleft : d.db.leasesLeft ≠ 0) (hig : s.ignore = false) (hdis : d.disabled s.config = false)
    (hopen : ¬((d.contexts s.context).head?.any (·.proxy) = true ∨ arrival.pxe = true))
    (hover : s.override ≠ 0 → sid = s.override) (ha : a ≠ 0)
    (hmemory : arrival.leaseMemory = true) : (∃ r, (d'.dispatchReply { s with
        req := ({ req with ciaddr := 0 }).selecting a sid, arrival, messType := dhcprequest }).1 =
        some r ∧ r.type = .dhcpack ∧ r.yiaddr = a) ↔
      d.isPxeRequest req arrival = false ∧ s.emac ≠ [] ∧ d.Accepts s a sid := by
  have hdb' : d'.still.db = d.still.db := congrArg Daemon.db hstill
  have hconf' : d'.still.dhcpConf = d.still.dhcpConf := congrArg Daemon.dhcpConf hstill
  have hboot' : d'.still.enablePxe = d.still.enablePxe := congrArg Daemon.enablePxe hstill
  simp only [still] at hdb' hconf' hboot'
  have hfind : d'.configFindByAddress a = d.configFindByAddress a := by
    simp only [configFindByAddress, hconf']
  have hconfig (i : Option ℕ) : d'.config i = d.config i := by simp only [config, hconf']
  obtain ⟨hhost, hmac⟩ := hoff.requestable hconf hdb hlease
  generalize hs' : ({ s with
    req := ({ req with ciaddr := 0 }).selecting a sid, arrival, messType := dhcprequest } :
      Session) = s'
  have hpxe : d'.isPxeRequest s'.req s'.arrival = d.isPxeRequest req arrival := by
    subst hs'
    simp only [isPxeRequest, hboot']
    rfl
  by_cases hboot : d.isPxeRequest req arrival = true
  · simp only [hboot, Bool.true_eq_false, false_and, iff_false]
    rintro ⟨r, hr, -, hy⟩
    have := dispatchReply_boot (by rw [← hs']) (by rw [hpxe, hboot])
      (by rw [← hs']; simpa using (not_or.mp hopen).2) hr
    rw [hy, ← hs'] at this
    exact ha this
  rw [Bool.not_eq_true] at hboot
  have hdispatch : d'.dispatchReply s' = d'.requestReply s' := by
    have hhead : (d'.contexts s'.context).head?.any (·.proxy) =
        (d.contexts s.context).head?.any (·.proxy) := by
      have h1 := d'.contexts_still s'.context
      have h2 := d.contexts_still s.context
      rw [← hs'] at h1
      rw [← hs']
      cases h3 : d.contexts s.context <;> cases h4 : d'.contexts s.context <;>
        simp_all [Context.settled]
    have hmt : s'.messType = dhcprequest := by rw [← hs']
    have hclosed : ¬((d'.contexts s'.context).head?.any (·.proxy) = true ∨
        s'.arrival.pxe = true) := by
      rw [hhead, ← hs']
      exact hopen
    rw [dispatchReply, pxeReply_request hmt (by rw [hpxe, hboot])]
    simp only [hclosed, if_false, hmt]
    rfl
  have hacks : (∃ r, (d'.requestReply s').1 = some r ∧ r.type = .dhcpack ∧ r.yiaddr = a) ↔
      s'.emac ≠ [] ∧ d'.Accepts s' a sid := requestReply_acks_iff
    (by rw [← hs']; exact hig) (by rw [← hs']; simpa [disabled, hconfig] using hdis)
    (by rw [← hs']; rfl) (by rw [← hs']; rfl) (by rw [← hs']; exact hover)
    (by rw [hfind, ← hs']; exact hhost)
    (by rw [hdb', ← hs', hconfig]; exact hmac) (by rw [hdb']; exact hleft)
    (by rw [← hs']; exact hmemory)
  have haccepts : d'.Accepts s' a sid ↔ d.Accepts s a sid := by
    rw [← accepts_still, hstill, accepts_still, ← hs']
    rfl
  rw [hdispatch, hacks, haccepts]
  simp only [hboot, true_and]
  rw [← hs']

/-- A client that takes up an offer at once is acknowledged, if it has an identity to lease
the address to, does not ask for a boot server, and the address is not the router's of the
range that the request is put in. -/
theorem dhcpReply_selecting_acks_iff (d : Daemon) (req : Request) (arrival arrival' : Arrival)
    {r : Reply} {sid : InAddr} (hconf : d.DistinctHosts) (hdb : d.db.Distinct)
    (hleft : d.db.leasesLeft ≠ 0) (hmsg : req.messageType = some dhcpdiscover)
    (hr : (d.dhcpReply req arrival).1 = some r) (ht : r.type = .dhcpoffer)
    (ha : r.yiaddr ≠ 0) (hsid : r.serverIdentifier = some sid)
    (hagain : arrival.Again arrival') (hmemory : arrival'.leaseMemory = true) :
    (∃ r', ((d.dhcpReply req arrival).2.dhcpReply (req.selecting r.yiaddr sid) arrival').1 =
        some r' ∧ r'.type = .dhcpack ∧ r'.yiaddr = r.yiaddr) ↔
      d.isPxeRequest req arrival = false ∧ (d.clientSession req arrival).emac ≠ [] ∧
        (d.serving req arrival).Accepts (d.clientSession req arrival) r.yiaddr sid := by
  have hadm := admitted_of_reply hmsg hr
  rw [dhcpReply_admitted hmsg (by decide) hadm] at hr ⊢
  obtain ⟨dhcp, hd₁⟩ : ∃ dhcp, d.serving req arrival = { d with dhcp } := selectContext_fst ..
  have hs : (d.clientSession req arrival).messType = dhcpdiscover ∧
      (d.clientSession req arrival).arrival = arrival ∧
      (d.clientSession req arrival).lease = (d.serving req arrival).clientLease req := by
    simp [clientSession, session, clearCiaddr_discover hmsg, hmsg, serving, clientLease, clientId]
  obtain ⟨hmt, harr, hl⟩ := hs
  generalize hd : d.serving req arrival = d₁ at *
  generalize hsess : d.clientSession req arrival = s at *
  obtain ⟨heq, hopen⟩ := dispatchReply_offer hmt hr ht ha
  rw [heq] at hr ⊢
  obtain ⟨hig, hdis, hoff, hstill, i, hi, hsid'⟩ := discoverReply_offer hr ht
  have hagain' :=
    @serving_again d (d₁.discoverReply s).2 req arrival arrival' r.yiaddr sid hmsg hagain
      (hd ▸ hstill)
  rw [hd, hsess] at hagain'
  obtain ⟨hstill', hs'⟩ := hagain'
  have hadm' : (d₁.discoverReply s).2.Admitted (req.selecting r.yiaddr sid) arrival' :=
    ⟨hadm.op, hadm.chaddr, hadm.htype, hadm.cookie, by rw [hs']; exact hsess ▸ hadm.context⟩
  rw [dhcpReply_admitted rfl (by decide) hadm', hs',
    dispatchReply_selecting_acks_iff hstill' hoff (hd₁ ▸ hconf) (hd₁ ▸ hdb)
      (fun l hls => (clientLease_eq_some (hl ▸ hls)).1) (hd₁ ▸ hleft) hig hdis
      (by rw [hagain.pxe, ← harr]; exact hopen) ?_ ha hmemory]
  · subst hd₁
    simp only [isPxeRequest, hagain.pxe]
  · intro ho
    rw [hsid, serverId, if_pos ho] at hsid'
    exact Option.some.inj hsid'

def newcomer (a : InAddr) : Request :=
  { chaddr := [2, 0, 0, 0, 0, 1], messageType := some dhcpdiscover, requestedIp := some a }

/-- An address of the second network is offered and acknowledged. -/
theorem dhcpReply_selecting_acks_secondNet :
    ∃ r, ((twoRoutersDaemon.dhcpReply (newcomer 0xc0a8024d)
      { context := [0, 1], now := 200 }).2.dhcpReply
        ((newcomer 0xc0a8024d).selecting 0xc0a8024d 0xc0a80201)
        { context := [0, 1], now := 201 }).1 = some r ∧ r.type = .dhcpack ∧
        r.yiaddr = 0xc0a8024d := by
  let r : Reply := { type := .dhcpoffer, yiaddr := 0xc0a8024d, leaseTime := some 3600
                     serverIdentifier := some 0xc0a80201 }
  have hr : (twoRoutersDaemon.dhcpReply (newcomer 0xc0a8024d) { context := [0, 1], now := 200 }).1 =
      some r := by decide +kernel
  refine (dhcpReply_selecting_acks_iff twoRoutersDaemon (newcomer 0xc0a8024d)
    { context := [0, 1], now := 200 } { context := [0, 1], now := 201 }
    (fun _ _ _ _ _ h => by simp [twoRoutersDaemon] at h) List.Pairwise.nil (by decide) rfl hr rfl
    (by decide) rfl ⟨rfl, rfl, rfl⟩ rfl).mpr ⟨by decide, by decide, 1, by decide +kernel, .inl ?_⟩
  decide +kernel

/-- The server's own address on the second network is offered and then refused. -/
theorem dhcpReply_offer_refused :
    twoRoutersDaemon.dhcpConf = [] ∧ twoRoutersDaemon.db.leasesLeft = 10 ∧
    (twoRoutersDaemon.dhcpReply (newcomer 0xc0a80201) { context := [0, 1], now := 200 }).1 =
      some { type := .dhcpoffer, yiaddr := 0xc0a80201, leaseTime := some 3600
             serverIdentifier := some 0xc0a80201 } ∧
    ((twoRoutersDaemon.dhcpReply (newcomer 0xc0a80201)
      { context := [0, 1], now := 200 }).2.dhcpReply
      ((newcomer 0xc0a80201).selecting 0xc0a80201 0xc0a80201) { context := [0, 1], now := 201 }).1 =
      some { type := .dhcpnak, yiaddr := 0, message := some "address not available"
             serverIdentifier := some 0xc0a80201 } := by
  refine ⟨rfl, rfl, ?_⟩
  decide +kernel

end Daemon

end Dnsmasq.Dhcp
