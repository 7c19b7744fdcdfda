import Dnsmasq.Dhcp.LeaseInvariant

/-!
A DHCPACK leaves behind a lease for the acknowledged address that belongs to the client and runs as
long as the reply says.
-/
namespace Dnsmasq.Dhcp

open List

/-- When a lease of `len` seconds given at `now` ends; zero is never. -/
def expiry (len now : ℕ) : ℕ := if len = Lease.infinite ∨ len = 0 then 0 else now + len

theorem leaseSetExpires_expires (l : Lease) (len now : ℕ) :
    (l.leaseSetExpires len now).expires = expiry len now := by
  simp only [Lease.leaseSetExpires, expiry]
  split_ifs with h1 h2 h3 h4
  · rfl
  · tauto
  · rfl
  · omega
  · omega
  · rfl

theorem leaseSetHwaddr_clid (l : Lease) (hwaddr : Bytes) (hwType : ℕ) {c : Bytes} (hc : c ≠ []) :
    (l.leaseSetHwaddr hwaddr hwType (some c) true).clid = some c := by
  cases c with
  | nil => exact absurd rfl hc
  | cons b rest => simp [Lease.leaseSetHwaddr]

/-- The lease is the one that `r` grants to the client of `s`. -/
structure Lease.Backs (l : Lease) (s : Session) (r : Reply) : Prop where
  v4 : l.v6 = false
  addr : l.addr = r.yiaddr
  hwaddr : l.hwaddr = some s.req.chaddr ∧ l.hwaddrType = s.req.htype
  clid : ∀ c, s.clid = some c → c ≠ [] → s.arrival.clidMemory = true → l.clid = some c
  expires : ∃ len, r.leaseTime = some len ∧ l.expires = expiry len s.arrival.now

namespace Daemon

variable {d : Daemon} {s : Session} {r : Reply}

variable {l : Lease} {yiaddr override : InAddr} {i : ℕ} {rapid selecting : Bool} {context : List ℕ}
    {lease : Option Lease} {message : Option String} {req : Request} {arrival : Arrival}

theorem ackReply_backs {c : Context}
    (hmem : l ∈ d.db.leases) (h4 : l.v6 = false) (haddr : l.addr = yiaddr)
    (hr : (d.ackReply s l yiaddr i c override rapid).1 = some r) :
    ∃ l' ∈ (d.ackReply s l yiaddr i c override rapid).2.db.leases, l'.Backs s r := by
  simp only [ackReply, Option.some.injEq] at hr
  set time := calcTime c (d.config s.config) s.req.leaseTime with htime
  have hframe := l.grant_frame s.req s.clid s.arrival.clidMemory time s.arrival.now override
  refine ⟨l.grant s.req s.clid s.arrival.clidMemory time s.arrival.now override, ?_, ?_⟩
  · exact List.mem_map.mpr ⟨l, hmem, by simp [htime]⟩
  subst hr
  refine ⟨hframe.2.2.trans h4, hframe.2.1.trans haddr, ?_, fun c hc hne hmemory => ?_,
    time, rfl, ?_⟩
  · obtain ⟨clid', h⟩ := l.leaseSetHwaddr_frame s.req.chaddr s.req.htype s.clid
      s.arrival.clidMemory
    simp only [Lease.grant, Lease.leaseSetExpires, h, and_self]
  · rw [hc, hmemory]
    exact leaseSetHwaddr_clid l s.req.chaddr s.req.htype hne
  · exact leaseSetExpires_expires
      (l.leaseSetHwaddr s.req.chaddr s.req.htype s.clid s.arrival.clidMemory) time s.arrival.now

theorem nakReply_type {message : String}
    (h : d.nakReply s context override rapid message = some r) : r.type = .dhcpnak := by
  unfold nakReply at h
  split_ifs at h
  cases h
  rfl

theorem checkRequest_some {routed : Bool}
    (h : d.checkRequest s lease yiaddr i routed selecting = .ok (some l)) :
    lease = some l ∨ d.db.leaseFindByAddr yiaddr = some l := by
  unfold checkRequest at h
  dsimp only at h
  split_ifs at h
  split at h
  · split_ifs at h
    cases h
    exact .inr (by assumption)
  · cases h
    exact .inl rfl

/-- A request is refused, or it is acknowledged after all tests, on the lease given or on one for
the requested address. -/
theorem commitReply_cases
    (hr : (d.commitReply s context lease yiaddr override selecting rapid message).1 = some r) :
    r.type = .dhcpnak ∨ r.type = .dhcpack ∧ r.yiaddr = yiaddr ∧ s.emac ≠ [] ∧ ∃ i lease' routed,
      d.narrowContext context yiaddr s.tagif = some i ∧
      d.checkRequest s lease yiaddr i routed selecting = .ok lease' ∧
      ∃ (d' : Daemon) (l : Lease) (c : Context),
        d.commitReply s context lease yiaddr override selecting rapid message =
          d'.ackReply s l yiaddr i c override rapid ∧
        ((d' = d ∧ lease = some l) ∨ (l ∈ d'.db.leases ∧ l.v6 = false ∧ l.addr = yiaddr)) := by
  revert hr
  unfold commitReply
  split
  · exact fun hr => .inl (nakReply_type hr)
  split
  · exact fun hr => .inl (nakReply_type hr)
  rename_i i hi
  dsimp only
  split
  · exact fun hr => .inl (nakReply_type hr)
  · exact fun hr => by cases hr
  rename_i lease' c hcheck _
  split
  · exact fun hr => .inl (nakReply_type hr)
  rename_i hemac
  have hemac : s.emac ≠ [] := by simpa using hemac
  split
  · rename_i l
    intro hr
    cases hr
    refine .inr ⟨rfl, rfl, hemac, i, some l, _, hi, hcheck, d, l, c, rfl, ?_⟩
    rcases checkRequest_some hcheck with h | h
    · exact .inl ⟨rfl, h⟩
    · exact .inr (LeaseDb.leaseFindByAddr_eq_some h)
  split
  · exact fun hr => .inl (nakReply_type hr)
  · rename_i l db halloc
    obtain ⟨haddr, h4, hleases, -⟩ := LeaseDb.leaseAllocate_eq_some halloc
    intro hr
    cases hr
    exact .inr ⟨rfl, rfl, hemac, i, none, _, hi, hcheck, { d with db }, l, c, rfl,
      .inr ⟨by simp [hleases], h4, haddr⟩⟩

theorem commitReply_yiaddr
    (hr : (d.commitReply s context lease yiaddr override selecting rapid message).1 = some r)
    (hack : r.type = .dhcpack) : r.yiaddr = yiaddr := by
  obtain hnak | ⟨-, hy, -⟩ := commitReply_cases hr
  · rw [hnak] at hack
    cases hack
  · exact hy

theorem commitReply_backs (hlease : ∀ l, lease = some l → l ∈ d.db.leases ∧ l.v6 = false ∧
    l.addr = yiaddr) (hr :
    (d.commitReply s context lease yiaddr override selecting rapid message).1 = some r)
    (hack : r.type = .dhcpack) : s.emac ≠ [] ∧
      ∃ l ∈ (d.commitReply s context lease yiaddr override selecting rapid message).2.db.leases,
        l.Backs s r := by
  obtain hnak | ⟨-, -, hemac, i, _, _, -, -, d', l, c, heq, hl⟩ := commitReply_cases hr
  · rw [hnak] at hack
    cases hack
  rw [heq] at hr ⊢
  refine ⟨hemac, ?_⟩
  rcases hl with ⟨rfl, hl⟩ | hl
  · obtain ⟨hmem, h4, haddr⟩ := hlease l hl
    exact ackReply_backs hmem h4 haddr hr
  · exact ackReply_backs hl.1 hl.2.1 hl.2.2 hr

section

variable (hlease : ∀ l, s.lease = some l → l ∈ d.db.leases ∧ l.v6 = false)
include hlease

theorem requestReply_backs (hr : (d.requestReply s).1 = some r) (hack : r.type = .dhcpack) :
    s.emac ≠ [] ∧ ∃ l ∈ (d.requestReply s).2.db.leases, l.Backs s r := by
  revert hr
  unfold requestReply
  split
  · exact fun hr => by cases hr
  split
  · -- SELECTING: a lease for another address has been dropped, one for this is kept.
    rename_i yiaddr sid _ _
    split
    · exact fun hr => by cases hr
    refine fun hr => commitReply_backs (fun l hl => ?_) hr hack
    obtain ⟨hsome, haddr⟩ := Option.filter_eq_some_iff.mp hl
    have hkept : s.lease.filter (·.addr ≠ yiaddr) = none := by
      simp only [hsome, Option.filter_some, decide_eq_true_eq] at haddr ⊢
      simp [haddr]
    rw [hkept]
    exact ⟨(hlease l hsome).1, (hlease l hsome).2, by simpa using haddr⟩
  · -- INIT-REBOOT: a lease for another address is refused.
    rename_i yiaddr _ _
    split
    · exact fun hr => by cases hr
    intro hr
    by_cases hother : s.lease.any (·.addr ≠ yiaddr) = true
    · simp only [hother, if_true, commitReply] at hr
      rw [nakReply_type hr] at hack
      cases hack
    · refine commitReply_backs (fun l hl => ?_) hr hack
      refine ⟨(hlease l hl).1, (hlease l hl).2, ?_⟩
      simpa [hl] using hother
  -- RENEWING or REBINDING
  split
  · exact fun hr => by cases hr
  intro hr
  by_cases hmissing : d.renewalMissing s = true
  · simp only [hmissing, if_true, commitReply] at hr
    rw [nakReply_type hr] at hack
    cases hack
  refine commitReply_backs (fun l hl => ?_) hr hack
  refine ⟨(hlease l hl).1, (hlease l hl).2, ?_⟩
  simp only [renewalMissing, hl, decide_eq_true_eq, ne_eq, not_not] at hmissing
  exact hmissing.symm

theorem discoverReply_backs (hr : (d.discoverReply s).1 = some r) (hack : r.type = .dhcpack)
    (hsame : ∀ l, s.lease = some l → l.addr = r.yiaddr) :
    s.emac ≠ [] ∧ ∃ l ∈ (d.discoverReply s).2.db.leases, l.Backs s r := by
  obtain ⟨-, -, yiaddr, d', i, h, -, hcommit | ⟨hoffer, -⟩⟩ := discoverReply_cases hr
  · have hdb := discoverAddress_db d s
    rw [h] at hdb
    rw [hcommit] at hr ⊢
    have hy := commitReply_yiaddr hr hack
    have hback := commitReply_backs (fun l hl => ?_) hr hack
    · obtain ⟨hemac, l, hl, hb⟩ := hback
      exact ⟨hemac, l, hl, hb.v4, hb.addr, hb.hwaddr, hb.clid, hb.expires⟩
    · rw [hdb]
      exact ⟨(hlease l hl).1, (hlease l hl).2, (hsame l hl).trans hy⟩
  · rw [hoffer] at hack
    cases hack

end

/-- A request to the boot service: one for a boot server, or one sent to the proxy port. -/
def isPxeRequest (d : Daemon) (req : Request) (arrival : Arrival) : Bool :=
  d.enablePxe && req.pxeClient && (req.bootItem.isSome || (req.arch.isSome && arrival.pxe))

theorem pxeReply_request (hmsg : s.messType = dhcprequest)
    (hpxe : d.isPxeRequest s.req s.arrival = false) : d.pxeReply s = none := by
  simp only [isPxeRequest, Bool.and_eq_false_iff, Bool.or_eq_false_iff] at hpxe
  unfold pxeReply
  split
  · rfl
  rename_i hon
  simp only [Bool.or_eq_true, Bool.not_eq_true', not_or, Bool.not_eq_false] at hon
  have hoff : s.req.bootItem.isSome = false ∧
      (s.req.arch.isSome = false ∨ s.arrival.pxe = false) := by
    rcases hpxe with (h | h) | h
    · rw [hon.1] at h; cases h
    · rw [hon.2] at h; cases h
    · exact h
  split
  · rename_i h
    simp [h] at hoff
  unfold pxeReply.proxyReply
  rw [if_neg]
  rintro ⟨harch, hdisc | ⟨hport, -⟩⟩
  · rw [hmsg] at hdisc; cases hdisc
  · rcases hoff.2 with h | h
    · rw [harch] at h; cases h
    · rw [hport] at h; cases h

/-- The boot service offers no address, and acknowledges none to a client that discovers. -/
theorem pxeReply_cases (h : d.pxeReply s = some (some r)) :
    r.type = .dhcpack ∧ s.messType ≠ dhcpdiscover ∨ r.type = .dhcpoffer ∧ r.yiaddr = 0 := by
  have hproxy {f : ℕ → Option InAddr} (h : pxeReply.proxyReply d s f = some (some r)) :
      r.type = .dhcpack ∧ s.messType ≠ dhcpdiscover ∨ r.type = .dhcpoffer ∧ r.yiaddr = 0 := by
    unfold pxeReply.proxyReply at h
    split at h
    · split at h
      · cases h
      split at h
      · cases h
      · cases h
        by_cases hmsg : s.messType = dhcpdiscover <;> simp [hmsg]
    · cases h
  unfold pxeReply at h
  dsimp only at h
  split at h
  · cases h
  split at h
  · split at h
    · rename_i hmsg
      split at h
      · cases h
      split at h
      · cases h
      · cases h
        exact .inl ⟨rfl, by rcases hmsg with hmsg | hmsg <;> rw [hmsg] <;> decide⟩
    · exact hproxy h
  · exact hproxy h

theorem dispatchReply_request (hmsg : s.messType = dhcprequest)
    (hpxe : d.isPxeRequest s.req s.arrival = false) (hr : (d.dispatchReply s).1 = some r) :
    d.dispatchReply s = d.requestReply s := by
  revert hr
  simp only [dispatchReply, pxeReply_request hmsg hpxe, hmsg]
  split
  · exact fun hr => by cases hr
  · exact fun _ => rfl

theorem dispatchReply_discover (hmsg : s.messType = dhcpdiscover)
    (hr : (d.dispatchReply s).1 = some r) (hack : r.type = .dhcpack) :
    d.dispatchReply s = d.discoverReply s := by
  revert hr
  unfold dispatchReply
  split
  · rename_i reply h
    intro hr
    dsimp only at hr
    rw [hr] at h
    rcases pxeReply_cases h with h | h
    · exact absurd hmsg h.2
    · rw [h.1] at hack
      cases hack
  simp only [hmsg]
  split
  · exact fun hr => by cases hr
  · exact fun _ => rfl

/-- The session in which `dhcp_reply` handles a request that is not BOOTP. -/
def clientSession (d : Daemon) (req : Request) (arrival : Arrival) : Session :=
  let found := d.selectContext arrival.context req.clearCiaddr.giaddr req.clearCiaddr.subnetSelect
    req.clearCiaddr.ciaddr arrival.fallback
  found.1.session req.clearCiaddr arrival found.2

theorem selectContext_fst (d : Daemon) (context : List ℕ)
    (giaddr subnetAddr ciaddr fallback : InAddr) :
    ∃ dhcp, (d.selectContext context giaddr subnetAddr ciaddr fallback).1 = { d with dhcp } := by
  unfold selectContext
  dsimp only
  split_ifs <;> exact ⟨_, rfl⟩

theorem clearCiaddr_eq (req : Request) : ∃ ciaddr, req.clearCiaddr = { req with ciaddr } := by
  unfold Request.clearCiaddr
  split_ifs <;> exact ⟨_, rfl⟩

theorem clientLease_eq_some (h : d.clientLease req = some l) : l ∈ d.db.leases ∧ l.v6 = false := by
  unfold clientLease at h
  split_ifs at h
  exact LeaseDb.leaseFindByClient_eq_some h

theorem session_clid_ne_nil {c : Bytes}
    (hemac : (d.session req arrival context).emac ≠ []) (hc : req.chaddr = [])
    (hclid : (d.session req arrival context).clid = some c) : c ≠ [] := by
  rintro rfl
  simp only [session] at hemac hclid
  split_ifs at hclid
  rw [hclid, hc] at hemac
  split_ifs at hemac
  · exact hemac rfl
  · exact hemac rfl

theorem dhcpReply_session {t : ℕ}
    (ht : req.messageType = some t) (h0 : t ≠ 0) (hr : (d.dhcpReply req arrival).1 = some r) :
    ∃ dhcp, d.dhcpReply req arrival = { d with dhcp }.dispatchReply (d.clientSession req arrival) ∧
      (d.clientSession req arrival).lease = d.clientLease req ∧
      (d.clientSession req arrival).messType = t := by
  obtain ⟨ciaddr, hreq⟩ := clearCiaddr_eq req
  revert hr
  unfold dhcpReply clientSession
  split
  · exact fun hr => by cases hr
  split
  · exact fun hr => by cases hr
  split
  · exact fun hr => by cases hr
  dsimp only
  rw [hreq]
  obtain ⟨dhcp, hd⟩ := selectContext_fst d arrival.context req.giaddr req.subnetSelect ciaddr
    arrival.fallback
  split
  · exact fun hr => by cases hr
  rename_i d' context _ hsel
  rw [hsel] at hd ⊢
  dsimp only at hd
  rw [hd, if_neg (by simp [ht, h0])]
  exact fun _ => ⟨dhcp, rfl, rfl, by simp [session, ht]⟩

/-- Every DHCPACK for a REQUEST outside the boot service, and for a rapid-commit DISCOVER
of a client that has no lease for another address, is backed by a lease for the address in
the reply. The lease belongs to the client, by its hardware address or, where it has none,
by its client-id, and ends when the lease time in the reply is over; it never ends if that time is
infinite, or zero, which the option parser does not let through. -/
theorem dhcpReply_ack_backed (req : Request) (arrival : Arrival)
    (hr : (d.dhcpReply req arrival).1 = some r) (hack : r.type = .dhcpack)
    (hmsg : (req.messageType = some dhcprequest ∧ d.isPxeRequest req arrival = false) ∨
      (req.messageType = some dhcpdiscover ∧ ∀ l, d.clientLease req = some l → l.addr = r.yiaddr))
    (hid : req.chaddr = [] →
      (d.clientSession req arrival).clid.isSome = true ∧ arrival.clidMemory = true) :
    ∃ l ∈ (d.dhcpReply req arrival).2.db.leases, l.v6 = false ∧ l.addr = r.yiaddr ∧
      ((req.chaddr ≠ [] ∧ l.hwaddr = some req.chaddr ∧ l.hwaddrType = req.htype) ∨
        ∃ c ≠ [], (d.clientSession req arrival).clid = some c ∧ l.clid = some c) ∧
      ∃ len, r.leaseTime = some len ∧
        ((len ≠ Lease.infinite ∧ len ≠ 0 ∧ l.expires = arrival.now + len) ∨
          ((len = Lease.infinite ∨ len = 0) ∧ l.expires = 0)) := by
  obtain ⟨ciaddr, hreq⟩ := clearCiaddr_eq req
  have hsession : (d.clientSession req arrival).req = { req with ciaddr } ∧
      (d.clientSession req arrival).arrival = arrival := by
    rw [← hreq]
    exact ⟨rfl, rfl⟩
  set s := d.clientSession req arrival with hs
  have hback : s.emac ≠ [] ∧ ∃ l ∈ (d.dhcpReply req arrival).2.db.leases, l.Backs s r := by
    rcases hmsg with ⟨ht, hpxe⟩ | ⟨ht, hsame⟩
    · obtain ⟨dhcp, heq, hlease, hmt⟩ := dhcpReply_session ht (by decide) hr
      rw [heq] at hr ⊢
      have hpxe' : { d with dhcp }.isPxeRequest s.req s.arrival = false := by
        rw [hsession.1]
        exact hpxe
      have hdisp := dispatchReply_request hmt hpxe' hr
      rw [hdisp] at hr ⊢
      exact requestReply_backs (fun l hl => clientLease_eq_some (hlease ▸ hl)) hr hack
    obtain ⟨dhcp, heq, hlease, hmt⟩ := dhcpReply_session ht (by decide) hr
    rw [heq] at hr ⊢
    have hdisp := dispatchReply_discover hmt hr hack
    rw [hdisp] at hr ⊢
    exact discoverReply_backs (fun l hl => clientLease_eq_some (hlease ▸ hl)) hr hack
      fun l hl => hsame l (hlease ▸ hl)
  obtain ⟨hemac, l, hmem, hl⟩ := hback
  refine ⟨l, hmem, hl.v4, hl.addr, ?_, ?_⟩
  · have hhw := hl.hwaddr
    simp only [hsession.1] at hhw
    by_cases hc : req.chaddr = []
    · obtain ⟨hsome, hmemory⟩ := hid hc
      obtain ⟨c, hclid⟩ := Option.isSome_iff_exists.mp hsome
      have hne : c ≠ [] := session_clid_ne_nil hemac (by rw [hreq]; exact hc) hclid
      exact .inr ⟨c, hne, hclid, hl.clid c hclid hne (hsession.2 ▸ hmemory)⟩
    · exact .inl ⟨hc, hhw⟩
  obtain ⟨len, hlen, hexp⟩ := hl.expires
  refine ⟨len, hlen, ?_⟩
  rw [hexp, expiry]
  split_ifs with h
  · exact .inr ⟨h, rfl⟩
  · exact .inl ⟨fun h' => h (.inl h'), fun h' => h (.inr h'), rfl⟩

def renewalRequest : Request :=
  { chaddr := [2, 0, 0, 0, 0, 1], messageType := some dhcprequest, ciaddr := 0xc0a8000a }

def renewalReply : Reply :=
  { type := .dhcpack, yiaddr := 0xc0a8000a, leaseTime := some 3600
    serverIdentifier := some 0xc0a80001 }

theorem dhcpReply_ack_backed_renewal :
    ∃ l ∈ (officeDaemon.dhcpReply renewalRequest { context := [0], now := 200 }).2.db.leases,
      l.v6 = false ∧ l.addr = renewalReply.yiaddr ∧
      ((renewalRequest.chaddr ≠ [] ∧ l.hwaddr = some renewalRequest.chaddr ∧
          l.hwaddrType = renewalRequest.htype) ∨
        ∃ c ≠ [], (officeDaemon.clientSession renewalRequest { context := [0], now := 200 }).clid =
          some c ∧ l.clid = some c) ∧
      ∃ len, renewalReply.leaseTime = some len ∧
        ((len ≠ Lease.infinite ∧ len ≠ 0 ∧ l.expires = 200 + len) ∨
          ((len = Lease.infinite ∨ len = 0) ∧ l.expires = 0)) :=
  dhcpReply_ack_backed renewalRequest { context := [0], now := 200 } (by decide +kernel) rfl
    (.inl ⟨rfl, rfl⟩) (fun h => by cases h)

theorem ordered_bootRange : (0xc0a8000a : InAddr).toNat ≤ (0xc0a8000c : InAddr).toNat := by decide

def bootDaemon : Daemon where
  db := .noLeases 10
  dhcp := [{ netmask := 0xffffff00, start := 0xc0a8000a, stop := 0xc0a8000c,
             localAddr := 0xc0a80001, router := 0xc0a80001, ordered := ordered_bootRange }]
  enablePxe := true
  pxeServices := [{ type := 7, basename := some [112, 120, 101] }]

/-- A request to the boot service is acknowledged without any lease. -/
theorem dhcpReply_ack_unbacked : (bootDaemon.dhcpReply
      { chaddr := [2, 0, 0, 0, 0, 1], messageType := some dhcprequest, ciaddr := 0xc0a80032
        pxeClient := true, bootItem := some (7, 0) } { context := [0], now := 200 }).1 =
      some { type := .dhcpack, yiaddr := 0xc0a80032, serverIdentifier := some 0xc0a80001 } ∧
    (bootDaemon.dhcpReply
      { chaddr := [2, 0, 0, 0, 0, 1], messageType := some dhcprequest, ciaddr := 0xc0a80032
        pxeClient := true, bootItem := some (7, 0) }
      { context := [0], now := 200 }).2.db.leases = [] := by
  decide +kernel

end Daemon

def LeaseDb.Distinct (db : LeaseDb) : Prop :=
  db.leases.Pairwise fun l₁ l₂ => l₁.v6 = false → l₂.v6 = false → l₁.addr ≠ l₂.addr

namespace Daemon

/-- No two `dhcp-host` lines have the same address; the option parser sees to that. -/
def DistinctHosts (d : Daemon) : Prop :=
  ∀ (i j : ℕ) (c c' : Config) (a : InAddr), d.dhcpConf[i]? = some c →
    d.dhcpConf[j]? = some c' → c.addr = some a → c'.addr = some a → i = j

variable {d : Daemon} {s : Session} {a : InAddr}

variable {j i : ℕ} {context : List ℕ} {db : LeaseDb} {l : Lease} {lease : Option Lease}
  {selecting : Bool}
    {override : InAddr} {message : Option String} {r : Reply}

theorem configFindByAddress_eq_some (h : d.configFindByAddress a = some j) :
    ∃ c, d.dhcpConf[j]? = some c ∧ c.addr = some a := by
  obtain ⟨hj, hp, -⟩ := findIdx?_eq_some_iff_getElem.mp h
  exact ⟨_, getElem?_eq_getElem hj, by simpa using hp⟩

theorem configFindByAddress_isSome {c : Config} (hc : d.dhcpConf[j]? = some c)
    (ha : c.addr = some a) : (d.configFindByAddress a).isSome = true := by
  rw [configFindByAddress, findIdx?_isSome, any_eq_true]
  exact ⟨c, mem_of_getElem? hc, by simp [ha]⟩

theorem configFindByAddress_own (hconf : d.DistinctHosts) {config : Option ℕ}
    (h : (d.config config).bind (·.addr) = some a) : d.configFindByAddress a = config := by
  obtain ⟨c, hc, ha⟩ := Option.bind_eq_some_iff.mp h
  obtain ⟨j, rfl, hj⟩ := Option.bind_eq_some_iff.mp hc
  obtain ⟨k, hk⟩ := Option.isSome_iff_exists.mp (configFindByAddress_isSome hj ha)
  obtain ⟨c', hc', ha'⟩ := configFindByAddress_eq_some hk
  rw [hk, hconf k j c' c a hc' hj ha' ha]

theorem narrowContext_valid {tags : List Tag}
    (h : d.narrowContext context a tags = some i) : ∃ c, d.dhcp[i]? = some c := by
  have hany {p : Context → Bool} (h : context.find? (fun i => d.dhcp[i]?.any p) = some i) :
      ∃ c, d.dhcp[i]? = some c := by
    have hp := find?_some h
    cases hc : d.dhcp[i]? with
    | none => simp [hc] at hp
    | some c => exact ⟨c, rfl⟩
  simp only [narrowContext, Option.orElse_eq_orElse, Option.orElse_eq_or,
    Option.or_eq_some_iff] at h
  rcases h with h | ⟨-, h | ⟨-, h⟩⟩
  · unfold addressAvailable at h
    split at h
    · cases h
    · exact hany h
  · exact hany h
  · exact hany h

theorem leaseFindByAddr_of_mem (hdb : db.Distinct)
    (hl : l ∈ db.leases) (h4 : l.v6 = false) : db.leaseFindByAddr l.addr = some l := by
  cases hfind : db.leaseFindByAddr l.addr with
  | none => exact absurd rfl (LeaseDb.leaseFindByAddr_eq_none hfind l hl h4)
  | some l' =>
    obtain ⟨hl', h4', haddr⟩ := LeaseDb.leaseFindByAddr_eq_some hfind
    by_contra hne
    have : Std.Symm fun l₁ l₂ : Lease =>
        l₁.v6 = false → l₂.v6 = false → l₁.addr ≠ l₂.addr := ⟨fun _ _ h h₂ h₁ => (h h₁ h₂).symm⟩
    exact hdb.forall hl' hl (fun h => hne (by rw [h])) h4' h4 haddr

/-- What is left of a running lease of somebody else when the client's own is squashed. -/
theorem leaseFindByAddr_leasePrune (hdb : db.Distinct)
    (hl : l ∈ db.leases) (h4 : l.v6 = false) {target : Option ℕ} {now : ℕ}
    (hexp : LeaseDb.expired l now = false) (ht : target ≠ some l.id) :
    (db.leasePrune target now).leaseFindByAddr l.addr = some l := by
  refine leaseFindByAddr_of_mem (hdb.sublist filter_sublist) ?_ h4
  exact mem_filter.mpr ⟨hl, by simp [hexp, ht]⟩

theorem offeredConfigAddr_eq_some (h : d.offeredConfigAddr s = some a) :
    (d.config s.config).bind (·.addr) = some a ∧
      ∀ l, d.db.leaseFindByAddr a = some l → (∃ own, s.lease = some own ∧ own.id = l.id) ∨
        (d.config s.config).any (configHasMac · l.hwaddr l.hwaddrType) = true := by
  unfold offeredConfigAddr at h
  split at h
  · cases h
  rename_i config hc
  obtain ⟨haddr, hp⟩ := Option.filter_eq_some_iff.mp h
  simp only [decide_eq_true_eq, Bool.not_eq_true'] at hp
  refine ⟨by simp [hc, haddr], fun l hl => ?_⟩
  have hother := hp.2.1
  simp only [hl, Option.any_some, Bool.and_eq_false_iff, Bool.not_eq_false'] at hother
  rcases hother with hown | hmac
  · cases ho : s.lease with
    | none => simp [ho] at hown
    | some own => exact .inl ⟨own, rfl, by simpa [ho] using hown⟩
  · exact .inr (by simpa [hc] using hmac)

/-- What the checks of a request for the address let pass. -/
structure Grantable (d : Daemon) (s : Session) (lease : Option Lease) (a : InAddr) (i : ℕ) :
    Prop where
  available : (d.addressAvailable [i] a s.tagif).isSome = true ∨
    (d.config s.config).bind (·.addr) = some a
  host : ∀ j, d.configFindByAddress a = some j → s.config = some j
  mac : lease = none → ∀ l, d.db.leaseFindByAddr a = some l →
    (d.config s.config).any (configHasMac · l.hwaddr l.hwaddrType) = true

theorem checkRequest_ok {lease' : Option Lease} {routed : Bool}
    (h : d.checkRequest s lease a i routed selecting = .ok lease') :
    d.Grantable s lease a i := by
  unfold checkRequest at h
  dsimp only at h
  split_ifs at h with h1 h2 h3
  refine ⟨?_, ?_, ?_⟩
  · by_cases hav : (d.addressAvailable [i] a s.tagif).isNone = true
    · exact .inr (by tauto)
    · exact .inl (by simpa [Option.isSome_iff_ne_none] using hav)
  · intro j hj
    simp only [hj, Option.any_some, decide_eq_true_eq, ne_eq, not_not] at h3
    exact h3.symm
  rintro rfl l hl
  simp only [hl] at h
  split_ifs at h with hmac
  exact hmac

theorem requestReply_type (hr : (d.requestReply s).1 = some r) :
    r.type = .dhcpnak ∨ r.type = .dhcpack := by
  have hcommit {d : Daemon} {context : List ℕ} {lease : Option Lease} {yiaddr override : InAddr}
      {selecting rapid : Bool} {message : Option String}
      (h : (d.commitReply s context lease yiaddr override selecting rapid message).1 = some r) :
      r.type = .dhcpnak ∨ r.type = .dhcpack := (commitReply_cases h).imp_right And.left
  unfold requestReply at hr
  split at hr
  · cases hr
  split at hr
  · split at hr
    · cases hr
    · exact hcommit hr
  · split at hr
    · cases hr
    · exact hcommit hr
  · split at hr
    · cases hr
    · exact hcommit hr

theorem checkRequest_selecting (h : d.Grantable s lease a i) :
    ∃ lease', (∀ routed, d.checkRequest s lease a i routed true = .ok lease') ∧
      (lease.isSome = true → lease'.isSome = true) := by
  have h1 : ¬((d.addressAvailable [i] a s.tagif).isNone = true ∧
      (d.config s.config).bind (·.addr) ≠ some a) := by
    rintro ⟨hnone, hne⟩
    rcases h.available with h | h
    · simp [Option.isNone_iff_eq_none.mp hnone] at h
    · exact hne h
  have h2 : ¬((d.configFindByAddress a).any fun j => some j ≠ s.config) = true := by
    cases hj : d.configFindByAddress a with
    | none => simp
    | some j => simp [h.host j hj]
  simp only [checkRequest, h1, h2, Bool.not_true, Bool.false_eq_true, false_and,
    and_false, if_false]
  cases lease with
  | some l => exact ⟨some l, fun _ => by simp, fun _ => rfl⟩
  | none =>
    cases hl : d.db.leaseFindByAddr a with
    | none => exact ⟨none, fun _ => rfl, fun h => by cases h⟩
    | some l =>
      have := h.mac rfl l hl
      exact ⟨some l, fun _ => by simp [this], fun _ => rfl⟩

theorem commitReply_grants (hi : d.narrowContext context a s.tagif = some i)
    (hgrant : d.Grantable s lease a i) (hemac : s.emac ≠ [])
    (hleft : lease.isSome = true ∨ d.db.leasesLeft ≠ 0 ∧ s.arrival.leaseMemory = true) :
    ∃ r, (d.commitReply s context lease a override true false none).1 = some r ∧
      r.type = .dhcpack ∧ r.yiaddr = a := by
  obtain ⟨c, hc⟩ := narrowContext_valid hi
  unfold commitReply
  simp only [hi]
  obtain ⟨lease', hcheck, hsome⟩ := checkRequest_selecting hgrant
  simp only [hcheck, hc, List.isEmpty_iff, hemac, if_false]
  cases lease' with
  | some l => exact ⟨_, rfl, rfl, rfl⟩
  | none =>
    have hnew : d.db.leasesLeft ≠ 0 ∧ s.arrival.leaseMemory = true := by
      rcases hleft with h | h
      · exact absurd (hsome h) (by simp)
      · exact h
    simp only [LeaseDb.lease4Allocate, LeaseDb.leaseAllocate, hnew.1, hnew.2, reduceCtorEq,
      or_self, if_false]
    exact ⟨_, rfl, rfl, rfl⟩

theorem requestReply_selecting {sid : InAddr}
    (hig : s.ignore = false) (hdis : d.disabled s.config = false)
    (hreq : s.req.requestedIp = some a) (hsid : s.req.serverIdentifier = some sid)
    (hserver : d.selectedServer s sid = some (context, override, message)) :
    d.requestReply s = (d.dropLease (s.lease.filter (·.addr ≠ a)) s.arrival.now).commitReply s
      context (s.lease.filter (·.addr = a)) a override true false message := by
  simp only [requestReply, hig, hdis, Bool.false_eq_true, or_self, if_false, hreq, hsid, hserver]

end Daemon

end Dnsmasq.Dhcp
