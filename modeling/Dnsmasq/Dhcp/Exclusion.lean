import Dnsmasq.Dhcp.Acknowledge

/-!
Which addresses an offer or an acknowledgement can name. Addresses leased to or configured for other
clients are never given away, but a router's is: the test looks at the router of the first range in
every turn.
-/
namespace Dnsmasq.Dhcp

open Option

namespace Daemon

variable (d : Daemon)

section

variable (s : Session) (a : InAddr)

/-- The address `a` is in `yiaddr` of a reply of the DISCOVER, SELECTING or INIT-REBOOT paths. -/
def Assigns : Prop :=
  ∃ r, ((d.discoverReply s).1 = some r ∨
      s.req.requestedIp.isSome = true ∧ (d.requestReply s).1 = some r) ∧
    (r.type = .dhcpoffer ∨ r.type = .dhcpack) ∧ r.yiaddr = a

/-- A lease that is running, is not the client's and does not belong to a hardware address
on the client's own `dhcp-host` line. -/
def HeldByOther : Prop :=
  ∃ l ∈ d.db.leases, l.v6 = false ∧ l.addr = a ∧ LeaseDb.expired l s.arrival.now = false ∧
    (∀ own, s.lease = some own → own.id ≠ l.id) ∧
    (d.config s.config).any (configHasMac · l.hwaddr l.hwaddrType) = false

def ReservedForOther : Prop :=
  ∃ j c, d.dhcpConf[j]? = some c ∧ c.addr = some a ∧ s.config ≠ some j

end

def Selectable (chain context : List ℕ) : Prop :=
  context = chain ∨
    ∃ sid, context = chain.dropWhile fun i => !d.dhcp[i]?.any (·.localAddr == sid)

def RoutersKept (chain : List ℕ) (tags : List Tag) (config : Option ℕ) : Prop :=
  ∀ c ∈ d.contexts chain,
    ((d.configFindByAddress c.router).isSome = true ∨
      d.addressAvailable chain c.router tags = none) ∧
    ∀ context i, d.Selectable chain context → d.narrowContext context c.router tags = some i →
      (d.config config).bind (·.addr) ≠ some c.router ∧
      ((d.configFindByAddress c.router).isSome = true ∨
        d.addressAvailable [i] c.router tags = none)

variable {d : Daemon} {s : Session} {a : InAddr}

/-- The address that a client is given in session `s` does not belong to anybody else. -/
structure Free (d : Daemon) (s : Session) (a : InAddr) : Prop where
  router : ∀ c ∈ d.contexts s.context, c.router ≠ a
  lease : ¬d.HeldByOther s a
  host : ¬d.ReservedForOther s a

theorem not_heldByOther (hdb : d.db.Distinct)
    (h : ∀ l, d.db.leaseFindByAddr a = some l → (∃ own, s.lease = some own ∧ own.id = l.id) ∨
      (d.config s.config).any (configHasMac · l.hwaddr l.hwaddrType) = true) :
    ¬d.HeldByOther s a := by
  rintro ⟨l, hl, h4, rfl, -, hown, hmac⟩
  obtain ⟨own, ho, hid⟩ | hmac' := h l (leaseFindByAddr_of_mem hdb hl h4)
  · exact hown own ho hid
  · rw [hmac'] at hmac
    cases hmac

theorem not_reservedForOther (hconf : d.DistinctHosts)
    (h : ∀ j, d.configFindByAddress a = some j → s.config = some j) : ¬d.ReservedForOther s a := by
  rintro ⟨j, c, hc, ha, hne⟩
  obtain ⟨k, hk⟩ := isSome_iff_exists.mp (configFindByAddress_isSome hc ha)
  obtain ⟨c', hc', ha'⟩ := configFindByAddress_eq_some hk
  rw [hconf j k c c' a hc hc' ha ha'] at hne
  exact hne (h k hk)

variable {r : Reply} {override : InAddr} {message : Option String}

/-- A request that gets through the tests, with the leases `db` that are left when they are
made, gets a free address. -/
theorem commitReply_free (hconf : d.DistinctHosts)
    (hkept : d.RoutersKept s.context s.tagif s.config) {db : LeaseDb}
    {lease : Option Lease} {selecting rapid : Bool} (hsel : d.Selectable s.context context)
    (hheld : ∀ l ∈ d.db.leases, l.v6 = false → l.addr = a →
      LeaseDb.expired l s.arrival.now = false → (∀ own, s.lease = some own → own.id ≠ l.id) →
      lease = none ∧ db.leaseFindByAddr a = some l)
    (hr : ({ d with db }.commitReply s context lease a override selecting rapid message).1 = some r)
    (hack : r.type = .dhcpack) : d.Free s a := by
  obtain hnak | ⟨-, -, -, i, lease', routed, hi, hcheck, -⟩ := commitReply_cases hr
  · rw [hnak] at hack
    cases hack
  obtain ⟨havail, hhost, hmac⟩ := checkRequest_ok hcheck
  refine ⟨?_, ?_, not_reservedForOther hconf hhost⟩
  · rintro c hc rfl
    obtain ⟨hown, hres⟩ := (hkept c hc).2 context i hsel hi
    rcases havail with havail | hconf
    · rcases hres with hres | hres
      · -- the reservation is the client's own
        obtain ⟨j, hj⟩ := isSome_iff_exists.mp hres
        obtain ⟨c', hc', ha'⟩ := configFindByAddress_eq_some hj
        have hsj : s.config = some j := hhost j hj
        exact hown (by simp [hsj, config, hc', ha'])
      have : d.addressAvailable [i] c.router s.tagif ≠ none := by
        rw [← isSome_iff_ne_none]
        exact havail
      exact this hres
    · exact hown hconf
  rintro ⟨l, hl, h4, ha, hexp, hown, hno⟩
  obtain ⟨hnone, hfind⟩ := hheld l hl h4 ha hexp hown
  have hyes : (d.config s.config).any (configHasMac · l.hwaddr l.hwaddrType) = true :=
    hmac hnone l hfind
  rw [hyes] at hno
  cases hno

theorem selectedServer_selectable {sid : InAddr}
    (h : d.selectedServer s sid = some (context, override, message)) :
    d.Selectable s.context context := by
  unfold selectedServer at h
  split at h
  · split at h <;> cases h
    exact .inl rfl
  have hempty : s.context.dropWhile (fun i => !d.dhcp[i]?.any (·.localAddr == sid)) = [] →
      d.Selectable s.context [] := fun h => .inr ⟨sid, h.symm⟩
  split at h
  · rename_i i rest hsuffix
    cases h
    exact .inr ⟨sid, hsuffix.symm⟩
  rename_i hsuffix
  split at h
  · cases h
    exact hempty hsuffix
  · split at h <;> cases h
    exact hempty hsuffix

section

variable (hconf : d.DistinctHosts) (hdb : d.db.Distinct) (hlease : ∀ l, s.lease = some l →
  l ∈ d.db.leases ∧ l.v6 = false) (hkept : d.RoutersKept s.context s.tagif s.config)
include hconf hdb hlease hkept

theorem Offered.free (ho : Offered d s a)
    (hn : (d.narrowContext s.context a s.tagif).isSome = true) : d.Free s a := by
  obtain ⟨i, hi⟩ := isSome_iff_exists.mp hn
  have hrouter (havail : (d.addressAvailable s.context a s.tagif).isSome = true)
      (hfind : d.configFindByAddress a = none) : ∀ c ∈ d.contexts s.context, c.router ≠ a := by
    rintro c hc rfl
    rcases (hkept c hc).1 with h | h
    · simp [hfind] at h
    · simp [h] at havail
  cases ho with
  | configured h =>
    obtain ⟨haddr, hl⟩ := offeredConfigAddr_eq_some h
    refine ⟨?_, not_heldByOther hdb hl, not_reservedForOther hconf ?_⟩
    · rintro c hc rfl
      exact ((hkept c hc).2 s.context i (.inl rfl) hi).1 haddr
    · rw [configFindByAddress_own hconf haddr]
      exact fun _ h => h
  | leased hl haddr havail hfind =>
    obtain ⟨hmem, h4⟩ := hlease _ hl
    refine ⟨hrouter havail hfind, not_heldByOther hdb ?_,
      not_reservedForOther hconf (by simp [hfind])⟩
    intro l' hl'
    rw [← haddr, leaseFindByAddr_of_mem hdb hmem h4] at hl'
    cases hl'
    exact .inl ⟨_, hl, rfl⟩
  | requested hfree havail hfind _ =>
    exact ⟨hrouter havail hfind, not_heldByOther hdb (by simp [hfree]),
      not_reservedForOther hconf (by simp [hfind])⟩
  | allocated hunused _ =>
    have hrouter := not_router_of_unused hunused
    simp only [unusedAddr, Bool.and_eq_true, isNone_iff_eq_none] at hunused
    exact ⟨hrouter, not_heldByOther hdb (by simp [hunused.1.1.2]),
      not_reservedForOther hconf (by simp [hunused.1.2])⟩

theorem discoverReply_free (hr : (d.discoverReply s).1 = some r)
    (ht : r.type = .dhcpoffer ∨ r.type = .dhcpack) : d.Free s r.yiaddr := by
  obtain ⟨hstill, hoffered⟩ := discoverAddress_offered d s
  obtain ⟨-, -, yiaddr, d', i, h, hi, hcases⟩ := discoverReply_cases hr
  rw [h] at hstill hoffered
  have hfree : d.Free s yiaddr :=
    (hoffered yiaddr rfl).free hconf hdb hlease hkept
      (by rw [← narrowContext_congr hstill, hi]; rfl)
  rcases hcases with hcommit | ⟨-, rfl, -⟩
  · rw [hcommit] at hr
    obtain hnak | ⟨-, rfl, -⟩ := commitReply_cases hr
    · rcases ht with ht | ht <;> rw [hnak] at ht <;> cases ht
    · exact hfree
  · exact hfree

theorem requestReply_free (hreq : s.req.requestedIp.isSome = true)
    (hr : (d.requestReply s).1 = some r) (hack : r.type = .dhcpack) : d.Free s r.yiaddr := by
  obtain ⟨yiaddr, hy⟩ := isSome_iff_exists.mp hreq
  -- a lease of the client for the address is the only one for it
  have hfree {context override selecting message} (hsel : d.Selectable s.context context)
      (hsame : ∀ own, s.lease = some own → own.addr = yiaddr)
      (hr : (d.commitReply s context s.lease yiaddr override selecting false message).1 = some r) :
      d.Free s yiaddr := by
    refine commitReply_free hconf hkept hsel ?_ hr hack
    rintro l hl h4 rfl - hne
    have hfind := leaseFindByAddr_of_mem hdb hl h4
    refine ⟨eq_none_iff_forall_not_mem.mpr fun own ho => hne own ho ?_, hfind⟩
    obtain ⟨hmem, h4'⟩ := hlease own ho
    rw [← hsame own ho, leaseFindByAddr_of_mem hdb hmem h4'] at hfind
    cases hfind
    rfl
  revert hr
  unfold requestReply
  split
  · exact fun hr => by cases hr
  rw [hy]
  split
  · -- SELECTING
    rename_i addr sid haddr hsid
    cases haddr
    split
    · exact fun hr => by cases hr
    rename_i context override message hselected
    have hsel := selectedServer_selectable hselected
    intro hr
    rw [commitReply_yiaddr hr hack]
    cases ho : s.lease with
    | none =>
      simp only [ho, filter_none] at hr
      exact hfree hsel (by simp [ho]) (by rw [ho]; exact hr)
    | some own =>
      rw [ho] at hr
      by_cases haddr : own.addr = yiaddr
      · simp only [haddr, filter_some, ne_eq, not_true, decide_false] at hr
        exact hfree hsel (by simp [ho, haddr]) (by rw [ho]; exact hr)
      simp only [haddr, filter_some, ne_eq, not_false_iff, decide_true, if_true,
        decide_false] at hr
      refine commitReply_free hconf hkept hsel ?_ hr hack
      rintro l hl h4 rfl hexp hne
      exact ⟨rfl, leaseFindByAddr_leasePrune hdb hl h4 hexp (by simpa using hne own ho)⟩
  · -- INIT-REBOOT
    rename_i addr haddr hsid
    cases haddr
    split
    · exact fun hr => by cases hr
    intro hr
    rw [commitReply_yiaddr hr hack]
    by_cases hsame : s.lease.any (·.addr ≠ yiaddr) = true
    · simp only [hsame, if_true, commitReply] at hr
      rw [nakReply_type hr] at hack
      cases hack
    · exact hfree (.inl rfl) (fun own ho => by simpa [ho] using hsame) hr
  · rename_i h
    cases h

end

theorem discoverReply_leased {l : Lease} (hig : s.ignore = false)
    (hdis : d.disabled s.config = false) (hconf : d.offeredConfigAddr s = none)
    (hl : s.lease = some l) (hi : d.addressAvailable s.context l.addr s.tagif = some i)
    (hhost : d.configFindByAddress l.addr = none) (hrapid : s.req.rapidCommit = false) :
    ∃ r, (d.discoverReply s).1 = some r ∧ r.type = .dhcpoffer ∧ r.yiaddr = l.addr := by
  have hn : d.narrowContext s.context l.addr s.tagif = some i := by simp [narrowContext, hi]
  obtain ⟨c, hc⟩ := narrowContext_valid hn
  have haddr : d.discoverAddress s = (some l.addr, d) := by
    simp only [discoverAddress, hconf, hl]
    rw [filter_some, if_pos (by simp [hi, hhost])]
  simp only [discoverReply, hig, hdis, Bool.false_eq_true, or_false, if_false, haddr, hn, hrapid,
    and_false, hc]
  exact ⟨_, rfl, rfl, rfl⟩

def someLease (id : ℕ) (addr : InAddr) : Lease :=
  { id, addr, v6 := false, clid := none, hwaddr := none, hwaddrType := 0, expires := 0
    override := 0 }

/-- A database with a lease for `a` and one for `b`. -/
def leasesOf (a b : InAddr) : LeaseDb :=
  { leases := [someLease 0 a, someLease 1 b], leasesLeft := 0, nextId := 2
    nodup := by simp [someLease], fresh := by simp [someLease] }

/-- A client that holds a lease for `a`, with the given ranges, tags and `dhcp-host` line. -/
def holder (chain : List ℕ) (tags : List Tag) (config : Option ℕ) (a : InAddr) (req : Request)
    (override : InAddr) : Session :=
  { req, arrival := { context := chain, now := 0 }, messType := 0, lease := some (someLease 0 a)
    clid := none, emac := [0], context := chain, config, netid := [], tagif := tags
    ignore := false, override }

variable {chain context : List ℕ} {tags : List Tag} {config : Option ℕ} {i : ℕ}

theorem selectedServer_of_selectable (hsel : d.Selectable chain context) (hne : context ≠ []) :
    ∃ sid override, ∀ s : Session, s.context = chain → s.override = override →
      d.selectedServer s sid = some (context, override, none) := by
  rcases hsel with rfl | ⟨sid, hsuffix⟩
  · refine ⟨1, 1, fun s hs ho => ?_⟩
    simp [selectedServer, hs, ho]
  · refine ⟨sid, 0, fun s hs ho => ?_⟩
    obtain ⟨i, rest, hcons⟩ := List.exists_cons_of_ne_nil hne
    simp [selectedServer, hs, ho, ← hsuffix, hcons]

theorem holder_requests (hdis : d.disabled config = false) (hsel : d.Selectable chain context)
    (hi : d.narrowContext context a tags = some i)
    (havail : (d.addressAvailable [i] a tags).isSome = true ∨
      (d.config config).bind (·.addr) = some a)
    (hhost : ∀ j, d.configFindByAddress a = some j → config = some j) :
    ∃ req override, d.Assigns (holder chain tags config a req override) a := by
  have hne : context ≠ [] := by
    rintro rfl
    simp [narrowContext, addressAvailable] at hi
  obtain ⟨sid, override, hserver⟩ := selectedServer_of_selectable hsel hne
  obtain ⟨s, hs⟩ : ∃ s, s = holder chain tags config a
    { chaddr := [], requestedIp := some a, serverIdentifier := some sid } override := ⟨_, rfl⟩
  obtain ⟨r, hr, ht, hy⟩ : ∃ r, (d.commitReply s context (some (someLease 0 a)) a override true
      false none).1 = some r ∧ r.type = .dhcpack ∧ r.yiaddr = a := by
    subst hs
    exact commitReply_grants hi ⟨havail, hhost, by simp⟩ (by simp [holder]) (.inl rfl)
  have hreply := requestReply_selecting (d := d) (s := s) (a := a) (by rw [hs]; rfl)
    (by rw [hs]; exact hdis) (by rw [hs]; rfl) (by rw [hs]; rfl)
    (hserver s (by rw [hs]; rfl) (by rw [hs]; rfl))
  have hlease : s.lease = some (someLease 0 a) := by rw [hs]; rfl
  simp only [hlease, filter_some, someLease, ne_eq, not_true, decide_false, decide_true,
    if_true, Bool.false_eq_true, if_false, dropLease] at hreply
  exact ⟨_, override, r, .inr ⟨rfl, by rw [← hs, hreply]; exact hr⟩, .inr ht, hy⟩

theorem holder_discovers (hdis : d.disabled config = false)
    (hi : d.addressAvailable chain a tags = some i) (hhost : d.configFindByAddress a = none)
    (hconf : d.offeredConfigAddr (holder chain tags config a { chaddr := [] } 0) = none) :
    d.Assigns (holder chain tags config a { chaddr := [] } 0) a := by
  obtain ⟨r, hr, ht, hy⟩ := discoverReply_leased (d := d)
    (s := holder chain tags config a { chaddr := [] } 0) (l := someLease 0 a) rfl hdis hconf rfl
    hi hhost rfl
  exact ⟨r, .inl hr, .inl ht, hy⟩

theorem offeredConfigAddr_taken {b : InAddr} (hab : a ≠ b)
    (hb : ∀ x, (d.config config).bind (·.addr) = some x → x = b) (req : Request)
    (override : InAddr) :
    { d with db := leasesOf a b }.offeredConfigAddr (holder chain tags config a req override) =
      none := by
  unfold offeredConfigAddr
  split
  · rfl
  rename_i c hc
  have hmac : configHasMac c none 0 = false := by simp [configHasMac]
  cases ha : c.addr with
  | none => rfl
  | some x =>
    have hc' : d.config config = some c := hc
    obtain rfl := hb x (by simp [hc', ha])
    have hfind : (leasesOf a x).leaseFindByAddr x = some (someLease 1 x) := by
      simp [leasesOf, LeaseDb.leaseFindByAddr, LeaseDb.find, someLease, hab]
    rw [filter_some]
    simp [hfind, holder, someLease, hmac]

/-- In which configurations nobody is given an address that belongs to somebody else: those
where the client is refused altogether, or no router of its ranges gets through the tests. -/
theorem assigns_free_iff (d : Daemon) (hconf : d.DistinctHosts) (chain : List ℕ)
    (tags : List Tag) (config : Option ℕ) : (∀ (db : LeaseDb) (s : Session) (a : InAddr),
      db.Distinct → (∀ l, s.lease = some l → l ∈ db.leases ∧ l.v6 = false) →
      s.context = chain → s.tagif = tags → s.config = config →
      { d with db }.Assigns s a → { d with db }.Free s a) ↔
      d.disabled config = true ∨ d.RoutersKept chain tags config := by
  have hpair {a b : InAddr} (hab : a ≠ b) : (leasesOf a b).Distinct := by
    simp [LeaseDb.Distinct, leasesOf, someLease, hab]
  have hmem {a b : InAddr} {req : Request} {override : InAddr} :
      ∀ l, (holder chain tags config a req override).lease = some l →
        l ∈ (leasesOf a b).leases ∧ l.v6 = false := by
    rintro l ⟨⟩
    exact ⟨by simp [leasesOf], rfl⟩
  constructor
  · intro hall
    by_contra hnot
    push Not at hnot
    obtain ⟨hdis, hkept⟩ := hnot
    rw [ne_eq, Bool.not_eq_true] at hdis
    refine hkept fun c hc => ⟨?_, fun context i hsel hi => ?_⟩
    · by_contra h
      push Not at h
      rw [ne_eq, not_isSome_iff_eq_none] at h
      obtain ⟨hhost, hne⟩ := h
      obtain ⟨i, hi⟩ := ne_none_iff_exists'.mp hne
      obtain ⟨b, hab, hb⟩ : ∃ b, c.router ≠ b ∧
          ∀ x, (d.config config).bind (·.addr) = some x → x = b := by
        cases hx : (d.config config).bind (·.addr) with
        | none => exact ⟨c.router + 1, by bv_omega, by simp⟩
        | some x =>
          refine ⟨x, ?_, by rintro _ ⟨⟩; rfl⟩
          rintro rfl
          obtain ⟨c', hc', ha'⟩ := bind_eq_some_iff.mp hx
          obtain ⟨j, rfl, hj⟩ := bind_eq_some_iff.mp hc'
          simpa [hhost] using configFindByAddress_isSome hj ha'
      have := hall (leasesOf c.router b) (holder chain tags config c.router { chaddr := [] } 0)
        c.router (hpair hab) hmem rfl rfl rfl
        (holder_discovers hdis hi hhost (offeredConfigAddr_taken hab hb _ _))
      exact this.router c hc rfl
    have hassign (havail : (d.addressAvailable [i] c.router tags).isSome = true ∨
          (d.config config).bind (·.addr) = some c.router)
        (hhost : ∀ j, d.configFindByAddress c.router = some j → config = some j) : False := by
      have hab : c.router ≠ c.router + 1 := by bv_omega
      obtain ⟨req, override, h⟩ :=
        holder_requests (d := { d with db := leasesOf c.router (c.router + 1) }) hdis hsel hi
          havail hhost
      exact (hall _ _ _ (hpair hab) hmem rfl rfl rfl h).router c hc rfl
    refine ⟨fun hown => hassign (.inr hown) ?_, ?_⟩
    · rw [configFindByAddress_own hconf hown]
      exact fun _ h => h
    by_contra h
    push Not at h
    rw [ne_eq, not_isSome_iff_eq_none] at h
    exact hassign (.inl (isSome_iff_ne_none.mpr h.2)) (by simp [h.1])
  rintro hkept db s a hdb hlease rfl rfl rfl ⟨r, hr, ht, rfl⟩
  rcases hkept with hdis | hkept
  · have hdis' : disabled { d with db } s.config = true := hdis
    rcases hr with hr | ⟨-, hr⟩
    · simp [discoverReply, hdis'] at hr
    · simp [requestReply, hdis'] at hr
  rcases hr with hr | ⟨hreq, hr⟩
  · exact discoverReply_free (d := { d with db }) hconf hdb hlease hkept hr ht
  refine requestReply_free (d := { d with db }) hconf hdb hlease hkept hreq hr ?_
  rcases ht with ht | ht
  · rcases requestReply_type hr with h | h <;> rw [ht] at h <;> cases h
  · exact ht

def twoRouters : List Context :=
  [{ netmask := 0xffffff00, start := 0xc0a80102, stop := 0xc0a801fe, localAddr := 0xc0a80101
     router := 0xc0a80101 },
   { netmask := 0xffffff00, start := 0xc0a80201, stop := 0xc0a802fe, localAddr := 0xc0a80201
     router := 0xc0a80201 }]

def twoRoutersDaemon : Daemon where
  db := .noLeases 10
  dhcp := twoRouters

/-- The second range starts behind the server's address, and a host has an address of the first. -/
def keptRouters : Daemon where
  db := twoRoutersDaemon.db
  dhcp := [twoRouters[0],
    { netmask := 0xffffff00, start := 0xc0a80202, stop := 0xc0a802fe, localAddr := 0xc0a80201
      router := 0xc0a80201 }]
  dhcpConf := [{ addr := some 0xc0a80110 }]

theorem assigns_free_keptRouters : keptRouters.DistinctHosts ∧
    ∀ (db : LeaseDb) (s : Session) (a : InAddr), db.Distinct →
      (∀ l, s.lease = some l → l ∈ db.leases ∧ l.v6 = false) →
      s.context = [0, 1] → s.tagif = [] → s.config = some 0 →
      { keptRouters with db }.Assigns s a → { keptRouters with db }.Free s a := by
  have hconf : keptRouters.DistinctHosts := by
    intro i j c c' a hi hj
    have hi := (List.getElem?_eq_some_iff.mp hi).1
    have hj := (List.getElem?_eq_some_iff.mp hj).1
    simp only [keptRouters, List.length_singleton] at hi hj
    omega
  have hkept : ∀ c ∈ keptRouters.contexts [0, 1], ∀ context ∈ [[0, 1], [0], [1]],
      keptRouters.addressAvailable context c.router [] = none ∧
        (keptRouters.config (some 0)).bind (·.addr) ≠ some c.router := by
    decide
  refine ⟨hconf, (assigns_free_iff keptRouters hconf [0, 1] [] (some 0)).mpr (.inr fun c hc => ?_)⟩
  obtain ⟨hchain, hown⟩ := hkept c hc [0, 1] (by decide)
  refine ⟨.inr hchain, fun context i _ hi => ⟨hown, .inr (hkept c hc [i] ?_).1⟩⟩
  obtain ⟨_, hrange⟩ := narrowContext_valid hi
  have hlt : i < 2 := (List.getElem?_eq_some_iff.mp hrange).1
  interval_cases i <;> decide

/-- A client that asks for the server's own address on the second network is offered it. -/
theorem dhcpReply_offers_router : (twoRoutersDaemon.dhcpReply
      { chaddr := [2, 0, 0, 0, 0, 1], messageType := some dhcpdiscover
        requestedIp := some 0xc0a80201 } { context := [0, 1], now := 200 }).1.map
          (fun r => (r.type, r.yiaddr)) = some (.dhcpoffer, 0xc0a80201) ∧
    ∃ c ∈ twoRoutersDaemon.contexts [0, 1], c.router = 0xc0a80201 := by
  refine ⟨by decide +kernel, twoRouters[1], by simp [twoRoutersDaemon, twoRouters, contexts], rfl⟩

end Daemon

end Dnsmasq.Dhcp
