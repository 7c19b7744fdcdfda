import Dnsmasq.Dhcp6.Distinct

/-!
Whether a client gets an address that a `dhcp-host` line keeps for another one. Only the search of
`address6_allocate` looks at these lines, and for a bare host part it compares the wrong address.
-/
namespace Dnsmasq.Dhcp6

open List Option

open Dhcp (Bytes Tag matchNetid runTagIf configHasMac memcmpMasked)

/-- The line is for the client: by its client-id, its hardware address or, if the line has
neither, its name. -/
def Config.matchesClient (config : Config) (m : Message) (a : Arrival) (tags : List Tag) : Bool :=
  let masked := config.hwaddr.any fun h => h.wildcardMask ≠ 0 ∧ h.hwaddr.length = a.mac.length ∧
    (h.hwaddrType = a.macType ∨ h.hwaddrType = 0) ∧ memcmpMasked h.hwaddr a.mac h.wildcardMask ≠ 0
  let named := config.clid.isNone && config.hwaddr.isEmpty &&
    m.hostname.any fun name => config.hostname.any (hostnameIsequal · name)
  ((m.clid.isSome && config.clid == m.clid) ||
    configHasMac config.toConfig (some a.mac) a.macType || masked ||
    named) && matchNetid config.filter tags true

/-- The address is one of the line's. A bare host part is taken on the net of the range. -/
def Config.reserves (config : Config) (c : Context) (addr : In6Addr) : Bool :=
  config.addr6.any fun a =>
    if a.wildcard then c.prefixLen == 64 && isSameNet6 (c.start.setPart a.addr.lo) addr a.length
    else isSameNet6 a.addr addr a.length

/-- How many addresses `config_valid` tries for the entry. -/
def AddrList.count (a : AddrList) : ℕ :=
  match a.prefixLen with
  | some len => 2 ^ (128 - len) % 2 ^ 64
  | none => 1

def Config.Offers (config : Config) (c : Context) (addr : In6Addr) : Prop :=
  ∃ a ∈ config.addr6, ∃ k < a.count,
    addr = (if a.wildcard then c.start else a.addr).setPart (a.addr.lo + BitVec.ofNat 64 k)

namespace Daemon

def reserved (d : Daemon) (m : Message) (a : Arrival) (addr : In6Addr) : Bool :=
  d.dhcpConf.any fun config => !config.matchesClient m a (runTagIf d.tagIf m.tags) &&
    (d.contexts a.context).any (config.reserves · addr)

/-- No reserved address is asked for in a range that leases are given from, held in one by the
client or on the client's own line, and the search for free addresses sees all of them. -/
structure MayServe (d : Daemon) (m : Message) (a : Arrival) : Prop where
  asked : ∀ ia ∈ m.ias, ∀ req ∈ ia.addrs,
    (d.address6Available a.context req.addr (d.session m a).tagif true).isSome →
    d.reserved m a req.addr = false
  held : ∀ l ∈ d.db.leases.items, l.clid = m.clid →
    (d.address6Available a.context l.addr (d.session m a).tagif true).isSome →
    d.reserved m a l.addr = false
  own : ∀ config, d.config (d.identify m a) = some config → ∀ c ∈ d.contexts a.context, ∀ addr,
    config.Offers c addr ∨ (configImplies (some config) c addr).isSome → d.reserved m a addr = false
  seen : ∀ c ∈ d.contexts a.context, ∀ host, d.reserved m a (c.start.setPart host) = true →
    (d.configFindByAddress6 (some c.start) c.prefixLen (c.start.setPart host)).isSome

variable {d d' : Daemon} {m : Message} {a : Arrival}

theorem seen_of_whole (h : ∀ config ∈ d.dhcpConf, ∀ x ∈ config.addr6, x.wildcard = false ∧
      ∀ c ∈ d.contexts a.context, isSameNet6 x.addr c.start c.prefixLen = true) :
    ∀ c ∈ d.contexts a.context, ∀ host, d.reserved m a (c.start.setPart host) = true →
      (d.configFindByAddress6 (some c.start) c.prefixLen (c.start.setPart host)).isSome := by
  intro c hc host hreserved
  simp only [reserved, List.any_eq_true, Bool.and_eq_true] at hreserved
  obtain ⟨config, hconfig, -, c', -, hreserves⟩ := hreserved
  obtain ⟨x, hx, haddr⟩ := any_eq_true.mp hreserves
  obtain ⟨hwhole, hnet⟩ := h config hconfig x hx
  rw [configFindByAddress6, findIdx?_isSome]
  refine any_eq_true.mpr ⟨config, hconfig, any_eq_true.mpr ⟨x, hx, ?_⟩⟩
  simp_all

variable {s : Session} {iaid : ℕ} {addr : In6Addr} {c : Context} {ia : Ia}

theorem firstFree_eq (base : In6Addr) (n : ℕ) (host : BitVec 64) : d.firstFree s iaid base n host =
    ((range n).map fun k => base.setPart (host + BitVec.ofNat 64 k)).find?
    (d.checkAddress s iaid) := by
  induction n generalizing host with
  | zero => rfl
  | succ n ih =>
    have hnext : (fun k => base.setPart (host + BitVec.ofNat 64 k)) ∘ Nat.succ =
        fun k => base.setPart (host + 1 + BitVec.ofNat 64 k) := by
      funext k
      rw [Function.comp_apply, BitVec.add_assoc, ← Nat.one_add, BitVec.ofNat_add]
      rfl
    rw [firstFree, ih, range_succ_eq_map, map_cons, List.map_map, hnext, find?_cons,
      BitVec.add_zero]
    cases d.checkAddress s iaid (base.setPart host) <;> rfl

theorem firstFree_eq_some {base : In6Addr} {n : ℕ} {host : BitVec 64}
    (h : d.firstFree s iaid base n host = some addr) :
    d.checkAddress s iaid addr = true ∧ ∃ k < n,
    addr = base.setPart (host + BitVec.ofNat 64 k) := by
  rw [firstFree_eq] at h
  obtain ⟨k, hk, rfl⟩ := mem_map.mp (mem_of_find?_eq_some h)
  exact ⟨find?_some h, k, mem_range.mp hk, rfl⟩

theorem configValid_offers (h : d.configValid s iaid c = some addr) :
    ∃ config, d.config s.config = some config ∧ config.Offers c addr := by
  unfold configValid at h
  split at h
  · cases h
  rename_i config hconfig
  refine ⟨config, hconfig, ?_⟩
  obtain ⟨x, hx, haddr⟩ := exists_of_findSome?_eq_some h
  split_ifs at haddr with hdeclined hwild hlen hnet
  all_goals
    obtain ⟨-, k, hk, rfl⟩ := firstFree_eq_some haddr
    exact ⟨x, hx, k, hk, by simp [hwild]⟩

theorem IsRange.exists (h : d.IsRange s c) :
    ∃ c' ∈ d.contexts s.arrival.context, c'.start = c.start ∧ c'.prefixLen = c.prefixLen := by
  obtain ⟨c', hc', heq⟩ := mem_map.mp h
  have hstart : c'.fixed.start = c.fixed.start := congrArg Context.start heq
  have hlen : c'.fixed.prefixLen = c.fixed.prefixLen := congrArg Context.prefixLen heq
  exact ⟨c', hc', hstart, hlen⟩

def HoldsUnreserved (d₀ : Daemon) (m : Message) (a : Arrival) (db : LeaseDb) : Prop :=
  ∀ l ∈ db.leases.items, l.clid = m.clid →
    (d₀.address6Available a.context l.addr (d₀.session m a).tagif true).isSome →
    d₀.reserved m a l.addr = false

theorem Gives.unreserved (h : d.MayServe m a) (hclid : m.clid.isSome) (hsetup : d.SameSetup d')
    (hheld : d.HoldsUnreserved m a d'.db) (hia : ia ∈ m.ias)
    (hgives : d'.Gives (d.session m a) ia addr) : d.reserved m a addr = false := by
  cases hgives with
  | asked hreq havail _ =>
    rw [hsetup.address6Available] at havail
    exact h.asked ia hia _ hreq havail
  | implied _ hc himplies _ =>
    obtain ⟨c', hc', hstart, hlen⟩ := (hsetup.isRange.mp hc).exists
    rw [hsetup.config] at himplies
    obtain ⟨i, himplies⟩ := isSome_iff_exists.mp himplies
    obtain ⟨config, hconfig, himplies⟩ := bind_eq_some_iff.mp himplies
    refine h.own config hconfig c' hc' _ (.inr ?_)
    simp only [configImplies, hstart, hlen, bind_some, himplies, isSome_some]
  | configured hc hvalid =>
    obtain ⟨c', hc', hstart, -⟩ := (hsetup.isRange.mp hc).exists
    obtain ⟨config, hconfig, hoffers⟩ := configValid_offers hvalid
    rw [hsetup.config] at hconfig
    refine h.own config hconfig c' hc' _ (.inl ?_)
    simpa only [Config.Offers, hstart] using hoffers
  | held hl _ _ hclid' havail =>
    rw [hsetup.address6Available] at havail
    obtain ⟨clid, hm⟩ := isSome_iff_exists.mp hclid
    exact hheld _ hl (by simpa [session, hm] using hclid') havail
  | allocated hc hfree =>
    obtain ⟨c', hc', hstart, hlen⟩ := (hsetup.isRange.mp hc).exists
    rename_i c host
    by_contra hreserved
    have hseen := h.seen c' hc' host (by simpa [hstart] using hreserved)
    have hnone := (Bool.and_eq_true _ _ ▸ hfree).2
    rw [configFindByAddress6, hsetup.dhcpConf, isNone_iff_eq_none] at hnone
    rw [hstart, hlen, configFindByAddress6, hnone] at hseen
    cases hseen

theorem updateLeases_mem {valid : ℕ} {l : Lease}
    (h : l ∈ (d.updateLeases s ia addr valid).db.leases.items) : l ∈ d.db.leases.items ∨
    l.addr = addr := by
  have hkeeps := Lease.keeps_grant s ia.iaid valid
  unfold updateLeases at h
  dsimp only at h
  split at h
  · rename_i l₀ hfind
    obtain ⟨hl₀, haddr⟩ := LeaseDb.findByAddr_eq_some hfind
    obtain ⟨l', hl', ⟨hid, rfl⟩ | ⟨-, rfl⟩⟩ := LeaseDb.mem_update.mp h
    · cases Lib.Registry.eq_of_key hl' hl₀ hid
      exact .inr ((hkeeps.addr _).trans haddr)
    · exact .inl hl'
  split at h
  · rename_i l₀ db halloc
    obtain ⟨rfl, hitems⟩ := LeaseDb.lease6Allocate_eq_some halloc
    obtain ⟨l', hl', ⟨hid, rfl⟩ | ⟨-, rfl⟩⟩ := LeaseDb.mem_update.mp h
    all_goals rcases mem_cons.mp (hitems ▸ hl') with rfl | hold
    · exact .inr (hkeeps.addr _)
    · exact absurd hid (d.db.leases.fresh _ hold).ne
    · exact .inr rfl
    · exact .inl hold
  · exact .inl h

end Daemon

theorem LeaseDb.SameLeases.exists
    {db db' : LeaseDb} (h : db.SameLeases db') {l : Lease} (hl : l ∈ db'.leases.items) :
    ∃ l' ∈ db.leases.items, l'.addr = l.addr ∧ l'.clid = l.clid := by
  have hbare := h.items ▸ mem_map_of_mem hl
  obtain ⟨l', hl', heq⟩ := mem_map.mp hbare
  have haddr : l'.bare.addr = l.bare.addr := congrArg Lease.addr heq
  have hclid : l'.bare.clid = l.bare.clid := congrArg Lease.clid heq
  exact ⟨l', hl', haddr, hclid⟩

/-- The state after some of the addresses, none of them reserved. -/
structure Unreserved (d₀ : Daemon) (m : Message) (a : Arrival) (out : List (Ia × IaAddr))
    (d : Daemon) : Prop where
  setup : d₀.SameSetup d
  held : d₀.HoldsUnreserved m a d.db
  out : ∀ x ∈ out, d₀.reserved m a x.2.addr = false

theorem Serves.unreserved {d₀ d₁ d : Daemon} {m : Message} {a : Arrival} {out : List (Ia × IaAddr)}
    (h : Serves (d₀.session m a) m.ias d₁ out d) (hmay : d₀.MayServe m a) (hclid : m.clid.isSome)
    (hstart : Unreserved d₀ m a [] d₁) : Unreserved d₀ m a out d := by
  induction h with
  | start => exact hstart
  | mark _ hsetup hdb ih =>
    refine ⟨ih.setup.trans hsetup, fun l hl hl' havail => ?_, ih.out⟩
    obtain ⟨l₀, hl₀, haddr, hclid₀⟩ := hdb.exists hl
    rw [← haddr] at havail ⊢
    exact ih.held l₀ hl₀ (hclid₀.trans hl') havail
  | give _ hia hgives ih =>
    rename_i out d ia addr _
    have hfree := hgives.unreserved hmay hclid ih.setup ih.held hia
    have hout : ∀ x ∈ out ++ [(ia, addr)], d₀.reserved m a x.2.addr = false := by
      intro x hx
      rcases mem_append.mp hx with hx | hx
      · exact ih.out x hx
      · cases mem_singleton.mp hx
        exact hfree
    split
    · refine ⟨ih.setup.trans ⟨rfl, rfl⟩, fun l hl hl' havail => ?_, hout⟩
      rcases Daemon.updateLeases_mem hl with hold | haddr
      · exact ih.held l hold hl' havail
      · exact haddr ▸ hfree
    · exact ⟨ih.setup, ih.held, hout⟩

theorem Answers.unreserved {d : Daemon} {m : Message} {a : Arrival}
    {r : Option (List ReplyOption) × Daemon} (h : Answers (d.session m a) m.ias d r)
    (hmay : d.MayServe m a) (hclid : m.clid.isSome) {options : List ReplyOption}
    (hr : r.1 = some options) : ∀ x ∈ options.flatMap ReplyOption.addrs,
    d.reserved m a x.2.2.addr = false := by
  obtain ⟨out, hserves, hin⟩ := h
  have hall := hserves.unreserved hmay hclid ⟨⟨rfl, rfl⟩, hmay.held, nofun⟩
  intro x hx
  obtain ⟨y, hy, rfl⟩ := mem_map.mp (hin options hr x hx)
  exact hall.out y hy

namespace Daemon

variable {d : Daemon} {m : Message} {a : Arrival}

def ServesUnreserved (d : Daemon) : Event → Prop
  | .message m a => m.type = .solicit ∨ m.type = .request → ∀ r, (d.dhcp6NoRelay m a).1 = some r →
      ∀ x ∈ r.addrs, d.reserved m a x.2.2.addr = false
  | .expire _ => True

def MayServeEvent (d : Daemon) : Event → Prop
  | .message m a => m.type = .solicit ∨ m.type = .request → d.MayServe m a
  | .expire _ => True

/-- Every event of the run has the property in the state it finds. -/
def Along (P : Daemon → Event → Prop) : Daemon → List Event → Prop
  | _, [] => True
  | d, e :: es => P d e ∧ Along P (d.step e) es

theorem Along.imp {P Q : Daemon → Event → Prop} (h : ∀ d e, P d e →
    Q d e) {d : Daemon} {es : List Event} (hes : Along P d es) : Along Q d es := by
  induction es generalizing d with
  | nil => trivial
  | cons e es ih => exact ⟨h d e hes.1, ih hes.2⟩

theorem dhcp6NoRelay_unreserved
    (hm : m.type = .solicit ∨ m.type = .request) (hmay : d.MayServe m a) {r : Reply}
    (hr : (d.dhcp6NoRelay m a).1 = some r) : ∀ x ∈ r.addrs, d.reserved m a x.2.2.addr = false := by
  unfold dhcp6NoRelay at hr
  dsimp only at hr
  split at hr
  · cases hr
  rename_i hserved
  simp only [Bool.or_eq_true, Bool.not_eq_true', not_or, Bool.not_eq_false] at hserved
  have hclid : m.clid.isSome := by
    rcases hm with hm | hm <;> simp_all [wanted]
  split at hr
  · cases hr
    intro x hx
    simp [Reply.addrs, ReplyOption.addrs] at hx
  rcases hm with hm | hm
  · rw [hm] at hr
    have hanswers := solicitReply_answers (.start : Serves (d.session m a) m.ias d _ _)
    obtain ⟨options, hoptions, rfl⟩ := map_eq_some_iff.mp hr
    intro x hx
    refine hanswers.unreserved hmay hclid hoptions x ?_
    simp only [Reply.addrs] at hx
    split at hx
    · simpa [ReplyOption.addrs] using hx
    · exact hx
  rw [hm] at hr
  have hanswers := requestReply_answers d (d.session m a) m.ias
  obtain ⟨options, hoptions, rfl⟩ := map_eq_some_iff.mp hr
  exact hanswers.unreserved hmay hclid hoptions

/-- In every run whose messages meet the condition no client gets an address that is reserved
for another. -/
theorem run_unreserved (d : Daemon) (es : List Event) (h : d.Along MayServeEvent es) :
    d.Along ServesUnreserved es := by
  refine h.imp fun d e he => ?_
  cases e with
  | message m a => exact fun hm r hr => dhcp6NoRelay_unreserved hm (he hm) hr
  | expire now => trivial

def reservedRange : Daemon where
  db := { leases := .empty, leasesLeft := 10 }
  dhcp6 := [sampleRange]
  dhcpConf := [{ clid := some [2], addr6 := [{ addr := ⟨0x20010db800000000, 0x140⟩ }] }]
  duid := [9]

/-- Client 01 solicits, with or without asking for an address. -/
def solicitation (addrs : List IaAddr) : Message where
  type := .solicit
  clid := some [1]
  clidNonempty := clid_one
  ias := [{ type := .na, iaid := 1, addrs }]

/-- A client that asks for nothing gets an address that is not kept for client 02. -/
theorem run_unreserved_reservedRange :
    reservedRange.Along MayServeEvent [.message (solicitation [])
      { context := [0], now := 0, rounds := 1 }] ∧
      reservedRange.Along ServesUnreserved [.message (solicitation [])
        { context := [0], now := 0, rounds := 1 }] ∧
      ((reservedRange.dhcp6NoRelay (solicitation [])
        { context := [0], now := 0, rounds := 1 }).1.map fun r => r.addrs.length) = some 1 := by
  have hmay : reservedRange.MayServe (solicitation [])
      { context := [0], now := 0, rounds := 1 } := by
    refine ⟨by decide, nofun, fun config hconfig => ?_, seen_of_whole ?_⟩
    · have hnone : reservedRange.config (reservedRange.identify (solicitation [])
          { context := [0], now := 0, rounds := 1 }) = none := by
        decide +kernel
      rw [hnone] at hconfig
      cases hconfig
    · decide
  have hrun : reservedRange.Along MayServeEvent
      [.message (solicitation []) { context := [0], now := 0, rounds := 1 }] :=
        ⟨fun _ => hmay, trivial⟩
  exact ⟨hrun, run_unreserved reservedRange _ hrun, by decide +kernel⟩

/-- A client that asks for the address of client 02 gets it. -/
theorem dhcp6NoRelay_reserved : let m := solicitation [{ addr := ⟨0x20010db800000000, 0x140⟩ }]
    ((reservedRange.dhcp6NoRelay m { context := [0], now := 0, rounds := 1 }).1.map
        fun r => r.addrs.map fun x => x.2.2.addr) = some [⟨0x20010db800000000, 0x140⟩] ∧
      reservedRange.reserved m { context := [0], now := 0, rounds := 1 } ⟨0x20010db800000000,
        0x140⟩ = true := by
  decide +kernel

end Daemon

end Dnsmasq.Dhcp6
