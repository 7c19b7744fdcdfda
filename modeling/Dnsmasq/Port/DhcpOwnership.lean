import Dnsmasq.Port.DhcpServer

/-!
The Rust port: whose leases and addresses a DHCPv4 packet may touch. Each handler is compared with
the property it should keep, and the comparison is then carried along whole runs.
-/
namespace Dnsmasq.Port.DhcpServer

open List Lib

namespace LeaseDatabase

variable (db : LeaseDatabase)

def HeldByOther (m : Bytes) (a : Ipv4Addr) : Prop := ∃ l ∈ db.v4ByIp, l.addr = a ∧ l.hwaddr ≠ m

variable {db} {m : Bytes} {a : Ipv4Addr} {l l' : LeaseV4}

theorem eq_of_addr_eq (hl : l ∈ db.v4ByIp) (hl' : l' ∈ db.v4ByIp) (h : l.addr = l'.addr) : l = l' :=
  inj_on_of_nodup_map db.distinct hl hl' h

theorem not_heldByOther_of_mem (hl : l ∈ db.v4ByIp) : ¬ db.HeldByOther l.hwaddr l.addr := by
  rintro ⟨l', hl', haddr, hne⟩
  exact hne (congrArg LeaseV4.hwaddr (eq_of_addr_eq hl' hl haddr))

theorem isNone_findByIp : (db.findByIp a).isNone = true ↔ ∀ l ∈ db.v4ByIp, l.addr ≠ a := by
  simp [findByIp]

theorem conflict_iff : ((db.findByIp a).any fun l => l.hwaddr != m) = true ↔
    db.HeldByOther m a := by
  constructor
  · intro h
    cases hfind : db.findByIp a with
    | none => simp [hfind] at h
    | some l =>
      have haddr : l.addr = a := by simpa using find?_some hfind
      exact ⟨l, mem_of_find?_eq_some hfind, haddr, by simpa [hfind] using h⟩
  rintro ⟨l, hl, rfl, hne⟩
  cases hfind : db.findByIp l.addr with
  | none => exact absurd rfl (isNone_findByIp.mp (by rw [hfind]; rfl) l hl)
  | some l' =>
    have haddr : l'.addr = l.addr := by simpa using find?_some hfind
    obtain rfl := eq_of_addr_eq (mem_of_find?_eq_some hfind) hl haddr
    simpa using hne

theorem findByMac_eq_some {order : IterationOrder} (h : db.findByMac order m = some l) :
    l ∈ db.v4ByIp ∧ l.hwaddr = m :=
  ⟨(order.perm _).subset (mem_of_find?_eq_some h), by simpa using find?_some h⟩

theorem mem_removeLease : l ∈ (db.removeLease a).v4ByIp ↔ l ∈ db.v4ByIp ∧ l.addr ≠ a := by
  simp [removeLease, without]

def Full (db : LeaseDatabase) (a : Ipv4Addr) : Prop := db.maxLeases ≤ db.v4ByIp.length ∧
    a ∉ db.v4ByIp.map (·.addr)

theorem addLease_of_full (h : db.Full l.addr) :
    db.addLease l = .error (.databaseError "Lease database full") :=
  if_pos h

theorem addLease_of_not_full (h : ¬ db.Full l.addr) :
    ∃ db', db.addLease l = .ok db' ∧ ∀ l', l' ∈ db'.v4ByIp ↔ l' = l ∨ l' ∈ db.v4ByIp ∧
      l'.addr ≠ l.addr := by
  refine ⟨_, if_neg h, ?_⟩
  simp [without]

theorem length_removeLease (hl : l ∈ db.v4ByIp) :
    (db.removeLease l.addr).v4ByIp.length + 1 = db.v4ByIp.length := by
  have hone : (db.v4ByIp.map (·.addr)).count l.addr = 1 :=
    count_eq_one_of_mem db.distinct (mem_map_of_mem hl)
  have hsplit := length_eq_countP_add_countP (fun l' : LeaseV4 => l'.addr == l.addr)
    (l := db.v4ByIp)
  have hcount : db.v4ByIp.countP (fun l' => l'.addr == l.addr) = 1 := by
    rw [List.count, countP_map] at hone
    exact hone
  have hrest : (db.removeLease l.addr).v4ByIp.length = db.v4ByIp.countP fun l' =>
      !(l'.addr == l.addr) := by
    rw [countP_eq_length_filter]
    rfl
  simp only [decide_not, Bool.decide_eq_true] at hsplit
  omega

theorem full_removeLease_iff (hl : l ∈ db.v4ByIp) : (db.removeLease l.addr).Full l.addr ↔
    db.maxLeases < db.v4ByIp.length := by
  have hlength := length_removeLease hl
  have hgone : l.addr ∉ (db.removeLease l.addr).v4ByIp.map (·.addr) := by
    intro hmem
    obtain ⟨l', hl', haddr⟩ := mem_map.mp hmem
    exact (mem_removeLease.mp hl').2 haddr
  show db.maxLeases ≤ _ ∧ _ ↔ _
  constructor
  · omega
  · intro hmax
    exact ⟨by omega, hgone⟩

end LeaseDatabase

def Handled.Gives (r : Handled) (a : Ipv4Addr) : Prop := r.reply = .ok (some (.offer a)) ∨
    r.reply = .ok (some (.ack a))

namespace Server

variable (server : Server)

def ReservedForOther (m : Bytes) (a : Ipv4Addr) : Prop :=
  ∃ host ∈ server.staticHosts, host.ipAddress = .v4 a ∧ host.macAddress ≠ m

/-- A packet of `m` leaves the leases of the others as they are, and gives `m` no address that is
leased to or reserved for another client. -/
structure Owned (db : LeaseDatabase) (m : Bytes) (r : Handled) : Prop where
  kept : ∀ l ∈ db.v4ByIp, l.hwaddr ≠ m → l ∈ r.db.v4ByIp
  given : ∀ a, r.Gives a → ¬ r.db.HeldByOther m a ∧ ¬ server.ReservedForOther m a

section

variable (db : LeaseDatabase) (context : DhcpContext) (a : Ipv4Addr)

def Available : Prop :=
  isAddressInContext a context = true ∧ server.isSpecialAddress a context = false ∧
    ∀ l ∈ db.v4ByIp, l.addr ≠ a

def FirstAvailable : Prop :=
  server.Available db context a ∧ ∀ b, server.Available db context b → a.toNat ≤ b.toNat

end

/-- The state in which a DHCPDISCOVER of `m` is answered properly: its reserved address is neither
leased to nor reserved for another client; without a reservation its leased address is not reserved
for another; without either the lowest available address is not reserved for another. -/
@[mk_iff]
structure DiscoverProper (db : LeaseDatabase) (order : IterationOrder) (m : Bytes)
    (context : DhcpContext) : Prop where
  reserved : ∀ a, server.findStaticReservation m = some a → ¬ db.HeldByOther m a ∧
    ¬ server.ReservedForOther m a
  leased : server.findStaticReservation m = none → ∀ l, db.findByMac order m = some l →
    ¬ server.ReservedForOther m l.addr
  fresh : server.findStaticReservation m = none → db.findByMac order m = none →
    ∀ a, server.FirstAvailable db context a → ¬ server.ReservedForOther m a

/-- The requested address, when it would be leased to `m`, is not reserved for another client. -/
def SelectingProper (db : LeaseDatabase) (packet : DhcpPacket) (context : DhcpContext)
    (sid : Ipv4Addr) : Prop :=
  sid = server.serverAddr → ∀ a, packet.requestedIp = some a → isAddressInContext a context = true →
    ¬ db.HeldByOther packet.chaddr a → ¬ db.Full a → ¬ server.ReservedForOther packet.chaddr a

/-- The address of a lease that would be renewed is not reserved for another client. -/
def RenewingProper (db : LeaseDatabase) (order : IterationOrder) (packet : DhcpPacket) : Prop :=
  packet.ciaddr ≠ 0 → ∀ l, db.findByMac order packet.chaddr = some l → l.addr = packet.ciaddr →
    db.v4ByIp.length ≤ db.maxLeases → ¬ server.ReservedForOther packet.chaddr packet.ciaddr

/-- The state before a packet in which its handler respects the other clients. -/
def Proper (db : LeaseDatabase) (input : Input) (packet : DhcpPacket) : Prop :=
  ∀ context, server.findContextForPacket packet = some context →
    match packet.messageType with
    | .discover => server.DiscoverProper db input.order packet.chaddr context
    | .request =>
      match packet.serverId with
      | some sid => server.SelectingProper db packet context sid
      | none => server.RenewingProper db input.order packet
    | .release => packet.ciaddr ≠ 0 → ¬ db.HeldByOther packet.chaddr packet.ciaddr
    | .decline => ∀ a, packet.requestedIp = some a → ¬ db.HeldByOther packet.chaddr a
    | .inform | .offer | .ack | .nak => True

variable {server} {db : LeaseDatabase} {m : Bytes} {input : Input} {packet : DhcpPacket}
  {context : DhcpContext}

variable {reply : Outcome DhcpError (Option Reply)} {a start endp : Ipv4Addr} {db' : LeaseDatabase}
    {l : LeaseV4}

theorem owned_of_silent (h : ∀ a, ¬ (⟨db, reply⟩ : Handled).Gives a) :
    server.Owned db m ⟨db, reply⟩ :=
  ⟨fun _ hl _ => hl, fun a ha => absurd ha (h a)⟩

theorem not_gives_nak (reason : String) (a : Ipv4Addr) :
    ¬ (⟨db, .ok (some (.nak reason))⟩ : Handled).Gives a := by
  simp [Handled.Gives]

theorem not_gives_none (a : Ipv4Addr) : ¬ (⟨db, .ok none⟩ : Handled).Gives a := by
  simp [Handled.Gives]

theorem not_gives_err (e : DhcpError) (a : Ipv4Addr) : ¬ (⟨db, .err e⟩ : Handled).Gives a := by
  simp [Handled.Gives]

theorem gives_ack {b : Ipv4Addr} : (⟨db, .ok (some (.ack b))⟩ : Handled).Gives a ↔ b = a := by
  simp [Handled.Gives]

theorem owned_removeLease (a : Ipv4Addr)
    (hsilent : ∀ b, ¬ (⟨db.removeLease a, reply⟩ : Handled).Gives b) :
    server.Owned db m ⟨db.removeLease a, reply⟩ ↔ ¬ db.HeldByOther m a := by
  constructor
  · rintro ⟨hkept, -⟩ ⟨l, hl, haddr, hne⟩
    exact (LeaseDatabase.mem_removeLease.mp (hkept l hl hne)).2 haddr
  intro hfree
  constructor
  · intro l hl hne
    exact LeaseDatabase.mem_removeLease.mpr ⟨hl, fun haddr => hfree ⟨l, hl, haddr, hne⟩⟩
  · intro b hb
    exact absurd hb (hsilent b)

theorem owned_handleRelease : server.Owned db packet.chaddr (handleRelease db packet) ↔
      (packet.ciaddr ≠ 0 → ¬ db.HeldByOther packet.chaddr packet.ciaddr) := by
  unfold handleRelease
  by_cases hzero : packet.ciaddr = 0
  · rw [if_pos hzero]
    exact iff_of_true (owned_of_silent not_gives_none) fun hne => absurd hzero hne
  · rw [if_neg hzero, owned_removeLease _ not_gives_none]
    exact ⟨fun hfree _ => hfree, fun hfree => hfree hzero⟩

theorem owned_handleDecline : server.Owned db packet.chaddr (handleDecline db packet) ↔
      ∀ a, packet.requestedIp = some a → ¬ db.HeldByOther packet.chaddr a := by
  unfold handleDecline
  cases packet.requestedIp with
  | none => exact iff_of_true (owned_of_silent not_gives_none) nofun
  | some declined =>
    rw [owned_removeLease _ not_gives_none]
    simp

theorem find_addressRange {p : Ipv4Addr → Bool} : (addressRange start endp).find? p = some a ↔
      p a = true ∧ (start.toNat ≤ a.toNat ∧ a.toNat ≤ endp.toNat) ∧
        ∀ b : Ipv4Addr, start.toNat ≤ b.toNat → b.toNat < a.toNat → p b = false := by
  rw [addressRange, find?_map, Option.map_eq_some_iff]
  constructor
  · rintro ⟨i, hi, rfl⟩
    obtain ⟨hp, hmem, hleast⟩ := find?_range'_eq_some.mp hi
    rw [mem_range'_1] at hmem
    have htoNat : (BitVec.ofNat 32 i).toNat = i := Nat.mod_eq_of_lt (by omega)
    rw [htoNat]
    refine ⟨hp, ⟨by omega, by omega⟩, ?_⟩
    intro b hstart hlt
    have hb := hleast b.toNat hstart hlt
    simpa using hb
  rintro ⟨hp, ⟨hstart, hend⟩, hleast⟩
  refine ⟨a.toNat, find?_range'_eq_some.mpr ⟨by simpa using hp, ?_, ?_⟩, by simp⟩
  · rw [mem_range'_1]
    omega
  intro j hj hlt
  have htoNat : (BitVec.ofNat 32 j).toNat = j := Nat.mod_eq_of_lt (by omega)
  have hb := hleast (BitVec.ofNat 32 j) (by omega) (by omega)
  simpa using hb

theorem noAddress_ne_ok : noAddress m ≠ .ok a := by
  unfold noAddress
  split_ifs <;> simp

theorem find_candidate_iff (hstart : context.start = .v4 start) (hend : context.endp = .v4 endp) :
    ((addressRange start endp).find? fun a => !server.isSpecialAddress a context &&
      (db.findByIp a).isNone) = some a ↔ server.FirstAvailable db context a := by
  have hin : ∀ b, isAddressInContext b context = true ↔ start.toNat ≤ b.toNat ∧
      b.toNat ≤ endp.toNat := by
    simp [isAddressInContext, hstart, hend]
  have havailable : ∀ b, server.Available db context b ↔
      (start.toNat ≤ b.toNat ∧ b.toNat ≤ endp.toNat) ∧
        (!server.isSpecialAddress b context && (db.findByIp b).isNone) = true := by
    intro b
    rw [Bool.and_eq_true, Bool.not_eq_true', LeaseDatabase.isNone_findByIp, Available, hin]
  rw [find_addressRange, FirstAvailable, havailable]
  constructor
  · rintro ⟨hcandidate, hrange, hleast⟩
    refine ⟨⟨hrange, hcandidate⟩, ?_⟩
    intro b hb
    obtain ⟨⟨hlow, -⟩, hb⟩ := (havailable b).mp hb
    by_contra hlt
    have hnot := hleast b hlow (by omega)
    rw [hb] at hnot
    exact absurd hnot (by simp)
  rintro ⟨⟨hrange, hcandidate⟩, hleast⟩
  refine ⟨hcandidate, hrange, ?_⟩
  intro b hlow hlt
  by_contra hb
  have hle := hleast b ((havailable b).mpr ⟨⟨hlow, by omega⟩, by simpa using hb⟩)
  omega

theorem allocateFree_eq_ok :
    server.allocateFree db m context = .ok a ↔ server.FirstAvailable db context a := by
  unfold allocateFree
  cases hstart : context.start with
  | v6 start =>
    simp [FirstAvailable, Available, isAddressInContext, hstart]
  | v4 start =>
    cases hend : context.endp with
    | v6 endp => simp [FirstAvailable, Available, isAddressInContext, hstart, hend]
    | v4 endp =>
      dsimp only
      rw [← find_candidate_iff hstart hend]
      cases (addressRange start endp).find? fun a => !server.isSpecialAddress a context &&
        (db.findByIp a).isNone with
      | none => simp [noAddress_ne_ok]
      | some candidate => simp

theorem owned_handleDiscover_of_offeredIp :
    server.Owned db packet.chaddr (server.handleDiscover db input packet context) ↔
      ∀ a, server.offeredIp db input packet.chaddr context = .ok a →
        ¬ db.HeldByOther packet.chaddr a ∧ ¬ server.ReservedForOther packet.chaddr a := by
  have hgives : ∀ a, (server.handleDiscover db input packet context).Gives a ↔
      server.offeredIp db input packet.chaddr context = .ok a := by
    unfold handleDiscover Handled.Gives
    cases server.offeredIp db input packet.chaddr context <;> simp
  constructor
  · intro h a ha
    exact h.given a ((hgives a).mpr ha)
  · intro h
    exact ⟨fun _ hl _ => hl, fun a ha => h a ((hgives a).mp ha)⟩

theorem owned_handleDiscover :
    server.Owned db packet.chaddr (server.handleDiscover db input packet context) ↔
      server.DiscoverProper db input.order packet.chaddr context := by
  rw [owned_handleDiscover_of_offeredIp, discoverProper_iff]
  unfold offeredIp
  cases hstatic : server.findStaticReservation packet.chaddr with
  | some ip => simp
  | none =>
    cases hlease : db.findByMac input.order packet.chaddr with
    | some l =>
      obtain ⟨hmem, hmac⟩ := LeaseDatabase.findByMac_eq_some hlease
      have hfree : ¬ db.HeldByOther packet.chaddr l.addr :=
        hmac ▸ LeaseDatabase.not_heldByOther_of_mem hmem
      simp [hfree]
    | none =>
      have hallocate : server.allocateAddress db input packet.chaddr context =
          server.allocateFree db packet.chaddr context := by
        simp [allocateAddress, hstatic, hlease]
      have hfree : ∀ a, server.FirstAvailable db context a → ¬ db.HeldByOther packet.chaddr a := by
        rintro a ha ⟨l, hl, haddr, -⟩
        exact ha.1.2.2 l hl haddr
      simp +contextual [hallocate, allocateFree_eq_ok, hfree]

theorem owned_ack (hkept : ∀ l ∈ db.v4ByIp, l.hwaddr ≠ m → l ∈ db'.v4ByIp)
    (hfree : ¬ db'.HeldByOther m a) :
    server.Owned db m ⟨db', .ok (some (.ack a))⟩ ↔ ¬ server.ReservedForOther m a := by
  constructor
  · intro h
    exact (h.given a (gives_ack.mpr rfl)).2
  intro hreserved
  refine ⟨hkept, ?_⟩
  intro b hb
  obtain rfl := gives_ack.mp hb
  exact ⟨hfree, hreserved⟩

theorem kept_of_insert (hmac : l.hwaddr = m) (hfree : ¬ db.HeldByOther m l.addr)
    (hdb' : ∀ l', l' ∈ db'.v4ByIp ↔ l' = l ∨ l' ∈ db.v4ByIp ∧ l'.addr ≠ l.addr) :
    (∀ l' ∈ db.v4ByIp, l'.hwaddr ≠ m → l' ∈ db'.v4ByIp) ∧ ¬ db'.HeldByOther m l.addr := by
  constructor
  · intro l' hl' hne
    exact (hdb' l').mpr (.inr ⟨hl', fun haddr => hfree ⟨l', hl', haddr, hne⟩⟩)
  rintro ⟨l', hl', haddr, hne⟩
  rcases (hdb' l').mp hl' with rfl | ⟨-, hother⟩
  · exact hne hmac
  · exact hother haddr

theorem owned_handleSelecting {sid : Ipv4Addr} :
    server.Owned db packet.chaddr (server.handleSelecting db input packet context sid) ↔
      server.SelectingProper db packet context sid := by
  unfold handleSelecting SelectingProper
  by_cases hsid : sid = server.serverAddr
  · rw [if_neg (not_not.mpr hsid)]
    cases hrequested : packet.requestedIp with
    | none => exact iff_of_true (owned_of_silent (not_gives_err _)) (fun _ _ ha => nomatch ha)
    | some requested =>
      dsimp only
      by_cases hin : isAddressInContext requested context = true
      · rw [if_neg (by simp [hin])]
        by_cases hheld : db.HeldByOther packet.chaddr requested
        · rw [if_pos (LeaseDatabase.conflict_iff.mpr hheld)]
          refine iff_of_true (owned_of_silent (not_gives_nak _)) ?_
          rintro - a ⟨⟩ - hfree
          exact absurd hheld hfree
        rw [if_neg (fun h => hheld (LeaseDatabase.conflict_iff.mp h))]
        unfold createOrUpdateLease
        by_cases hfull : db.Full requested
        · rw [LeaseDatabase.addLease_of_full hfull]
          refine iff_of_true (owned_of_silent (not_gives_err _)) ?_
          rintro - a ⟨⟩ - - hroom
          exact absurd hfull hroom
        obtain ⟨db', hadd, hdb'⟩ := LeaseDatabase.addLease_of_not_full
          (l := ⟨requested, packet.chaddr, some packet.clientId, none,
            input.now + context.leaseTime, .new⟩) hfull
        obtain ⟨hkept, hfree⟩ := kept_of_insert rfl hheld hdb'
        rw [hadd]
        rw [owned_ack hkept hfree]
        constructor
        · rintro h - a ⟨⟩ - - -
          exact h
        · intro h
          exact h hsid requested rfl hin hheld hfull
      rw [if_pos (by simpa using hin)]
      refine iff_of_true (owned_of_silent (not_gives_nak _)) ?_
      rintro - a ⟨⟩ hin'
      exact absurd hin' hin
  · rw [if_pos hsid]
    exact iff_of_true (owned_of_silent not_gives_none) (fun h => absurd h hsid)

/-- The lease as `renew_lease` puts it back. -/
def renewed (l : LeaseV4) (input : Input) (context : DhcpContext) : LeaseV4 :=
  { l with expires := input.now + context.leaseTime, state := .changed }

theorem renewLease_of_over (hlease : db.findByMac input.order m = some l)
    (hover : db.maxLeases < db.v4ByIp.length) :
    renewLease db input m context =
    (db.removeLease l.addr, some (.databaseError "Lease database full")) := by
  have hmem := (LeaseDatabase.findByMac_eq_some hlease).1
  have hfull : (db.removeLease l.addr).Full (renewed l input context).addr :=
    (LeaseDatabase.full_removeLease_iff hmem).mpr hover
  have hadd := LeaseDatabase.addLease_of_full hfull
  unfold renewed at hadd
  simp only [renewLease, hlease, hadd]

theorem renewLease_of_room (context : DhcpContext) (hlease : db.findByMac input.order m = some l)
    (hroom : db.v4ByIp.length ≤ db.maxLeases) : ∃ db', renewLease db input m context = (db', none) ∧
      ∀ l', l' ∈ db'.v4ByIp ↔ l' = renewed l input context ∨ l' ∈ db.v4ByIp ∧ l'.addr ≠ l.addr := by
  have hmem := (LeaseDatabase.findByMac_eq_some hlease).1
  have hfull : ¬ (db.removeLease l.addr).Full (renewed l input context).addr :=
    fun hfull => absurd ((LeaseDatabase.full_removeLease_iff hmem).mp hfull) (by omega)
  obtain ⟨db', hadd, hdb'⟩ := LeaseDatabase.addLease_of_not_full hfull
  refine ⟨db', ?_, ?_⟩
  · unfold renewed at hadd
    simp only [renewLease, hlease, hadd]
  · intro l'
    rw [hdb', LeaseDatabase.mem_removeLease, and_assoc, show (renewed l input context).addr =
      l.addr from rfl, and_self]

theorem owned_renewLease (hlease : db.findByMac input.order packet.chaddr = some l) :
    server.Owned db packet.chaddr (acknowledgeRenewed l.addr
      (renewLease db input packet.chaddr context)) ↔
      (db.v4ByIp.length ≤ db.maxLeases → ¬ server.ReservedForOther packet.chaddr l.addr) := by
  obtain ⟨hmem, hmac⟩ := LeaseDatabase.findByMac_eq_some hlease
  have hfree : ¬ db.HeldByOther packet.chaddr l.addr :=
    hmac ▸ LeaseDatabase.not_heldByOther_of_mem hmem
  rcases Nat.lt_or_ge db.maxLeases db.v4ByIp.length with hover | hroom
  · rw [renewLease_of_over hlease hover]
    exact iff_of_true ((owned_removeLease _ (not_gives_err _)).mpr hfree) fun hroom =>
      absurd hover (by omega)
  obtain ⟨db', hrenew, hdb'⟩ := renewLease_of_room context hlease hroom
  obtain ⟨hkept, hfree'⟩ := kept_of_insert (l := renewed l input context) hmac hfree hdb'
  rw [hrenew]
  exact (owned_ack hkept hfree').trans ⟨fun h _ => h, fun h => h hroom⟩

theorem owned_handleRenewing :
    server.Owned db packet.chaddr (handleRenewing db input packet context) ↔
      server.RenewingProper db input.order packet := by
  unfold handleRenewing RenewingProper
  by_cases hzero : packet.ciaddr = 0
  · rw [if_pos hzero]
    exact iff_of_true (owned_of_silent (not_gives_nak _)) (fun h => absurd hzero h)
  rw [if_neg hzero]
  cases hlease : db.findByMac input.order packet.chaddr with
  | none =>
    exact iff_of_true (owned_of_silent (not_gives_nak _)) (fun _ _ hl => nomatch hl)
  | some l =>
    by_cases haddr : l.addr = packet.ciaddr
    · rw [if_neg (by simp [haddr]), ← haddr, owned_renewLease hlease]
      constructor
      · rintro h - l' ⟨⟩ - hroom
        exact h hroom
      · intro h hroom
        exact h (haddr ▸ hzero) l rfl rfl hroom
    rw [if_pos (by simpa using haddr)]
    refine iff_of_true (owned_of_silent (not_gives_nak _)) ?_
    rintro - l' ⟨⟩ haddr'
    exact absurd haddr' haddr

theorem owned_handlePacket :
    server.Owned db packet.chaddr (server.handlePacket db input packet) ↔
    server.Proper db input packet := by
  unfold handlePacket Proper
  cases hcontext : server.findContextForPacket packet with
  | none => exact iff_of_true (owned_of_silent (not_gives_err _)) (fun _ h => nomatch h)
  | some context =>
    simp only [Option.some.injEq, forall_eq']
    cases packet.messageType with
    | discover => exact owned_handleDiscover
    | request =>
      unfold handleRequest
      cases packet.serverId with
      | some sid => exact owned_handleSelecting
      | none => exact owned_handleRenewing
    | release => exact owned_handleRelease
    | decline => exact owned_handleDecline
    | inform =>
      unfold handleInform
      split_ifs
      · exact iff_of_true (owned_of_silent not_gives_none) trivial
      · exact iff_of_true (owned_of_silent fun a => by simp [Handled.Gives]) trivial
    | offer | ack | nak => exact iff_of_true (owned_of_silent not_gives_none) trivial

variable (server)

/-- What happens to the database: a packet is handled, or the leases that ran out are removed. -/
inductive Event
  | packet (input : Input) (packet : DhcpPacket)
  | prune (now : ℕ)

/-- `P` holds of every packet of the run, in the state in which it comes. -/
def Along (P : LeaseDatabase → Input → DhcpPacket → Prop) : LeaseDatabase → List Event → Prop
  | _, [] => True
  | db, .packet input packet :: events =>
    P db input packet ∧ Along P (server.handlePacket db input packet).db events
  | db, .prune now :: events => Along P (db.prune now) events

variable {server}

theorem along_congr {P Q : LeaseDatabase → Input → DhcpPacket → Prop} (h : ∀ db input packet,
    P db input packet ↔ Q db input packet)
    (db : LeaseDatabase) (events : List Event) : server.Along P db events ↔
    server.Along Q db events := by
  induction events generalizing db with
  | nil => exact Iff.rfl
  | cons event events ih =>
    cases event with
    | packet input packet => exact and_congr (h db input packet) (ih _)
    | prune now => exact ih _

/-- Every packet of a run leaves the leases of the other clients as they are, and gives its client
no address that is leased to or reserved for another, if and only if every packet comes in a state
that is proper for it. -/
theorem run_owned_iff_proper (server : Server) (db : LeaseDatabase) (events : List Event) :
    server.Along (fun db input packet =>
      server.Owned db packet.chaddr (server.handlePacket db input packet)) db events ↔
      server.Along server.Proper db events :=
  along_congr (fun _ _ _ => owned_handlePacket) db events

end Server

def alice : Bytes := [2, 0, 0, 0, 0, 1]

def bob : Bytes := [2, 0, 0, 0, 0, 2]

/-- 10.0.0.10 is reserved for `alice`. -/
def smallServer : Server where
  serverAddr := 0x0a000001
  contexts := [⟨.v4 0x0a00000a, .v4 0x0a000014, some 0xffffff00, some 0x0a0000ff, 3600⟩]
  staticHosts := [⟨alice, .v4 0x0a00000a, rfl⟩]

/-- A database with room for ten leases of which none, or that of `alice`, is there. -/
def emptyDatabase : LeaseDatabase := ⟨[], 10, nodup_nil⟩

def aliceDatabase : LeaseDatabase :=
    ⟨[⟨0x0a00000a, alice, none, none, 3600, .new⟩], 10, nodup_singleton _⟩

def plainInput : Input := ⟨⟨id, fun _ => .refl _⟩, 0, 0⟩

def bobRelease : DhcpPacket := ⟨.release, bob, bob, 0x0a00000a, 0, none, none, by decide⟩

def bobDiscover : DhcpPacket := ⟨.discover, bob, bob, 0, 0, none, none, by decide⟩

/-- `bob` releases the lease of `alice`, and is offered the address that is reserved for `alice`. -/
theorem bob_takesAddress : ¬ smallServer.Along
        (fun db input packet => smallServer.Owned db packet.chaddr
          (smallServer.handlePacket db input packet))
        aliceDatabase [.packet plainInput bobRelease] ∧ ¬ smallServer.Along
        (fun db input packet => smallServer.Owned db packet.chaddr
          (smallServer.handlePacket db input packet))
        emptyDatabase [.packet plainInput bobDiscover] := by
  constructor
  · rintro ⟨h, -⟩
    have hkept := h.kept ⟨0x0a00000a, alice, none, none, 3600,
      .new⟩ (mem_singleton_self _) (by decide)
    exact absurd hkept (by decide)
  · rintro ⟨h, -⟩
    have hgiven := h.given 0x0a00000a (.inl (by decide +kernel))
    exact hgiven.2 ⟨⟨alice, .v4 0x0a00000a, rfl⟩, mem_singleton_self _, rfl, by decide⟩

end Dnsmasq.Port.DhcpServer
