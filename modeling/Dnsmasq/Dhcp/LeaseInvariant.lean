import Dnsmasq.Dhcp.Search

/-!
What the DHCPv4 server can do to the lease database: prune leases, store into them without touching
their addresses, and allocate leases for addresses that have none.
-/
namespace Dnsmasq.Dhcp

open List Option

namespace LeaseDb

/-- A chain of the changes that are allowed. -/
inductive Evolves : LeaseDb → LeaseDb → Prop
  | refl (db : LeaseDb) : Evolves db db
  | prune {db db' : LeaseDb} (target : Option ℕ) (now : ℕ) (h : Evolves db db') :
      Evolves db (db'.leasePrune target now)
  | store {db db' : LeaseDb} (id : ℕ) (f : Lease → Lease) (hf : ∀ l, (f l).id = l.id)
      (haddr : ∀ l, (f l).addr = l.addr ∧ (f l).v6 = l.v6) (h : Evolves db db') :
      Evolves db (db'.update id f hf)
  | allocate {db db' db'' : LeaseDb} {memory v6 : Bool} {addr : InAddr} {l : Lease}
      (h : Evolves db db') (hfree : v6 = false → db'.leaseFindByAddr addr = none)
      (halloc : db'.leaseAllocate memory addr v6 = some (l, db'')) : Evolves db db''

variable {db : LeaseDb} {addr : InAddr} {l : Lease}

theorem leaseAllocate_eq_some {db' : LeaseDb} {memory v6 : Bool}
    (h : db.leaseAllocate memory addr v6 = some (l, db')) :
    l.addr = addr ∧ l.v6 = v6 ∧ db'.leases = l :: db.leases ∧
      db'.leasesLeft + 1 = db.leasesLeft := by
  simp only [leaseAllocate] at h
  split_ifs at h with hc
  obtain ⟨rfl, rfl⟩ := h
  exact ⟨rfl, rfl, rfl, Nat.sub_add_cancel (by omega)⟩

theorem leaseFindByAddr_eq_none (h : db.leaseFindByAddr addr = none) :
    ∀ l ∈ db.leases, l.v6 = false → l.addr ≠ addr := by
  intro l hl h6 haddr
  have := find?_eq_none.mp h l hl
  simp [h6, haddr] at this

theorem leaseFindByAddr_eq_some (h : db.leaseFindByAddr addr = some l) :
    l ∈ db.leases ∧ l.v6 = false ∧ l.addr = addr := by
  refine ⟨mem_of_find?_eq_some h, ?_⟩
  simpa using find?_some h

theorem leaseFindByClient_eq_some {hwaddr : Bytes} {hwType : ℕ}
    {clid : Option Bytes} (h : db.leaseFindByClient hwaddr hwType clid = some l) :
    l ∈ db.leases ∧ l.v6 = false := by
  simp only [leaseFindByClient, orElse_eq_orElse, orElse_eq_or,
    or_eq_some_iff] at h
  rcases h with h | ⟨-, h⟩
  all_goals
    have hp := find?_some h
    simp only [Bool.and_eq_true, Bool.not_eq_true'] at hp
    exact ⟨mem_of_find?_eq_some h, by tauto⟩

end LeaseDb

namespace Daemon

open LeaseDb

/-- A search for an address that changes no lease and finds only addresses without one. -/
def FindsFree (d : Daemon) (r : Option InAddr × Daemon) : Prop :=
  r.2.db = d.db ∧ ∀ a, r.1 = some a → d.db.leaseFindByAddr a = none

variable {d d' : Daemon} {db : LeaseDb}

theorem addressAllocate_findsFree (d : Daemon) (context : List ℕ) (hwaddr : Bytes)
    (netids : List Tag) (now : ℕ) (loopback : Bool) :
    FindsFree d (d.addressAllocate context hwaddr netids now loopback) := by
  have hspec := addressAllocate_allocates d context hwaddr netids now loopback
  refine ⟨db_of_still hspec.still, fun a ha => ?_⟩
  have hunused := hspec.unused a ha
  simp only [unusedAddr, Bool.and_eq_true, isNone_iff_eq_none] at hunused
  exact hunused.1.1.2

theorem selectContext_db (d : Daemon) (context : List ℕ)
    (giaddr subnetAddr ciaddr fallback : InAddr) :
    (d.selectContext context giaddr subnetAddr ciaddr fallback).1.db = d.db := by
  unfold selectContext
  dsimp only
  split_ifs <;> rfl

theorem grantLease_evolves (h : Evolves db d.db) (lease : Lease)
    (req : Request) (clid : Option Bytes) (memory : Bool) (time now : ℕ) (override : InAddr) :
    Evolves db (d.grantLease lease req clid memory time now override).db :=
  h.store lease.id _ (fun l => (l.grant_frame req clid memory time now override).1)
    fun l => (l.grant_frame req clid memory time now override).2

section

variable (d : Daemon)

theorem dropLease_evolves (lease : Option Lease) (now : ℕ) :
    Evolves d.db (d.dropLease lease now).db := by
  cases lease with
  | none => exact .refl _
  | some l => exact (Evolves.refl _).prune (some l.id) now

theorem bootpAddress_spec (context : List ℕ) (config : Option ℕ) (req : Request)
    (arrival : Arrival) (tagif : List Tag) :
    Evolves d.db (d.bootpAddress context config req arrival tagif).2.db ∧
      ∀ a, (d.bootpAddress context config req arrival tagif).1 = some (a, none) →
        (d.bootpAddress context config req arrival tagif).2.db.leaseFindByAddr a = none := by
  unfold bootpAddress
  split
  · dsimp only
    split_ifs
    · exact ⟨.refl _, fun a h => by cases h⟩
    refine ⟨.refl _, fun a h => ?_⟩
    simp only [Option.some.injEq, Prod.mk.injEq] at h
    rw [← h.1]
    exact h.2
  dsimp only
  split
  · exact ⟨.refl _, fun a h => by cases h⟩
  have hprune := dropLease_evolves d (d.db.leaseFindByClient req.chaddr req.htype none)
    arrival.now
  generalize d.dropLease _ _ = d' at hprune ⊢
  have hspec := addressAllocate_findsFree d' context req.chaddr tagif arrival.now
    arrival.loopback
  split
  · rename_i d'' h
    rw [h] at hspec
    exact ⟨hspec.1 ▸ hprune, fun a h => by cases h⟩
  rename_i addr d'' h
  rw [h] at hspec
  refine ⟨hspec.1 ▸ hprune, fun a h => ?_⟩
  cases h
  rw [hspec.1]
  exact hspec.2 _ rfl

theorem bootpReply_evolves (context : List ℕ) (config : Option ℕ)
    (netid : List Tag) (req : Request) (arrival : Arrival) :
    Evolves d.db (d.bootpReply context config netid req arrival).2.db := by
  unfold bootpReply
  split_ifs
  · exact .refl _
  dsimp only
  generalize runTagIf d.tagIf _ = tagif
  split_ifs
  · exact .refl _
  obtain ⟨hev, hfree⟩ := bootpAddress_spec d context config req arrival tagif
  split
  · rename_i d' h
    rwa [h] at hev
  rename_i yiaddr lease d' h
  rw [h] at hev hfree
  split
  · exact hev
  split_ifs
  · exact hev
  split
  · exact grantLease_evolves hev _ _ _ _ _ _ _
  split
  · exact hev
  · rename_i l db halloc
    have := hev.allocate (fun _ => hfree _ rfl) halloc
    exact grantLease_evolves this _ _ _ _ _ _ _

theorem declineReply_evolves (s : Session) : Evolves d.db (d.declineReply s).db := by
  have hfold (is : List ℕ) (f : Context → Context) (d : Daemon) :
      (is.foldl (fun d i => d.modifyContext i f) d).db = d.db := by
    induction is generalizing d with
    | nil => rfl
    | cons i is ih => exact ih _
  unfold declineReply
  split
  · dsimp only
    split_ifs
    · exact .refl _
    · exact dropLease_evolves _ _ _
    · rw [hfold]
      exact dropLease_evolves _ _ _
  · exact .refl _

theorem releaseReply_evolves (s : Session) : Evolves d.db (d.releaseReply s).db := by
  unfold releaseReply
  split
  · split_ifs
    · exact .refl _
    · exact dropLease_evolves _ _ _
  · exact .refl _

end

theorem checkRequest_none {s : Session} {lease : Option Lease} {yiaddr : InAddr}
    {i : ℕ} {routed selecting : Bool}
    (h : d.checkRequest s lease yiaddr i routed selecting = .ok none) :
    d.db.leaseFindByAddr yiaddr = none := by
  unfold checkRequest at h
  dsimp only at h
  split_ifs at h
  split at h
  · split_ifs at h
    cases h
  rename_i hno
  cases h
  cases hfind : d.db.leaseFindByAddr yiaddr with
  | none => rfl
  | some l => exact absurd hfind (hno l rfl)

theorem commitReply_evolves (h : Evolves db d.db) (s : Session)
    (context : List ℕ) (lease : Option Lease) (yiaddr override : InAddr)
    (selecting rapid : Bool) (message : Option String) : Evolves db
      (d.commitReply s context lease yiaddr override selecting rapid message).2.db := by
  unfold commitReply
  split
  · exact h
  split
  · exact h
  dsimp only
  split
  · exact h
  · exact h
  rename_i lease' c hcheck _
  split_ifs
  · exact h
  split
  · exact grantLease_evolves h _ _ _ _ _ _ _
  split
  · exact h
  · rename_i l db' halloc
    have := h.allocate (fun _ => checkRequest_none hcheck) halloc
    exact grantLease_evolves this _ _ _ _ _ _ _

section

variable (d : Daemon) (s : Session)

theorem discoverAddress_db : (d.discoverAddress s).2.db = d.db :=
  db_of_still (discoverAddress_offered d s).1

theorem discoverReply_evolves : Evolves d.db (d.discoverReply s).2.db := by
  have hdb := discoverAddress_db d s
  unfold discoverReply
  split_ifs
  · exact .refl _
  split
  · rename_i h
    rw [h] at hdb
    exact hdb ▸ .refl _
  rename_i yiaddr d' h
  rw [h] at hdb
  have hev : Evolves d.db d'.db := hdb ▸ .refl _
  split
  · exact hev
  dsimp only
  split_ifs
  · exact commitReply_evolves hev _ _ _ _ _ _ _ _
  · split
    · exact hev
    · exact hev

theorem requestReply_evolves : Evolves d.db (d.requestReply s).2.db := by
  unfold requestReply
  split
  · exact .refl _
  split
  · split
    · exact .refl _
    · exact commitReply_evolves (dropLease_evolves _ _ _) _ _ _ _ _ _ _ _
  · split
    · exact .refl _
    · exact commitReply_evolves (.refl _) _ _ _ _ _ _ _ _
  · split
    · exact .refl _
    · exact commitReply_evolves (.refl _) _ _ _ _ _ _ _ _

theorem informReply_evolves : Evolves d.db (d.informReply s).2.db := by
  unfold informReply
  split
  · exact .refl _
  split
  · exact .refl _
  · exact (Evolves.refl d.db).store _ (Lease.setOverride _) (fun _ => rfl) fun _ => ⟨rfl, rfl⟩

theorem dispatchReply_evolves : Evolves d.db (d.dispatchReply s).2.db := by
  unfold dispatchReply
  split
  · exact .refl _
  split_ifs
  · exact .refl _
  · exact declineReply_evolves d s
  · exact releaseReply_evolves d s
  · exact discoverReply_evolves d s
  · exact requestReply_evolves d s
  · exact informReply_evolves d s
  · exact .refl _

end

theorem dhcpReply_evolves (d : Daemon) (req : Request) (arrival : Arrival) :
    Evolves d.db (d.dhcpReply req arrival).2.db := by
  unfold dhcpReply
  split
  · exact .refl _
  split
  · exact .refl _
  split
  · exact .refl _
  dsimp only
  generalize req.clearCiaddr = req'
  have hdb := selectContext_db d arrival.context req'.giaddr req'.subnetSelect req'.ciaddr
    arrival.fallback
  split
  · rename_i d' h
    rw [h] at hdb
    exact hdb ▸ .refl _
  rename_i d' context _ h
  rw [h] at hdb
  rw [← hdb]
  split
  · exact bootpReply_evolves _ _ _ _ _ _
  · exact dispatchReply_evolves _ _

end Daemon

namespace LeaseDb

/-- No two DHCPv4 leases have the same address, and every lease is accounted for. -/
structure Valid (dhcpMax : ℕ) (db : LeaseDb) : Prop where
  distinct : db.leases.Pairwise fun l₁ l₂ => l₁.v6 = false → l₂.v6 = false → l₁.addr ≠ l₂.addr
  accounted : db.leasesLeft + db.leases.length = dhcpMax

variable {dhcpMax : ℕ} {db db' : LeaseDb}

theorem Valid.leasePrune (h : Valid dhcpMax db) (target : Option ℕ) (now : ℕ) :
    Valid dhcpMax (db.leasePrune target now) where
  distinct := h.distinct.sublist filter_sublist
  accounted := by
    have hsplit := length_eq_length_filter_add
      (l := db.leases) fun l => expired l now || target == some l.id
    have := h.accounted
    simp only [LeaseDb.leasePrune]
    omega

theorem Valid.update (h : Valid dhcpMax db) (id : ℕ) (f : Lease → Lease)
    (hf : ∀ l, (f l).id = l.id) (haddr : ∀ l, (f l).addr = l.addr ∧ (f l).v6 = l.v6) :
    Valid dhcpMax (db.update id f hf) where
  distinct := by
    have hsame (l : Lease) : (if l.id = id then f l else l).addr = l.addr ∧
        (if l.id = id then f l else l).v6 = l.v6 := by
      split_ifs
      · exact haddr l
      · exact ⟨rfl, rfl⟩
    refine pairwise_map.mpr (h.distinct.imp fun {l₁ l₂} h12 => ?_)
    rwa [(hsame l₁).1, (hsame l₁).2, (hsame l₂).1, (hsame l₂).2]
  accounted := by
    have := h.accounted
    simpa [LeaseDb.update] using this

theorem Valid.leaseAllocate {memory v6 : Bool} {addr : InAddr} {l : Lease}
    (h : Valid dhcpMax db) (hfree : v6 = false → db.leaseFindByAddr addr = none)
    (halloc : db.leaseAllocate memory addr v6 = some (l, db')) : Valid dhcpMax db' := by
  obtain ⟨rfl, rfl, hleases, hleft⟩ := leaseAllocate_eq_some halloc
  constructor
  · rw [hleases]
    refine pairwise_cons.mpr ⟨fun l' hl' h6 h6' => ?_, h.distinct⟩
    exact (leaseFindByAddr_eq_none (hfree h6) l' hl' h6').symm
  · have := h.accounted
    rw [hleases, length_cons]
    omega

theorem Evolves.valid (h : Evolves db db') (hv : Valid dhcpMax db) : Valid dhcpMax db' := by
  induction h with
  | refl => exact hv
  | prune target now _ ih => exact ih.leasePrune target now
  | store id f hf haddr _ ih => exact ih.update id f hf haddr
  | allocate _ hfree halloc ih => exact ih.leaseAllocate hfree halloc

theorem readLeases_valid {memory : Bool} {stored : List StoredLease} (hv : Valid dhcpMax db)
    (hstored : stored.Pairwise fun r₁ r₂ => r₁.v6 = false → r₂.v6 = false → r₁.addr ≠ r₂.addr)
    (hnew : ∀ r ∈ stored, r.v6 = false → db.leaseFindByAddr r.addr = none)
    (h : db.readLeases memory stored = some db') : Valid dhcpMax db' := by
  induction stored generalizing db with
  | nil =>
    cases h
    exact hv
  | cons r rest ih =>
    rw [readLeases] at h
    cases halloc : db.leaseAllocate memory r.addr r.v6 with
    | none => simp [halloc] at h
    | some p =>
      obtain ⟨l, db₁⟩ := p
      simp only [halloc] at h
      have hv₁ := hv.leaseAllocate (hnew r mem_cons_self) halloc
      obtain ⟨hr, hrest⟩ := pairwise_cons.mp hstored
      refine ih (hv₁.update _ _ _ fun l => (r.restore_frame l).2) hrest (fun r' hr' h6 => ?_) h
      obtain ⟨haddr, hv6, hleases, -⟩ := leaseAllocate_eq_some halloc
      refine find?_eq_none.mpr fun l' hl' hc => ?_
      obtain ⟨l₀, hl₀, rfl⟩ := mem_map.mp hl'
      have hsame : (if l₀.id = l.id then r.restore l₀ else l₀).addr = l₀.addr ∧
          (if l₀.id = l.id then r.restore l₀ else l₀).v6 = l₀.v6 := by
        split_ifs
        · exact (r.restore_frame l₀).2
        · exact ⟨rfl, rfl⟩
      simp only [hsame.1, hsame.2, Bool.and_eq_true, Bool.not_eq_true', beq_iff_eq] at hc
      rw [hleases] at hl₀
      rcases mem_cons.mp hl₀ with rfl | hold
      · exact hr r' hr' (hv6 ▸ hc.1) h6 (haddr ▸ hc.2)
      · exact leaseFindByAddr_eq_none (hnew r' (mem_cons_of_mem _ hr') h6) l₀ hold hc.1 hc.2

end LeaseDb

namespace Daemon

/-- What happens to the server: a packet, a call of `lease_prune`, or a reload, after which
anything but the leases may be different. -/
inductive Event
  | packet (req : Request) (arrival : Arrival)
  | prune (target : Option ℕ) (now : ℕ)
  | reload (config : Daemon)

def step (d : Daemon) : Event → Daemon
  | .packet req arrival => (d.dhcpReply req arrival).2
  | .prune target now => { d with db := d.db.leasePrune target now }
  | .reload config => { config with db := d.db }

def run (d : Daemon) (events : List Event) : Daemon := events.foldl step d

theorem step_valid {dhcpMax : ℕ} {d : Daemon} (h : d.db.Valid dhcpMax) (e : Event) :
    (d.step e).db.Valid dhcpMax := by
  cases e with
  | packet req arrival => exact (dhcpReply_evolves d req arrival).valid h
  | prune target now => exact h.leasePrune target now
  | reload config => exact h

theorem run_valid {dhcpMax : ℕ} {d : Daemon} (h : d.db.Valid dhcpMax) (events : List Event) :
    (d.run events).db.Valid dhcpMax := by
  induction events generalizing d with
  | nil => exact h
  | cons e events ih => exact ih (step_valid h e)

/-- Started on a lease file without duplicate addresses, the server never leases an address
twice, and `leases_left` and the leases always add up to `dhcp_max`. -/
theorem run_leases_valid {dhcpMax : ℕ} {memory : Bool} {stored : List StoredLease} {now : ℕ}
    {d : Daemon}
    (hstored : stored.Pairwise fun r₁ r₂ => r₁.v6 = false → r₂.v6 = false → r₁.addr ≠ r₂.addr)
    (hinit : LeaseDb.leaseInit dhcpMax memory stored now = some d.db) (events : List Event) :
    ((d.run events).db.leases.Pairwise fun l₁ l₂ =>
        l₁.v6 = false → l₂.v6 = false → l₁.addr ≠ l₂.addr) ∧
      (d.run events).db.leasesLeft + (d.run events).db.leases.length = dhcpMax := by
  obtain ⟨db, hread, hdb⟩ := map_eq_some_iff.mp hinit
  have hinit :=
    (LeaseDb.readLeases_valid ⟨.nil, rfl⟩ hstored (fun _ _ _ => rfl) hread).leasePrune none now
  have hv := run_valid (hdb ▸ hinit) events
  exact ⟨hv.distinct, hv.accounted⟩

/-- One stored lease for 192.168.0.10, and the range 192.168.0.10 to 192.168.0.12. -/
def officeLeases : List StoredLease :=
  [{ expires := 0, addr := 0xc0a8000a, v6 := false, hwaddr := [2, 0, 0, 0, 0, 1], hwaddrType := 1,
     clid := none }]

theorem officeLeases_loaded : (LeaseDb.leaseInit 2 true officeLeases 100).isSome = true := by
  decide

def officeDaemon : Daemon where
  db := (LeaseDb.leaseInit 2 true officeLeases 100).get officeLeases_loaded
  dhcp := [{ netmask := 0xffffff00, start := 0xc0a8000a, stop := 0xc0a8000c,
             localAddr := 0xc0a80001, router := 0xc0a80001 }]
  optNoPing := true
  optRapidCommit := true

/-- A second client gets a lease by rapid commit, and the first one releases its own. -/
def officeEvents : List Event :=
  [.packet { chaddr := [2, 0, 0, 0, 0, 2], messageType := some dhcpdiscover, rapidCommit := true }
      { context := [0], now := 200 },
    .packet
      { chaddr := [2, 0, 0, 0, 0, 1], messageType := some dhcprelease, ciaddr := 0xc0a8000a
        serverIdentifier := some 0xc0a80001 }
      { context := [0], now := 300 }]

theorem run_leases_valid_office :
    ((officeDaemon.run officeEvents).db.leases.map (·.addr) = [0xc0a8000b]) ∧
      (officeDaemon.run officeEvents).db.leasesLeft +
        (officeDaemon.run officeEvents).db.leases.length = 2 :=
  ⟨by decide +kernel,
    (run_leases_valid (d := officeDaemon) (pairwise_singleton _ _)
      (some_get officeLeases_loaded).symm officeEvents).2⟩

end Daemon

end Dnsmasq.Dhcp
