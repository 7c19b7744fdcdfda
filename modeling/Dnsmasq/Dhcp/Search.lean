import Dnsmasq.Dhcp.Reply

/-!
What the search for an address changes and what it finds. Trying addresses moves epochs and the
cache of echo replies on and leaves everything else alone.
-/
namespace Dnsmasq.Dhcp

open List

def Context.settled (c : Context) : Context := { c with addrEpoch := 0 }

namespace Daemon

/-- The server without what a search for an address may change. -/
def still (d : Daemon) : Daemon :=
  { d with dhcp := d.dhcp.map Context.settled, pingResults := [], echoReplies := [] }

variable {d d' : Daemon}

variable {p : Context → Bool} {i : ℕ} {c : Context} {context : List ℕ} {r : Option InAddr × Daemon}
    {netids : List Tag} {a : InAddr}

section

variable (d : Daemon)

theorem getElem?_still_any (i : ℕ)
    (hp : ∀ c, p c.settled = p c) : d.still.dhcp[i]?.any p = d.dhcp[i]?.any p := by
  cases h : d.dhcp[i]? <;> simp [still, h, hp]

theorem find?_still_any (context : List ℕ) (hp : ∀ c, p c.settled = p c) :
    context.find? (fun i => d.still.dhcp[i]?.any p) = context.find? fun i => d.dhcp[i]?.any p := by
  congr 1
  funext i
  exact getElem?_still_any d i hp

theorem contexts_still (context : List ℕ) :
    d.still.contexts context = (d.contexts context).map Context.settled := by
  simp [contexts, still, map_filterMap]

theorem addressAvailable_still (context : List ℕ) (addr : InAddr) (netids : List Tag) :
    d.still.addressAvailable context addr netids = d.addressAvailable context addr netids := by
  have hhead : (d.still.contexts context).head?.any (·.router == addr) =
      (d.contexts context).head?.any (·.router == addr) := by
    rw [contexts_still]
    cases d.contexts context <;> rfl
  simp only [addressAvailable, hhead]
  rw [find?_still_any d context fun _ => rfl]

theorem narrowContext_still (context : List ℕ) (addr : InAddr) (netids : List Tag) :
    d.still.narrowContext context addr netids = d.narrowContext context addr netids := by
  simp only [narrowContext, addressAvailable_still]
  rw [find?_still_any d context fun _ => rfl, find?_still_any d context fun _ => rfl]

theorem unusedAddr_still (context : List ℕ) (addr : InAddr) :
    d.still.unusedAddr context addr = d.unusedAddr context addr := by
  simp only [unusedAddr, contexts_still, any_map]
  rfl

end

section

variable (h : d'.still = d.still) (context : List ℕ) (addr : InAddr)
include h

theorem addressAvailable_congr (netids : List Tag) :
    d'.addressAvailable context addr netids = d.addressAvailable context addr netids := by
  rw [← addressAvailable_still, h, addressAvailable_still]

theorem narrowContext_congr (netids : List Tag) :
    d'.narrowContext context addr netids = d.narrowContext context addr netids := by
  rw [← narrowContext_still, h, narrowContext_still]

theorem unusedAddr_congr : d'.unusedAddr context addr = d.unusedAddr context addr := by
  rw [← unusedAddr_still, h, unusedAddr_still]

end

theorem db_of_still (h : d'.still = d.still) : d'.db = d.db := by
  have := congrArg Daemon.db h
  exact this

theorem getElem?_congr (h : d'.still = d.still) (hc : d.dhcp[i]? = some c) :
    ∃ c', d'.dhcp[i]? = some c' ∧ c'.settled = c.settled := by
  have := congrArg (·.dhcp[i]?) h
  simpa [still, hc] using this

theorem modifyContext_still (d : Daemon) (i : ℕ) (f : Context → Context)
    (hf : ∀ c, (f c).settled = c.settled) : (d.modifyContext i f).still = d.still := by
  have : (d.dhcp.modify i f).map Context.settled = d.dhcp.map Context.settled := by
    refine ext_getElem? fun k => ?_
    by_cases h : i = k <;> cases hk : d.dhcp[k]? <;> simp [h, hk, hf]
  simp [modifyContext, still, this]

theorem doIcmpPing_still (d : Daemon) (now : ℕ) (addr : InAddr) (hash : BitVec 32)
    (loopback : Bool) : (d.doIcmpPing now addr hash loopback).2.still = d.still := by
  unfold doIcmpPing
  dsimp only
  split
  · rfl
  · split_ifs <;> rfl

def InRange (c : Context) (addr : InAddr) : Prop :=
  c.start.toNat ≤ addr.toNat ∧ addr.toNat ≤ c.stop.toNat

theorem inRange_settled {c' : Context} (h : c'.settled = c.settled) (addr : InAddr) :
    InRange c' addr ↔ InRange c addr := by
  have hstart := congrArg Context.start h
  have hstop := congrArg Context.stop h
  simp only [Context.settled] at hstart hstop
  rw [InRange, InRange, hstart, hstop]

/-- A search that finds only unused addresses of one range. -/
structure Finds (d : Daemon) (context : List ℕ) (c : Context) (r : Option InAddr × Daemon) :
    Prop where
  still : r.2.still = d.still
  unused : ∀ a, r.1 = some a → d.unusedAddr context a = true
  inRange : ∀ a, r.1 = some a → InRange c a

theorem Finds.of_none (h : d'.still = d.still) : Finds d context c (none, d') := ⟨h, nofun, nofun⟩

theorem Finds.of_still (h : d'.still = d.still) (hr : Finds d' context c r) : Finds d context c r :=
  ⟨hr.still.trans h, fun a ha => unusedAddr_congr h context a ▸ hr.unused a ha, hr.inRange⟩

theorem tryAddr_finds (d : Daemon) (context : List ℕ) (i : ℕ) (c c₀ : Context) (addr : InAddr)
    (j : BitVec 32) (now : ℕ) (loopback : Bool) (hr : InRange c₀ addr) :
    Finds d context c₀ (d.tryAddr context i c addr j now loopback) := by
  unfold tryAddr
  split_ifs with hused hepoch
  · exact .of_none rfl
  · exact .of_none (modifyContext_still d i _ fun _ => rfl)
  have hping := doIcmpPing_still d now addr j loopback
  cases h : d.doIcmpPing now addr j loopback with
  | mk r d' =>
    rw [h] at hping
    cases r with
    | some hash =>
      refine ⟨hping, fun a ha => ?_, fun a ha => ?_⟩ <;>
        dsimp only at ha <;> split_ifs at ha <;> cases ha
      · simpa using hused
      · exact hr
    | none =>
      refine .of_none ?_
      split_ifs
      · exact hping
      · exact (modifyContext_still d' i (fun c => { c with addrEpoch := c.addrEpoch + 1 })
          fun _ => rfl).trans hping

theorem inRange_next {addr : InAddr} (h : InRange c addr) :
    InRange c (if addr + 1 = c.stop + 1 then c.start else addr + 1) := by
  have ho := c.ordered
  obtain ⟨h1, h2⟩ := h
  split_ifs with hlast
  · exact ⟨le_rfl, ho⟩
  · constructor <;> bv_omega

theorem scanRange_finds (context : List ℕ) (i : ℕ) (j : BitVec 32) (now : ℕ) (loopback : Bool)
    (start : InAddr) (fuel : ℕ) (addr : InAddr) (d : Daemon)
    (hc : d.dhcp[i]? = some c) (hr : InRange c addr) :
    Finds d context c (scanRange context i j now loopback start fuel addr d) := by
  induction fuel generalizing addr d c with
  | zero => exact .of_none rfl
  | succ fuel ih =>
    have htry := tryAddr_finds d context i c c addr j now loopback hr
    have hnext := inRange_next hr
    simp only [scanRange, hc]
    generalize (if addr + 1 = c.stop + 1 then c.start else addr + 1) = next at hnext
    split
    · rename_i a d' h
      rwa [h] at htry
    rename_i d' h
    rw [h] at htry
    split_ifs
    · exact .of_none htry.still
    obtain ⟨c', hc', hs⟩ := getElem?_congr htry.still hc
    have hspec := ih next d' hc' ((inRange_settled hs next).mpr hnext)
    exact .of_still htry.still
      ⟨hspec.still, hspec.unused, fun a ha => (inRange_settled hs a).mp (hspec.inRange a ha)⟩

theorem leaseFindMaxAddr_inRange (d : Daemon) (c : Context) : InRange c (d.leaseFindMaxAddr c) := by
  have ho := c.ordered
  unfold leaseFindMaxAddr
  split
  · exact ⟨le_rfl, ho⟩
  refine List.foldlRecOn (motive := InRange c) _ _ ⟨le_rfl, ho⟩ fun addr haddr l _ => ?_
  split
  · rename_i h
    simp only [Bool.and_eq_true, decide_eq_true_eq] at h
    exact ⟨h.1.1.2.le, h.1.2⟩
  · exact haddr

theorem seed_inRange (c : Context) (x : BitVec 32) :
    InRange c (c.start + x % (1 + c.stop - c.start)) := by
  have ho := c.ordered
  have hone : (1 : BitVec 32).toNat = 1 := rfl
  simp only [InRange, BitVec.toNat_add, BitVec.toNat_umod, BitVec.toNat_sub, hone]
  -- a range of all addresses has size zero, and every seed is left as it is
  by_cases hall : c.stop.toNat - c.start.toNat + 1 = 2 ^ 32
  · omega
  have hn : (2 ^ 32 - c.start.toNat + (1 + c.stop.toNat) % 2 ^ 32) % 2 ^ 32 =
      c.stop.toNat - c.start.toNat + 1 := by omega
  have hlt := Nat.mod_lt x.toNat (Nat.succ_pos (c.stop.toNat - c.start.toNat))
  rw [hn]
  simp only [Nat.succ_eq_add_one] at hlt
  omega

/-- What `address_allocate` promises. -/
structure Allocates (d : Daemon) (context : List ℕ) (netids : List Tag)
    (r : Option InAddr × Daemon) : Prop where
  still : r.2.still = d.still
  unused : ∀ a, r.1 = some a → d.unusedAddr context a = true
  available : ∀ a, r.1 = some a → (d.addressAvailable context a netids).isSome = true

theorem Allocates.of_still (h : d'.still = d.still) (hr : Allocates d' context netids r) :
    Allocates d context netids r :=
  ⟨hr.still.trans h, fun a ha => unusedAddr_congr h context a ▸ hr.unused a ha,
    fun a ha => addressAvailable_congr h context a netids ▸ hr.available a ha⟩

theorem not_router_of_unused (h : d.unusedAddr context a = true) :
    ∀ c ∈ d.contexts context, c.router ≠ a := by
  simp only [unusedAddr, Bool.and_eq_true, Bool.not_eq_true', any_eq_false, beq_iff_eq] at h
  exact h.1.1.1

theorem addressAvailable_of_inRange (hunused : d.unusedAddr context a = true) (hi : i ∈ context)
    (hc : d.dhcp[i]? = some c) (hdyn : (c.static || c.proxy) = false)
    (htags : matchNetid c.filter netids true = true) (hr : InRange c a) :
    (d.addressAvailable context a netids).isSome = true := by
  have hrouter := not_router_of_unused hunused
  unfold addressAvailable
  rw [if_neg, find?_isSome]
  · exact ⟨i, hi, by simpa [hc, htags, hr.1, hr.2] using hdyn⟩
  · cases h : d.contexts context with
    | nil => simp
    | cons c' rest => simpa using hrouter c' (by simp [h])

theorem matchNetid_weaken {check pool : List Tag} {pass : Bool}
    (h : matchNetid check pool pass = true) : matchNetid check pool true = true := by
  unfold matchNetid at h ⊢
  split at h
  · cases h
  · simpa using h

theorem allocateFrom_allocates (context : List ℕ) (j : BitVec 32) (netids : List Tag) (now : ℕ)
    (loopback pass : Bool) (is : List ℕ) (his : ∀ i ∈ is, i ∈ context) (d : Daemon) :
    Allocates d context netids (allocateFrom context j netids now loopback pass is d) := by
  induction is generalizing d with
  | nil => exact ⟨rfl, nofun, nofun⟩
  | cons i rest ih =>
    have ih := fun d => ih (fun i hi => his i (by simp [hi])) d
    rw [allocateFrom]
    split
    · exact ih d
    rename_i c hc
    have hseed : InRange c (if d.optConsecAddr = true then d.leaseFindMaxAddr c
        else c.start + (j + c.addrEpoch) % (1 + c.stop - c.start)) := by
      split
      · exact leaseFindMaxAddr_inRange d c
      · exact seed_inRange c _
    dsimp only
    generalize (if d.optConsecAddr = true then d.leaseFindMaxAddr c
      else c.start + (j + c.addrEpoch) % (1 + c.stop - c.start)) = start at hseed ⊢
    split_ifs with hskip
    · exact ih d
    simp only [Bool.or_eq_true, not_or, Bool.not_eq_true, Bool.not_eq_false'] at hskip
    have hspec := scanRange_finds context i j now loopback start
      (c.stop.toNat - c.start.toNat + 1) start d hc hseed
    split
    · rename_i a d' hscan
      rw [hscan] at hspec
      refine ⟨hspec.still, hspec.unused, fun a ha => ?_⟩
      exact addressAvailable_of_inRange (hspec.unused a ha) (his i (by simp)) hc
        (by simp [hskip.1]) (matchNetid_weaken hskip.2) (hspec.inRange a ha)
    · rename_i d' hscan
      rw [hscan] at hspec
      exact .of_still hspec.still (ih d')

theorem addressAllocate_allocates (d : Daemon) (context : List ℕ) (hwaddr : Bytes)
    (netids : List Tag) (now : ℕ) (loopback : Bool) :
    Allocates d context netids (d.addressAllocate context hwaddr netids now loopback) := by
  have hspec := allocateFrom_allocates context (hashHwaddr hwaddr) netids now loopback false
    context (fun _ h => h) d
  unfold addressAllocate
  dsimp only
  split
  · rename_i a d' h
    rwa [h] at hspec
  rename_i d' h
  rw [h] at hspec
  exact .of_still hspec.still
    (allocateFrom_allocates context _ netids now loopback true context (fun _ h => h) d')

/-- Where the address of an offer comes from. -/
inductive Offered (d : Daemon) (s : Session) (a : InAddr) : Prop
  | configured (h : d.offeredConfigAddr s = some a)
  | leased {l : Lease} (hl : s.lease = some l) (haddr : l.addr = a)
      (havail : (d.addressAvailable s.context a s.tagif).isSome = true)
      (hconf : d.configFindByAddress a = none)
  | requested (hlease : d.db.leaseFindByAddr a = none)
      (havail : (d.addressAvailable s.context a s.tagif).isSome = true)
      (hconf : d.configFindByAddress a = none) (hreq : s.req.requestedIp = some a)
  | allocated (hunused : d.unusedAddr s.context a = true)
      (havail : (d.addressAvailable s.context a s.tagif).isSome = true)

theorem discoverAddress_offered (d : Daemon) (s : Session) :
    (d.discoverAddress s).2.still = d.still ∧
      ∀ a, (d.discoverAddress s).1 = some a → Offered d s a := by
  unfold discoverAddress
  split
  · rename_i addr h
    exact ⟨rfl, fun a ha => .configured (by rw [h]; exact ha)⟩
  split
  · rename_i l h
    obtain ⟨hl, hp⟩ := Option.filter_eq_some_iff.mp h
    simp only [decide_eq_true_eq, Option.isNone_iff_eq_none] at hp
    exact ⟨rfl, by rintro a ⟨⟩; exact .leased hl rfl hp.1 hp.2⟩
  have hreq : (d.requestedAddr s).2.still = d.still ∧
      ∀ a, (d.requestedAddr s).1 = some a → Offered d s a := by
    unfold requestedAddr
    split
    · exact ⟨rfl, nofun⟩
    rename_i addr haddr
    have hping := doIcmpPing_still d s.arrival.now addr 0 s.arrival.loopback
    split_ifs with hp
    · simp only [Option.isNone_iff_eq_none] at hp
      split
      · rename_i h
        rw [h] at hping
        exact ⟨hping, by rintro a ⟨⟩; exact .requested hp.2.1 hp.1 hp.2.2 haddr⟩
      · rename_i h
        rw [h] at hping
        exact ⟨hping, nofun⟩
    · exact ⟨rfl, nofun⟩
  split
  · rename_i h
    rw [h] at hreq
    exact hreq
  rename_i d' h
  rw [h] at hreq
  split_ifs
  · exact ⟨hreq.1, nofun⟩
  · have hall := (addressAllocate_allocates d' s.context s.emac s.tagif s.arrival.now
      s.arrival.loopback).of_still hreq.1
    exact ⟨hall.still, fun a ha => .allocated (hall.unused a ha) (hall.available a ha)⟩

/-- A DISCOVER that is answered: the address found for the client is committed at once, or
offered. -/
theorem discoverReply_cases {s : Session} {r : Reply} (hr : (d.discoverReply s).1 = some r) :
    s.ignore = false ∧ d.disabled s.config = false ∧ ∃ yiaddr d' i,
    d.discoverAddress s = (some yiaddr, d') ∧
      d'.narrowContext s.context yiaddr s.tagif = some i ∧
      (d.discoverReply s = d'.commitReply { s with tagif := d'.contextTags i s.netid s.tagif } [i]
        s.lease yiaddr
          s.override false true none ∨
        r.type = .dhcpoffer ∧ r.yiaddr = yiaddr ∧ (d.discoverReply s).2 = d' ∧
          r.serverIdentifier = some (d'.serverId [i] s.override s.arrival.fallback)) := by
  revert hr
  unfold discoverReply
  split
  · exact fun hr => by cases hr
  rename_i hserved
  simp only [not_or, Bool.not_eq_true] at hserved
  split
  · exact fun hr => by cases hr
  rename_i yiaddr d' h
  split
  · exact fun hr => by cases hr
  rename_i i hi
  refine fun hr => ⟨hserved.1, hserved.2, yiaddr, d', i, h, hi, ?_⟩
  revert hr
  dsimp only
  split
  · exact fun _ => .inl rfl
  split
  · exact fun hr => by cases hr
  · intro hr
    cases hr
    exact .inr ⟨rfl, rfl, rfl, rfl⟩

end Daemon

end Dnsmasq.Dhcp
