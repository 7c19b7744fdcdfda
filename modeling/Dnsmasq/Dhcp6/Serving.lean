import Dnsmasq.Dhcp6.Reply

/-!
What the server does for a SOLICIT or REQUEST message, one address at a time.
-/
namespace Dnsmasq.Dhcp6

open List

open Dhcp (Bytes Tag matchNetid)

/-- A range without what changes while messages are handled. -/
def Context.fixed (c : Context) : Context :=
    { c with used := false, confUsed := false, addrEpoch := 0 }

/-- Ranges and `dhcp-host` lines are the same up to the flags of the ranges. -/
structure Daemon.SameSetup (d d' : Daemon) : Prop where
  dhcp6 : d'.dhcp6.map Context.fixed = d.dhcp6.map Context.fixed
  dhcpConf : d'.dhcpConf = d.dhcpConf

def Lease.bare (l : Lease) : Lease := { l with used := false }

/-- The leases are the same up to the flag `LEASE_USED`. -/
structure LeaseDb.SameLeases (db db' : LeaseDb) : Prop where
  items : db'.leases.items.map Lease.bare = db.leases.items.map Lease.bare
  next : db'.leases.next = db.leases.next
  leasesLeft : db'.leasesLeft = db.leasesLeft

def Daemon.IsRange (d : Daemon) (s : Session) (c : Context) : Prop :=
  c.fixed ∈ (d.contexts s.arrival.context).map Context.fixed

/-- The sources of an address for an IA. -/
inductive Daemon.Gives (d : Daemon) (s : Session) (ia : Ia) : In6Addr → Prop
  | asked {req : IaAddr} (hreq : req ∈ ia.addrs)
      (havail : (d.address6Available s.arrival.context req.addr s.tagif true).isSome)
      (hcheck : d.checkAddress s ia.iaid req.addr = true) : Gives d s ia req.addr
  | implied {req : IaAddr} {c : Context} (hreq : req ∈ ia.addrs) (hc : d.IsRange s c)
      (himplies : (configImplies (d.config s.config) c req.addr).isSome)
      (hcheck : d.checkAddress s ia.iaid req.addr = true) : Gives d s ia req.addr
  | configured {c : Context} {addr : In6Addr} (hc : d.IsRange s c)
      (hvalid : d.configValid s ia.iaid c = some addr) : Gives d s ia addr
  | held {l : Lease} (hl : l ∈ d.db.leases.items) (htype : l.type = ia.type)
      (hiaid : l.iaid = ia.iaid) (hclid : l.clid = some s.clid)
      (havail : (d.address6Available s.arrival.context l.addr s.tagif true).isSome) :
      Gives d s ia l.addr
  | allocated {c : Context} {host : BitVec 64} (hc : d.IsRange s c)
      (hfree : d.unusedAddr6 s.arrival.context c host = true) : Gives d s ia (c.start.setPart host)

/-- The addresses given so far to the IAs of a message and the state after that. -/
inductive Serves (s : Session) (ias : List Ia) (d₀ : Daemon) : List (Ia × IaAddr) → Daemon → Prop
  | start : Serves s ias d₀ [] d₀
  | mark {out : List (Ia × IaAddr)} {d d' : Daemon} (h : Serves s ias d₀ out d)
      (hsetup : d.SameSetup d') (hdb : d.db.SameLeases d'.db) : Serves s ias d₀ out d'
  | give {out : List (Ia × IaAddr)} {d : Daemon} {ia : Ia} {a : IaAddr} (h : Serves s ias d₀ out d)
      (hia : ia ∈ ias) (hgives : d.Gives s ia a.addr) :
      Serves s ias d₀ (out ++ [(ia, a)]) (if s.leaseAllocate then
        d.updateLeases s ia a.addr a.valid else d)

namespace Daemon

variable {d d' : Daemon} {s : Session}

theorem SameSetup.refl (d : Daemon) : d.SameSetup d := ⟨rfl, rfl⟩

variable {d'' : Daemon} {f : Context → Context}

theorem SameSetup.trans (h : d.SameSetup d') (h' : d'.SameSetup d'') : d.SameSetup d'' :=
  ⟨h'.dhcp6.trans h.dhcp6, h'.dhcpConf.trans h.dhcpConf⟩

structure Marks (d d' : Daemon) : Prop where
  setup : d.SameSetup d'
  db : d'.db = d.db

theorem Marks.refl (d : Daemon) : d.Marks d := ⟨.refl d, rfl⟩

theorem Marks.trans (h : d.Marks d') (h' : d'.Marks d'') : d.Marks d'' :=
  ⟨h.setup.trans h'.setup, h'.db.trans h.db⟩

theorem map_fixed_modify (cs : List Context) (i : ℕ)
    (hf : ∀ c, (f c).fixed = c.fixed) : (cs.modify i f).map Context.fixed =
    cs.map Context.fixed := by
  refine ext_getElem? fun j => ?_
  simp only [getElem?_map, getElem?_modify]
  cases cs[j]? with
  | none => split <;> rfl
  | some c =>
    split
    · exact congrArg some (hf c)
    · rfl

theorem marks_modifyContext (d : Daemon) (i : ℕ) (hf : ∀ c, (f c).fixed = c.fixed) :
    d.Marks (d.modifyContext i f) :=
  ⟨⟨map_fixed_modify d.dhcp6 i hf, rfl⟩, rfl⟩

theorem marks_modifyContexts (d : Daemon) (context : List ℕ)
    (hf : ∀ c, (f c).fixed = c.fixed) : d.Marks (d.modifyContexts context f) := by
  induction context generalizing d with
  | nil => exact .refl d
  | cons i context ih => exact (d.marks_modifyContext i hf).trans (ih (d.modifyContext i f))

theorem fixed_ite {p : Context → Bool} (hf : ∀ c, (f c).fixed = c.fixed) (c : Context) :
    (if p c then f c else c).fixed = c.fixed := by
  split
  · exact hf c
  · rfl

section

variable (d : Daemon) (context : List ℕ) (addr : In6Addr)

theorem marks_markContextUsed : d.Marks (d.markContextUsed context addr) :=
  d.marks_modifyContexts context (fixed_ite fun _ => rfl)

theorem marks_markConfigUsed : d.Marks (d.markConfigUsed context addr) :=
  d.marks_modifyContexts context (fixed_ite fun _ => rfl)

end

theorem marks_startAddr6 (d : Daemon) (i : ℕ) (c : Context) (temp : Bool) (j : BitVec 64)
    (serial : ℕ) : d.Marks (d.startAddr6 i c temp j serial).2 := by
  unfold startAddr6
  split
  · split
    · exact .refl d
    · exact d.marks_modifyContext i fun _ => rfl
  · exact .refl d

end Daemon

namespace LeaseDb

variable {db db' : LeaseDb}

theorem SameLeases.refl (db : LeaseDb) : db.SameLeases db := ⟨rfl, rfl, rfl⟩

theorem sameLeases_lease6Reset (db : LeaseDb) : db.SameLeases db.lease6Reset := by
  refine ⟨?_, rfl, rfl⟩
  simp only [lease6Reset, Lib.Registry.modify, map_map]
  exact map_congr_left fun _ _ => rfl

theorem sameLeases_markUsed (db : LeaseDb) (id : ℕ) :
    db.SameLeases (db.update id Lease.markUsed Lease.keeps_markUsed) := by
  refine ⟨?_, rfl, rfl⟩
  simp only [update, Lib.Registry.update, Lib.Registry.modify, map_map]
  refine map_congr_left fun l _ => ?_
  simp only [Function.comp_apply]
  split <;> rfl

end LeaseDb

namespace Serves

variable {s : Session} {ias : List Ia} {d₀ d d' : Daemon} {out : List (Ia × IaAddr)}

theorem marks (h : Serves s ias d₀ out d) (hm : d.Marks d') : Serves s ias d₀ out d' :=
  h.mark hm.setup (hm.db ▸ .refl d.db)

theorem useLease (h : Serves s ias d₀ out d) (addr : In6Addr) :
    Serves s ias d₀ out (d.useLease addr) := by
  unfold Daemon.useLease
  split
  · exact h.mark ⟨rfl, rfl⟩ (d.db.sameLeases_markUsed _)
  · exact h

end Serves

namespace Daemon

variable {d d' : Daemon} {s : Session}

theorem map_fixed_contexts (d : Daemon) (context : List ℕ) :
    (d.contexts context).map Context.fixed =
    context.filterMap ((d.dhcp6.map Context.fixed)[·]?) := by
  simp only [contexts, map_filterMap, getElem?_map]

theorem SameSetup.contexts (h : d.SameSetup d') (context : List ℕ) :
    (d'.contexts context).map Context.fixed = (d.contexts context).map Context.fixed := by
  rw [map_fixed_contexts, map_fixed_contexts, h.dhcp6]

variable {c : Context} {i : ℕ} {context : List ℕ} {a : In6Addr} {r : Option (ℕ × In6Addr) × Daemon}

theorem SameSetup.isRange (h : d.SameSetup d') : d'.IsRange s c ↔ d.IsRange s c := by
  rw [IsRange, IsRange, h.contexts]

theorem isRange_of_mem (hi : i ∈ s.arrival.context) (hc : d.dhcp6[i]? = some c) : d.IsRange s c :=
  mem_map_of_mem (mem_filterMap.mpr ⟨i, hi, hc⟩)

theorem SameSetup.find?_eq (h : d.SameSetup d') (context : List ℕ) {p : Context → Bool}
    (hp : ∀ c, p c.fixed = p c) :
    (context.find? fun i => d'.dhcp6[i]?.any p) = context.find? fun i => d.dhcp6[i]?.any p := by
  have hany : ∀ (d : Daemon) (i : ℕ),
      d.dhcp6[i]?.any p = (d.dhcp6.map Context.fixed)[i]?.any p := by
    intro d i
    rw [getElem?_map]
    cases d.dhcp6[i]? with
    | none => rfl
    | some c => exact (hp c).symm
  simp only [hany, h.dhcp6]

theorem SameSetup.address6Available
    (h : d.SameSetup d') (context : List ℕ) (addr : In6Addr) (tags : List Tag)
    (plain : Bool) : d'.address6Available context addr tags plain =
    d.address6Available context addr tags plain :=
  h.find?_eq context fun _ => rfl

theorem SameSetup.config (h : d.SameSetup d') (i : Option ℕ) : d'.config i = d.config i := by
  rw [Daemon.config, Daemon.config, h.dhcpConf]

theorem Marks.configValid (h : d.Marks d') (iaid : ℕ) (c : Context) :
    d'.configValid s iaid c = d.configValid s iaid c := by
  have hcheck : ∀ addr, d'.checkAddress s iaid addr = d.checkAddress s iaid addr := fun addr => by
    rw [checkAddress, checkAddress, h.db]
  have hfree : ∀ base n host, d'.firstFree s iaid base n host = d.firstFree s iaid base n host := by
    intro base n
    induction n with
    | zero => exact fun _ => rfl
    | succ n ih =>
      intro host
      simp only [firstFree, hcheck, ih]
  simp only [Daemon.configValid, h.setup.config, hfree]

theorem scanRange6_eq_some {start : BitVec 64} {fuel : ℕ} {host : BitVec 64}
    (h : d.scanRange6 context c start fuel host = some a) :
    ∃ host', d.unusedAddr6 context c host' = true ∧ a = c.start.setPart host' := by
  induction fuel generalizing host with
  | zero => cases h
  | succ fuel ih =>
    rw [scanRange6] at h
    split at h
    · rename_i hfree
      exact ⟨host, hfree, (Option.some.inj h).symm⟩
    · dsimp only at h
      split at h <;> split at h
      all_goals first | exact ih h | cases h

/-- What `address6_allocate` finds: the search changes nothing but counters, and the address
is in no use that it knows of. -/
structure Allocated (d : Daemon) (context is : List ℕ) (r : Option (ℕ × In6Addr) × Daemon) :
    Prop where
  marks : d.Marks r.2
  unused : ∀ i a, r.1 = some (i, a) → i ∈ is ∧ ∃ c host,
    c.fixed ∈ (d.contexts [i]).map Context.fixed ∧ r.2.unusedAddr6 context c host = true ∧
    a = c.start.setPart host

theorem Allocated.of_marks {is is' : List ℕ} (h : d.Marks d')
    (hr : d'.Allocated context is r) (his : ∀ i ∈ is, i ∈ is') : d.Allocated context is' r where
  marks := h.trans hr.marks
  unused i a hia := by
    obtain ⟨hi, c, host, hc, hunused⟩ := hr.unused i a hia
    exact ⟨his i hi, c, host, h.setup.contexts [i] ▸ hc, hunused⟩

theorem allocateFrom6_allocated (context : List ℕ) (temp : Bool) (j : BitVec 64) (serial : ℕ)
    (tags : List Tag) (pass : Bool) (is : List ℕ) (d : Daemon) :
    d.Allocated context is (allocateFrom6 context temp j serial tags pass is d) := by
  induction is generalizing d with
  | nil => exact ⟨.refl d, nofun⟩
  | cons i is ih =>
    have hskip := (ih d).of_marks (.refl d) fun _ => mem_cons_of_mem i
    rw [allocateFrom6]
    cases hc : d.dhcp6[i]? with
    | none => exact hskip
    | some c =>
      dsimp only
      split
      · exact hskip
      have hmarks := d.marks_startAddr6 i c temp j serial
      obtain ⟨⟨start, d'⟩, hstart⟩ : ∃ r, d.startAddr6 i c temp j serial = r := ⟨_, rfl⟩
      rw [hstart] at hmarks ⊢
      split
      · rename_i a hscan
        obtain ⟨host, hunused, rfl⟩ := scanRange6_eq_some hscan
        refine ⟨hmarks, fun i' a' h => ?_⟩
        cases h
        exact ⟨mem_cons_self, c, host, by simp [contexts, hc], hunused, rfl⟩
      · exact (ih d').of_marks hmarks fun _ => mem_cons_of_mem i

theorem address6Allocate_allocated
    (d : Daemon) (context : List ℕ) (temp : Bool) (j : BitVec 64) (serial : ℕ)
    (tags : List Tag) (plain : Bool) :
    d.Allocated context context (d.address6Allocate context temp j serial tags plain) := by
  have hfirst := allocateFrom6_allocated context temp j serial tags false context d
  unfold address6Allocate
  split
  · rename_i hr
    rwa [hr] at hfirst
  rename_i d' hr
  rw [hr] at hfirst
  split
  · exact (allocateFrom6_allocated context temp j serial tags true context d').of_marks hfirst.marks
      fun _ => id
  · exact hfirst

theorem Allocated.gives (h : d.Allocated s.arrival.context s.arrival.context r)
    (ha : r.1 = some (i, a)) (ia : Ia) : r.2.Gives s ia a := by
  obtain ⟨hi, c, host, hc, hunused, rfl⟩ := h.unused i a ha
  refine .allocated ?_ hunused
  rw [h.marks.setup.isRange, IsRange, map_fixed_contexts]
  rw [map_fixed_contexts] at hc
  obtain ⟨j, hj, hc⟩ := mem_filterMap.mp hc
  cases mem_singleton.mp hj
  exact mem_filterMap.mpr ⟨i, hi, hc⟩

end Daemon

def IaOption.addr? : IaOption → Option IaAddr
  | .iaaddr a => some a
  | .status _ _ => none

def IaWork.addrs (w : IaWork) : List IaAddr := w.options.filterMap IaOption.addr?

/-- All that was done before the IA, and for it so far. -/
def IaWork.Served (s : Session) (ias : List Ia) (d₀ : Daemon) (out : List (Ia × IaAddr)) (ia : Ia)
    (w : IaWork) : Prop :=
  Serves s ias d₀ (out ++ w.addrs.map (Prod.mk ia)) w.daemon

namespace IaWork.Served

variable {s : Session} {ias : List Ia} {d₀ d' : Daemon} {out : List (Ia × IaAddr)}
  {ia : Ia} {w : IaWork}

theorem marks (h : w.Served s ias d₀ out ia) (hm : w.daemon.Marks d') :
    IaWork.Served s ias d₀ out ia { w with daemon := d' } := Serves.marks h hm

theorem addAddress (h : w.Served s ias d₀ out ia) (hia : ia ∈ ias) {addr : In6Addr}
    (hgives : w.daemon.Gives s ia addr) (c : Context) (time : ℕ) (req : Option IaAddr) :
    (Daemon.addAddress s ia c time req addr w).Served s ias d₀ out ia := by
  obtain ⟨⟨minTime, valid, preferred⟩, htimes⟩ : ∃ t, calculateTimes c w.minTime
    ((req.map IaAddr.valid).getD 0) ((req.map IaAddr.preferred).getD 0) time = t := ⟨_, rfl⟩
  have hgive := (Serves.give (a := { addr, preferred, valid }) h hia hgives).useLease addr
  simp only [IaWork.Served, IaWork.addrs, Daemon.addAddress, htimes, filterMap_append, map_append]
  rwa [append_assoc] at hgive

end IaWork.Served

end Dnsmasq.Dhcp6
