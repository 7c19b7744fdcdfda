import Dnsmasq.Dhcp6.Solicit

/-!
Whether two DHCPv6 leases can hold the same address. Every path to `lease6_allocate` looks, except
that a client that rebinds gets a lease for any address it names.
-/
namespace Dnsmasq.Dhcp6

open List

open Dhcp (Bytes)

variable {f : Lease → Lease} {memory : Bool} {l : Lease}

namespace LeaseDb

variable {db db' : LeaseDb}

def addrs (db : LeaseDb) : List In6Addr := db.leases.items.map Lease.addr

theorem distinct_iff : db.Distinct ↔ db.addrs.Nodup := Iff.rfl

@[simp] theorem addrs_update (db : LeaseDb) (id : ℕ) (hf : Lease.Keeps f) :
    (db.update id f hf).addrs = db.addrs := by
  simp only [addrs, update, Lib.Registry.update, Lib.Registry.modify, map_map]
  refine map_congr_left fun l _ => ?_
  simp only [Function.comp_apply]
  split
  · exact hf.addr l
  · rfl

theorem SameLeases.addrs (h : db.SameLeases db') : db'.addrs = db.addrs := by
  have := congrArg (List.map Lease.addr) h.items
  simpa [LeaseDb.addrs, Function.comp_def, Lease.bare] using this

variable {addr : In6Addr}

theorem notMem_addrs_iff : addr ∉ db.addrs ↔ db.findByAddr addr = none := by
  simp [addrs, findByAddr, lease6FindByAddr, find?_eq_none]

theorem lease6Allocate_addrs {type : LeaseType}
    (h : db.lease6Allocate memory addr type = some (l, db')) : db'.addrs = addr :: db.addrs := by
  obtain ⟨rfl, hitems⟩ := lease6Allocate_eq_some h
  rw [addrs, hitems]
  rfl

theorem Distinct.leasePrune (h : db.Distinct) (target : Option ℕ) (now : ℕ) :
    (db.leasePrune target now).Distinct :=
  h.sublist (filter_sublist.map Lease.addr)

end LeaseDb

variable {d : Daemon}

namespace Daemon

open LeaseDb

theorem updateLeases_distinct (h : d.db.Distinct) (s : Session) (ia : Ia) (addr : In6Addr)
    (valid : ℕ) : (d.updateLeases s ia addr valid).db.Distinct := by
  unfold updateLeases
  split
  · rwa [distinct_iff, addrs_update]
  rename_i hnone
  split
  · rename_i l db halloc
    rw [distinct_iff, addrs_update, lease6Allocate_addrs halloc]
    exact nodup_cons.mpr ⟨notMem_addrs_iff.mpr hnone, h⟩
  · exact h

end Daemon

theorem Serves.distinct {s : Session} {ias : List Ia} {d₀ : Daemon} {out : List (Ia × IaAddr)}
    (h : Serves s ias d₀ out d) (hd : d₀.db.Distinct) : d.db.Distinct := by
  induction h with
  | start => exact hd
  | mark _ _ hdb ih =>
    rw [LeaseDb.distinct_iff, hdb.addrs]
    exact ih
  | give _ _ _ ih =>
    split
    · exact Daemon.updateLeases_distinct ih _ _ _ _
    · exact ih

def Message.occurrences (m : Message) : List (Ia × IaAddr) :=
    m.ias.flatMap fun ia => ia.addrs.map (Prod.mk ia)

/-- Each address is held by the client for that IA, or by nobody and was not named before. -/
def RebindsFree (db : LeaseDb) (clid : Bytes) (occ : List (Ia × IaAddr)) : Prop :=
  ∀ pre ia req post, occ = pre ++ (ia, req) :: post → db.Bound clid ia.type ia.iaid req.addr ∨
    (db.findByAddr req.addr = none ∧ ∀ x ∈ pre, x.2.addr ≠ req.addr)

/-- The database after the occurrences `pre` were answered. -/
structure Rebinding (db₀ : LeaseDb) (clid : Bytes) (pre : List (Ia × IaAddr)) (db : LeaseDb) :
    Prop where
  distinct : db.Distinct
  known : ∀ a ∈ db.addrs, a ∈ db₀.addrs ∨ ∃ x ∈ pre, x.2.addr = a
  bound : ∀ type iaid a, db₀.Bound clid type iaid a → db.Bound clid type iaid a

variable {w : IaWork} {ia : Ia}

namespace Rebinding

variable {db₀ db db' : LeaseDb} {clid : Bytes} {pre : List (Ia × IaAddr)} {s : Session}

theorem append (h : Rebinding db₀ clid pre db) (more : List (Ia × IaAddr)) :
    Rebinding db₀ clid (pre ++ more) db :=
  ⟨h.distinct, fun a ha => (h.known a ha).imp_right fun ⟨x, hx, hxa⟩ =>
    ⟨x, mem_append_left more hx, hxa⟩, h.bound⟩

theorem update (h : Rebinding db₀ clid pre db) (id : ℕ) (hf : Lease.Keeps f)
    (hown : ∀ l, l.clid = some clid → (f l).clid = some clid ∧ (f l).iaid = l.iaid) :
    Rebinding db₀ clid pre (db.update id f hf) where
  distinct := by
    rw [LeaseDb.distinct_iff, LeaseDb.addrs_update]
    exact h.distinct
  known := by
    rw [LeaseDb.addrs_update]
    exact h.known
  bound type iaid a hb := (h.bound type iaid a hb).update hf fun l _ _ _ hclid => hown l hclid

theorem renewLease (h : Rebinding db₀ s.clid pre d.db) (id valid : ℕ) :
    Rebinding db₀ s.clid pre (d.renewLease s id valid).db := by
  unfold Daemon.renewLease
  dsimp only
  have hexpires := h.update id (Lease.keeps_setExpires valid s.arrival.now)
    fun _ hclid => ⟨hclid, rfl⟩
  split
  · exact hexpires
  refine hexpires.update id _ fun l hclid => ⟨Lease.leaseSetHwaddr_clid hclid _ _ _, ?_⟩
  obtain ⟨clid', hframe⟩ := l.leaseSetHwaddr_frame s.arrival.mac s.arrival.macType s.clid
    (s.arrival.clidMemory l.id)
  rw [hframe]

theorem renewAddr (h : Rebinding db₀ s.clid pre w.daemon.db) (id : ℕ) (req : IaAddr) :
    Rebinding db₀ s.clid pre (Daemon.renewAddr s id req w).daemon.db := by
  unfold Daemon.renewAddr
  dsimp only
  split
  · exact h
  · exact h.renewLease id _

theorem create {req : IaAddr} (h : Rebinding db₀ clid pre db)
    (hfree : db.findByAddr req.addr = none) (halloc : db.lease6Allocate memory req.addr ia.type =
      some (l, db')) :
    Rebinding db₀ clid (pre ++ [(ia, req)])
      (db'.update l.id (·.leaseSetIaid ia.iaid) (Lease.keeps_setIaid ia.iaid)) where
  distinct := by
    rw [LeaseDb.distinct_iff, LeaseDb.addrs_update, LeaseDb.lease6Allocate_addrs halloc]
    exact nodup_cons.mpr ⟨LeaseDb.notMem_addrs_iff.mpr hfree, h.distinct⟩
  known := by
    rw [LeaseDb.addrs_update, LeaseDb.lease6Allocate_addrs halloc]
    intro a ha
    rcases mem_cons.mp ha with rfl | ha
    · exact .inr ⟨(ia, req), by simp, rfl⟩
    · exact (h.append [(ia, req)]).known a ha
  bound type iaid a hb := by
    obtain ⟨l', hl', htype, hiaid, haddr, hclid⟩ := h.bound type iaid a hb
    obtain ⟨rfl, hitems⟩ := LeaseDb.lease6Allocate_eq_some halloc
    -- the new lease is another one
    exact ⟨l', Lib.Registry.update_mem_of_ne (Lease.keeps_setIaid ia.iaid).id
      (hitems ▸ mem_cons_of_mem _ hl') (db.leases.fresh l' hl').ne, htype, hiaid, haddr, hclid⟩

variable {rebind : Bool}

theorem renewAddrs (addrs : List IaAddr) {post : List (Ia × IaAddr)}
    (hfree : rebind = true → RebindsFree db₀ s.clid (pre ++ addrs.map (Prod.mk ia) ++ post))
    (h : Rebinding db₀ s.clid pre w.daemon.db) :
    Rebinding db₀ s.clid (pre ++ addrs.map (Prod.mk ia))
    (Daemon.renewAddrs s rebind ia addrs w).1.daemon.db := by
  induction addrs generalizing pre w with
  | nil => simpa [Daemon.renewAddrs] using h
  | cons req rest ih =>
    have hstop : Rebinding db₀ s.clid (pre ++ (req :: rest).map (Prod.mk ia)) w.daemon.db :=
      h.append _
    have hsplit : pre ++ (req :: rest).map (Prod.mk ia) =
        (pre ++ [(ia, req)]) ++ rest.map (Prod.mk ia) := by simp
    rw [Daemon.renewAddrs]
    split
    · rw [hsplit]
      exact ih (by rwa [← hsplit]) ((h.append [(ia, req)]).renewAddr _ req)
    rename_i hnone
    split
    · rename_i hrebind
      split
      · exact hstop
      rename_i l db' halloc
      rw [hsplit]
      refine ih (by rwa [← hsplit]) (Rebinding.renewAddr ?_ l.id req)
      refine h.create ?_ halloc
      -- the client does not hold it now, so it did not before, and nobody else does
      have hocc := hfree hrebind pre ia req (rest.map (Prod.mk ia) ++ post) (by simp)
      rcases hocc with hbound | ⟨hfresh, hnew⟩
      · have := LeaseDb.lease6Find_isSome.mpr (h.bound _ _ _ hbound)
        simp [hnone] at this
      refine LeaseDb.notMem_addrs_iff.mp fun ha => ?_
      rcases h.known _ ha with ha | ⟨x, hx, hxa⟩
      · exact LeaseDb.notMem_addrs_iff.mpr hfresh ha
      · exact hnew x hx hxa
    · exact hstop

theorem renewIas (ias : List Ia) (assigned : Bool)
    (hfree : rebind = true →
      RebindsFree db₀ s.clid (pre ++ ias.flatMap fun ia => ia.addrs.map (Prod.mk ia)))
    (h : Rebinding db₀ s.clid pre d.db) :
    (Daemon.renewIas s rebind ias d assigned).2.2.db.Distinct := by
  induction ias generalizing pre d assigned with
  | nil => exact h.distinct
  | cons ia ias ih =>
    rw [flatMap_cons, ← append_assoc] at hfree
    have hia := h.renewAddrs ia.addrs (w := { daemon := d }) hfree
    exact ih _ hfree hia

end Rebinding

namespace Daemon

open LeaseDb

variable {s : Session}

theorem dropAddr_distinct (h : w.daemon.db.Distinct) (req : IaAddr) :
    (dropAddr s ia w req).daemon.db.Distinct := by
  unfold dropAddr
  split
  · exact h.leasePrune _ _
  · exact h

theorem dropIas_distinct {before : Session → Daemon → In6Addr → Daemon}
    (hbefore : ∀ d addr, (before s d addr).db = d.db) (ias : List Ia) (h : d.db.Distinct) :
    (dropIas s before ias d).2.db.Distinct := by
  induction ias generalizing d with
  | nil => exact h
  | cons ia ias ih =>
    refine ih ?_
    have hfold : ∀ (reqs : List IaAddr) (w : IaWork), w.daemon.db.Distinct →
        (reqs.foldl (fun w req =>
        dropAddr s ia { w with daemon := before s w.daemon req.addr } req)
          w).daemon.db.Distinct := by
      intro reqs
      induction reqs with
      | nil => exact fun _ => id
      | cons req reqs ih => exact fun w hw => ih _ (dropAddr_distinct (by rwa [hbefore]) req)
    exact hfold ia.addrs _ h

theorem modifyContexts_db (d : Daemon) (context : List ℕ) (f : Context → Context) :
    (d.modifyContexts context f).db = d.db := by
  induction context generalizing d with
  | nil => rfl
  | cons i context ih => exact ih (d.modifyContext i f)

theorem declineAddr_db (d : Daemon) (addr : In6Addr) : (declineAddr s d addr).db = d.db := by
  unfold declineAddr
  dsimp only
  split
  · rfl
  · exact d.modifyContexts_db _ _

theorem dhcp6NoRelay_distinct (h : d.db.Distinct) (m : Message) (a : Arrival)
    (hfree : m.type = .rebind → RebindsFree d.db (m.clid.getD []) m.occurrences) :
    (d.dhcp6NoRelay m a).2.db.Distinct := by
  have hrebinding : Rebinding d.db (d.session m a).clid [] d.db :=
    ⟨h, fun _ => .inl, fun _ _ _ => id⟩
  unfold dhcp6NoRelay
  dsimp only
  split
  · exact h
  split
  · exact h
  cases hm : m.type with
  | solicit =>
    obtain ⟨out, hserves, -⟩ := solicitReply_answers (.start : Serves (d.session m a) m.ias d _ _)
    exact hserves.distinct h
  | request =>
    obtain ⟨out, hserves, -⟩ := requestReply_answers d (d.session m a) m.ias
    exact hserves.distinct h
  | confirm =>
    dsimp only
    split <;> exact h
  | renew => exact hrebinding.renewIas m.ias false nofun
  | rebind => exact hrebinding.renewIas m.ias false fun _ => hfree hm
  | release => exact dropIas_distinct (fun _ _ => rfl) m.ias h
  | decline => exact dropIas_distinct declineAddr_db m.ias h
  | ireq =>
    dsimp only
    split <;> exact h
  | other _ => exact h

end Daemon

/-- Messages arrive and leases expire. -/
inductive Event
  | message (m : Message) (a : Arrival)
  | expire (now : ℕ)

namespace Daemon

def step (d : Daemon) : Event → Daemon
  | .message m a => (d.dhcp6NoRelay m a).2
  | .expire now => { d with db := d.db.leasePrune none now }

def run (d : Daemon) (es : List Event) : Daemon := es.foldl step d

/-- A REBIND message names only addresses that the client holds for that IA, or that nobody
holds and that it has not named before. -/
def MayRebind (d : Daemon) : Event → Prop
  | .message m _ => m.type = .rebind → RebindsFree d.db (m.clid.getD []) m.occurrences
  | .expire _ => True

def RebindsWell : Daemon → List Event → Prop
  | _, [] => True
  | d, e :: es => d.MayRebind e ∧ RebindsWell (d.step e) es

theorem step_distinct {e : Event} (h : d.db.Distinct) (he : d.MayRebind e) :
    (d.step e).db.Distinct := by
  cases e with
  | message m a => exact dhcp6NoRelay_distinct h m a he
  | expire now => exact h.leasePrune none now

/-- Leases stay distinct along every run in which clients rebind no addresses of others. -/
theorem run_distinct (d : Daemon) (es : List Event) (h : d.db.Distinct) (hes : d.RebindsWell es) :
    (d.run es).db.Distinct := by
  induction es generalizing d with
  | nil => exact h
  | cons e es ih => exact ih (d.step e) (step_distinct h hes.1) hes.2

def oneRange : Daemon where
  db := { leases := .empty, leasesLeft := 10 }
  dhcp6 := [sampleRange]

/-- A client gets 2001:db8::140, and the client with the DUID `b` rebinds it. -/
def soliciting (b : UInt8) : List Event :=
  let a : Arrival := { context := [0], now := 0, rounds := 1 }
  [.message { type := .solicit, clid := some [1], clidNonempty := clid_one, rapidCommit := true,
              ias := [{ type := .na, iaid := 1 }] } a,
    .message { type := .rebind, clid := some [b], clidNonempty := clid_octet b
               ias := [{ type := .na, iaid := 1,
                         addrs := [{ addr := ⟨0x20010db800000000, 0x140⟩ }] }] } a]

/-- A run that ends with a lease. -/
theorem run_distinct_oneRange : oneRange.db.Distinct ∧ oneRange.RebindsWell (soliciting 1) ∧
    (oneRange.run (soliciting 1)).db.Distinct ∧
    (oneRange.run (soliciting 1)).db.addrs.length = 1 := by
  have hwell : oneRange.RebindsWell (soliciting 1) := by
    refine ⟨by rintro ⟨⟩, fun _ pre ia req post hocc => .inl ?_, trivial⟩
    have hlen := congrArg List.length hocc
    have hpre : pre = [] := length_eq_zero_iff.mp (by
      simp [Message.occurrences] at hlen
      omega)
    subst hpre
    cases hocc
    exact LeaseDb.lease6Find_isSome.mp (by decide +kernel)
  exact ⟨nodup_nil, hwell, run_distinct oneRange _ nodup_nil hwell, by decide +kernel⟩

/-- Another client rebinds the address and gets a second lease for it. -/
theorem run_twoLeases : oneRange.db.Distinct ∧ (oneRange.run (soliciting 2)).db.addrs =
    [⟨0x20010db800000000, 0x140⟩, ⟨0x20010db800000000, 0x140⟩] :=
  ⟨nodup_nil, by decide +kernel⟩

end Daemon

end Dnsmasq.Dhcp6
