import Dnsmasq.Cache.Parents

/-!
Runs in which names from DHCP and from hosts files come and go: the parents of the names always have
entries of the same sort that last as long.
-/
namespace Dnsmasq.Cache

open List Lib

variable {cfg : Config} {s s' : State} {L L' : Lists} {n : ℕ} {c : CrecId} {v w : View}
  {S : Crec → Prop} {q : CString → Prop} {T : ℤ} {dhcp : Bool}

/-- The condition under which an operation keeps the entries for the parents of names up to the
time `T`. No empty entry from DHCP for the name of a new lease lasts longer than the lease, and a
lease for a name above it is not outlasted by the new one. No name that a reload only mentions is
above a name that it puts into the cache. -/
def KeepsParents (cfg : Config) (T : ℤ) (s : State) : Op → Prop
  | .insert ins => ins.now ≤ T
  | .findByName _ now _ _ => now ≤ T
  | .findByAddr _ now _ => now ≤ T
  | .addDhcpEntry l => ∀ i, ∀ c ∈ s.chain i, (s.crec c).flags.dhcp = true →
      ((s.crec c).flags.held = false → hostnameIsequal l.name (s.crec c).name = true →
        (l.crec false {}).Outlasts (s.crec c)) ∧
      ((s.crec c).flags.held = true →
        (∃ p ∈ subnames l.name, hostnameIsequal p (s.crec c).name = true) →
        (s.crec c).Outlasts (l.crec false {}))
  | .reload d => ∀ name ∈ d.names, ∀ r, d.Record cfg r → r.flags.held = true →
      ∀ p ∈ subnames r.name, ¬hostnameIsequal p name = true
  | _ => True

theorem Lease.fits_of_sheds {l : Lease} (h : Threads cfg s L ∅)
    (hok : KeepsParents cfg T s (.addDhcpEntry l)) (hs : Sheds (s.view L) w) : l.Fits cfg w := by
  have hchain : ∀ {c}, L.Hashed c → ∃ i, c ∈ s.chain i := by
    rintro c ⟨i, hi⟩
    exact ⟨i, by rwa [h.chain_eq]⟩
  intro r hr
  have hl : l.Record (l.crec false {}) := ⟨false, {}, rfl⟩
  constructor
  · intro d hd hdh hempty
    obtain ⟨hdv, he⟩ := hs.hashed d hdh
    obtain ⟨i, hi⟩ := hchain hdv
    rw [he] at hempty ⊢
    obtain ⟨hsort, hheld, hname⟩ := hempty
    have hdhcp : (s.crec d).flags.dhcp = true := by
      obtain ⟨_, _, rfl⟩ := hr
      exact hsort
    rw [hr.name] at hname
    exact (hr.outlasts hl).trans ((hok i d hi hdhcp).1 hheld hname)
  intro c hc hch hheld hd hp
  obtain ⟨hcv, he⟩ := hs.hashed c hch
  obtain ⟨i, hi⟩ := hchain hcv
  rw [he] at hheld hd hp ⊢
  rw [hr.name] at hp
  exact ((hok i c hi hd).2 hheld hp).trans (hl.outlasts hr)

theorem HostsFile.entry_fixed (ttd : ℤ) (file : HostsFile) : Fixed (file.Entry ttd) := by
  constructor
  · rintro r ⟨_, _, _, _, _, rfl⟩
    rfl
  · rintro r ⟨_, _, _, _, _, rfl⟩
    rfl
  · rintro name ⟨_, _, _, _, _, h⟩
    have := congrArg (fun r : Crec => r.flags.hosts) h
    simp [localName, HostsEntry.crec] at this

theorem LocalData.record_fixed {d : LocalData} (hok : KeepsParents cfg T s (.reload d)) :
    Fixed (d.Record cfg) := by
  constructor
  · rintro r (⟨_, _, rfl⟩ | ⟨_, _, rfl⟩ | ⟨_, _, _, rfl⟩ | ⟨_, _, _, _, _, _, _, rfl⟩ | ⟨_,
      _, rfl⟩) <;> rfl
  · rintro r (⟨_, _, rfl⟩ | ⟨_, _, rfl⟩ | ⟨_, _, _, rfl⟩ | ⟨_, _, _, _, _, _, _, rfl⟩ | ⟨_,
      _, rfl⟩) <;> rfl
  intro name hname
  have hmem : name ∈ d.names := by
    rcases hname with ⟨_, _, h⟩ | ⟨_, _, h⟩ | ⟨_, _, _, h⟩ | ⟨_, _, _, _, _, _, _,
      h⟩ | ⟨name', hmem, h⟩
    · have := congrArg (fun r : Crec => r.flags.cname) h
      simp [localName, cnameCrec] at this
    · have := congrArg (fun r : Crec => r.flags.ds) h
      simp [localName, dsCrec] at this
    · have := congrArg (fun r : Crec => r.flags.hosts) h
      simp [localName, HostsEntry.crec] at this
    · have := congrArg (fun r : Crec => r.flags.hosts) h
      simp [localName, HostsEntry.crec] at this
    · have : name = name' := congrArg Crec.name h
      exact this ▸ hmem
  exact hok name hmem

theorem Effect.covered {op : Op} (hmal : ∀ k, cfg.malloc k = true) (hT : 0 ≤ T)
    (h : Threads cfg s L ∅)
    (hcov : ∀ dhcp, (s.view L).Covered cfg T dhcp) (hok : KeepsParents cfg T s op)
    (heff : Effect cfg op s L s' L') (dhcp : Bool) : (s'.view L').Covered cfg T dhcp := by
  cases op with
  | startInsert =>
    refine heff.1.moves.covered (fun a u ha => ?_) (hcov dhcp)
    obtain ⟨c, rfl⟩ | rfl := ha <;> trivial
  | insert ins =>
    obtain ⟨new, hins⟩ := heff
    cases hins with
    | fail hR _ => exact hR.moves.covered (fun _ _ ha => ha.mild hok) (hcov dhcp)
    | found hR _ _ _ _ => exact hR.moves.covered (fun _ _ ha => ha.evicting.mild hok) (hcov dhcp)
    | new _ hR _ _ _ hmove =>
      exact hmove.covered trivial (hR.moves.covered (fun _ _ ha =>
        ha.evicting.mild hok) (hcov dhcp))
  | linkCname cpp newc =>
    refine (Reaches.moves heff).covered (fun a u ha => ?_) (hcov dhcp)
    cases ha
    trivial
  | endInsert =>
    refine heff.1.moves.covered (fun a u ha => ?_) (hcov dhcp)
    cases a with
    | dropNew | commit => trivial
    | _ => exact absurd ha id
  | findByName => exact (Reaches.moves heff).covered (fun _ _ ha => ha.mild hok) (hcov dhcp)
  | findByAddr => exact heff.1.moves.covered (fun _ _ ha => ha.mild hok) (hcov dhcp)
  | unhashDhcp =>
    cases dhcp with
    | true =>
      intro c _ hch _ hd
      have hd : (s'.crec c).flags.dhcp = true := hd
      rw [heff.2 c hch] at hd
      cases hd
    | false =>
      refine heff.1.moves.covered (fun a u ha => ?_) (hcov false)
      obtain ⟨c, rfl⟩ := ha
      rfl
  | addDhcpEntry l =>
    obtain ⟨s1, L1, hR1, -, hR2⟩ := heff
    exact hR2.lease_covered hT hmal (Lease.fits_of_sheds h hok hR1.sheds)
      (hR1.moves.covered (fun _ _ ha => ha.mild hT) (hcov dhcp))
  | hostsFile file =>
    have hfixed := HostsFile.entry_fixed cfg.localTtl file
    refine Staged.covered heff hfixed hT hmal (fun name hname => ?_) (hcov dhcp)
    obtain ⟨_, _, _, _, _, hr⟩ := hname
    have := congrArg (fun r : Crec => r.flags.hosts) hr
    simp [localName, HostsEntry.crec] at this
  | reload d =>
    obtain ⟨s1, L1, hR1, hdhcp, -, hR2⟩ := heff
    refine hR2.covered (LocalData.record_fixed hok) hT hmal (fun name _ c _ hch _ hd => ?_) ?_
    · have hd : (s1.crec c).flags.dhcp = false := hd
      rw [hdhcp c hch] at hd
      cases hd
    cases dhcp with
    | false =>
      intro c _ hch _ hd
      have hd : (s1.crec c).flags.dhcp = false := hd
      rw [hdhcp c hch] at hd
      cases hd
    | true =>
      refine hR1.moves.covered (fun a u ha => ?_) (hcov true)
      cases a with
      | drop c =>
        have ha : (u.crec c).flags.hosts = true ∨ (u.crec c).flags.config = true := ha
        exact .inr (by simpa [Flags.ofSort] using ha)
      | clear => trivial
      | _ => exact absurd ha id

def Op.names : Op → Bool
  | .addDhcpEntry _ | .hostsFile _ | .reload _ => true
  | _ => false

theorem Staged.undisturbed (h : Staged cfg S q n s L s' L') (hc : cfg.cachesize ≤ c) (hcn : c < n)
    (hn : n ≤ s.nextCrec) (hsp : c ∉ L.spare) (hheld : (s.crec c).flags.held = true)
    (hlong : ∀ source, S source → source.flags.dhcp = true → (s.crec c).flags.dhcp = true →
      (∃ p ∈ subnames source.name, hostnameIsequal p (s.crec c).name = true) →
      (s.crec c).Outlasts source) :
    s'.crec c = s.crec c := by
  have hI : (s'.view L').crec c = s.crec c ∧ c ∉ (s'.view L').spare ∧
      n ≤ (s'.view L').nextCrec := by
    refine h.reaches.moves.invariant (I := fun u => u.crec c = s.crec c ∧ c ∉ u.spare ∧
      n ≤ u.nextCrec) ⟨rfl, hsp, hn⟩ fun a u u' ha hm hI => ?_
    obtain ⟨hcrec, hspare, hnext⟩ := hI
    have hset : ∀ {x : CrecId} {r : Crec}, c ≠ x → (u.setCrec x r).crec c = s.crec c := fun hx =>
      (View.setCrec_of_ne _ hx _).trans hcrec
    cases hm with
    | drop _ _ => exact ⟨hcrec, hspare, hnext⟩
    | release _ hx _ _ => exact ⟨hset (hx.trans_le hc).ne', hspare, hnext⟩
    | touch _ _ => exact ⟨hcrec, hspare, hnext⟩
    | rotate _ _ _ => exact ⟨hcrec, hspare, hnext⟩
    | alloc _ => exact ⟨hset (hcn.trans_le hnext).ne, hspare, hnext.trans (Nat.le_succ _)⟩
    | rehash _ _ => exact ⟨hcrec, hspare, hnext⟩
    | spare _ _ _ _ =>
      obtain ⟨source, hS, hmaking⟩ := ha.making id nofun nofun
      refine ⟨hcrec, fun hmem => ?_, hnext⟩
      rcases mem_cons.mp hmem with rfl | hmem
      · have hempty := hmaking.2.2.1
        rw [hcrec, hheld] at hempty
        cases hempty
      · exact hspare hmem
    | @reuse x r rest hl _ _ _ _ =>
      refine ⟨hset fun hx => hspare ?_, fun hmem => hspare ?_, hnext⟩
      · rw [hl, hx]
        exact mem_cons_self
      · rw [hl]
        exact mem_cons_of_mem x hmem
    | add _ _ _ _ _ =>
      obtain ⟨source, hS, hmaking⟩ := ha.making id nofun nofun
      exact ⟨hset (hcn.trans_le hmaking.1).ne, hspare, hnext⟩
    | @extend x ttd hx =>
      obtain ⟨source, hS, hd, hsm, hxm, rfl, hxd, hp⟩ := ha.making id nofun nofun
      refine ⟨?_, hspare, hnext⟩
      by_cases e : c = x
      · subst e
        rw [View.setCrec_self]
        rw [hcrec] at hxm hxd hp ⊢
        have hle := ((hlong source hS hd hxd hp).resolve_left (by simp [hxm])).2
        rw [max_eq_left hle]
      · exact hset e
    | @immortalise x _ _ hxd hxm =>
      obtain ⟨source, hS, hd, hsi, hp⟩ := ha.making id nofun nofun
      refine ⟨hset ?_, hspare, hnext⟩
      rintro rfl
      rw [hcrec] at hxm hxd hp
      rcases hlong source hS hd hxd hp with h | h
      · rw [hxm] at h
        cases h
      · rw [hsi] at h
        cases h.1
    | _ =>
      obtain ⟨_, _, hmaking⟩ := ha.making id nofun nofun
      exact hmaking.elim
  exact hI.1

theorem Moves.static_eq {P : Action → View → Prop} (hm : Moves cfg P v w)
    (hP : ∀ a u, P a u → Clearing a u ∨ ∃ now q, Searching now q a u) (hc : cfg.cachesize ≤ c) :
    w.crec c = v.crec c ∧ w.spare = v.spare := by
  refine hm.invariant (I := fun u => u.crec c = v.crec c ∧ u.spare = v.spare) ⟨rfl, rfl⟩
    fun a u u' ha hm hI => ?_
  have hset : ∀ {x : CrecId} {r : Crec}, x < cfg.cachesize →
      (u.setCrec x r).crec c = v.crec c := fun hx =>
    (View.setCrec_of_ne _ (hx.trans_le hc).ne' _).trans hI.1
  cases hm with
  | drop _ _ => exact hI
  | release _ hx _ _ => exact ⟨hset hx, hI.2⟩
  | touch _ _ => exact hI
  | rotate _ _ _ => exact hI
  | clear _ hx _ _ => exact ⟨hset hx, hI.2⟩
  | _ => obtain h | ⟨_, _, h⟩ := hP _ _ ha <;> exact absurd h id

theorem Staged.pool (h : Staged cfg S q n s L s' L') (hc : c < cfg.cachesize) (hch : L'.Hashed c) :
    L.Hashed c ∧ s'.crec c = s.crec c := by
  have hI : ∀ c < cfg.cachesize, (s'.view L').Hashed c → L.Hashed c ∧
      (s'.view L').crec c = s.crec c := by
    refine h.reaches.moves.invariant (I := fun u => ∀ c < cfg.cachesize, u.Hashed c → L.Hashed c ∧
      u.crec c = s.crec c) (fun c _ hch => ⟨hch, rfl⟩) fun a u u' ha hm hI c hc hch => ?_
    obtain ⟨hcu, he⟩ := (hm.adds ha).pool c hc hch
    rw [he]
    exact hI c hc hcu
  exact hI c hc hch

theorem Effect.undisturbed {op : Op} (hop : op.names = true) (h : Threads cfg s L ∅)
    (hok : KeepsParents cfg T s op)
    (heff : Effect cfg op s L s' L') (hch : L.Hashed c) (hch' : L'.Hashed c)
    (hheld : (s.crec c).flags.held = true) : s'.crec c = s.crec c := by
  have hlt : c < s.nextCrec := h.lt_nextCrec c (.inl hch)
  have hsp : c ∉ L.spare := fun hm => (h.sparePlace c hm).2.2.2 hch
  cases op with
  | addDhcpEntry l =>
    obtain ⟨s1, L1, hR1, -, hR2⟩ := heff
    rcases lt_or_ge c cfg.cachesize with hc | hc
    · obtain ⟨hc1, he⟩ := hR2.pool hc hch'
      exact he.trans (hR1.sheds.hashed c hc1).2
    obtain ⟨he, hspare⟩ := hR1.moves.static_eq (fun _ _ ha => .inr ⟨_, _, ha⟩) hc
    have he : s1.crec c = s.crec c := he
    refine (hR2.undisturbed hc hlt hR1.sheds.nextCrec.ge (hspare ▸ hsp) (he ▸ hheld)
      fun source hS _ hd hp => ?_).trans he
    rw [he] at hd hp ⊢
    obtain ⟨i, hi⟩ := hch
    rw [← h.chain_eq] at hi
    rw [hS.name] at hp
    exact ((hok i c hi hd).2 hheld hp).trans (Lease.Record.outlasts ⟨false, {}, rfl⟩ hS)
  | hostsFile file =>
    rcases lt_or_ge c cfg.cachesize with hc | hc
    · exact (Staged.pool heff hc hch').2
    · refine Staged.undisturbed heff hc hlt le_rfl hsp hheld fun source hS hd => ?_
      rw [(HostsFile.entry_fixed cfg.localTtl file).dhcp source hS] at hd
      cases hd
  | reload d =>
    obtain ⟨s1, L1, hR1, hdhcp, hnext, hR2⟩ := heff
    rcases lt_or_ge c cfg.cachesize with hc | hc
    · -- nothing is left of the pool
      obtain ⟨i, hi⟩ := (hR2.pool hc hch').1
      have hstatic : (s1.crec c).flags.isStatic = true := by simp [Flags.isStatic, hdhcp c ⟨i, hi⟩]
      exact absurd ((hR1.threads.place i c hi).2.2.1.static_iff.mp hstatic) (not_le.mpr hc)
    obtain ⟨he, hspare⟩ := hR1.moves.static_eq (fun _ _ ha => .inl ha) hc
    have he : s1.crec c = s.crec c := he
    refine (hR2.undisturbed hc hlt hnext.ge (hspare ▸ hsp) (he ▸ hheld)
      fun source hS hd => ?_).trans he
    rw [(LocalData.record_fixed hok).dhcp source hS] at hd
    cases hd
  | _ => cases hop

/-- As long as the operations meet the condition, the parents of the names that are in the cache at
a time `T` have entries of the same sort that are there as long, and an operation that adds names
changes no entry that is not empty. -/
theorem run_parents (cfg : Config) (hmal : ∀ k, cfg.malloc k = true) (T : ℤ) (hT : 0 ≤ T)
    (ops : List Op) (hok : ∀ s, cacheInit cfg = some s → Meets cfg (KeepsParents cfg T) s ops) :
    ∃ s, (cacheInit cfg).bind (run cfg · ops) = some s ∧
      (∀ i, ∀ c ∈ s.chain i, (s.crec c).flags.isStatic = true → (s.crec c).flags.held = true →
        isExpired T (s.crec c) = false → ∀ p ∈ subnames (s.crec c).name, ∃ j, ∃ d ∈ s.chain j,
          (s.crec d).flags.forward = true ∧ (s.crec d).flags.ofSort (s.crec c).flags.dhcp = true ∧
          hostnameIsequal p (s.crec d).name = true ∧ isExpired T (s.crec d) = false ∧
          (s.crec d).Outlasts (s.crec c)) ∧
      ∀ op, op.names = true → KeepsParents cfg T s op → ∃ s', step cfg s op = some s' ∧
        ∀ i j, ∀ c ∈ s.chain i, c ∈ s'.chain j → (s.crec c).flags.held = true →
          (s'.crec c).flags = (s.crec c).flags ∧ (s'.crec c).ttd = (s.crec c).ttd := by
  obtain ⟨s₀, L₀, hinit, hT₀, hempty, -⟩ := cacheInit_threads cfg
  obtain ⟨s, L, hs, hthreads, hcov⟩ :=
    hT₀.run_invariant (I := fun s L => ∀ dhcp, (s.view L).Covered cfg T dhcp)
    (K := KeepsParents cfg T) (fun _ c _ hch => absurd hch (hempty c))
    (fun hthreads hI hok heff => heff.covered hmal hT hthreads hI hok) ops (hok s₀ hinit)
  refine ⟨s, by rw [hinit]; exact hs,
    fun i c hc hstatic hheld hlive p hp => ?_, fun op hop hcond => ?_⟩
  · rw [hthreads.chain_eq] at hc
    have hle := (hthreads.place i c hc).2.2.1.static_iff.mp hstatic
    obtain ⟨d, -, ⟨j, hj⟩, hserves⟩ := hcov _ c hle ⟨i, hc⟩ hheld rfl hlive p hp
    refine ⟨j, d, ?_, hserves.forward, hserves.sort, hserves.name, hserves.outlasts.live hlive,
      hserves.outlasts⟩
    rwa [hthreads.chain_eq]
  obtain ⟨s', L', hs', heff⟩ := hthreads.step op
  refine ⟨s', hs', fun i j c hc hc' hheld => ?_⟩
  rw [hthreads.chain_eq] at hc
  rw [heff.threads.chain_eq] at hc'
  rw [heff.undisturbed hop hthreads hcond ⟨i, hc⟩ ⟨j, hc'⟩ hheld]
  exact ⟨rfl, rfl⟩

/-- A lease for `x.p` and an entry of a hosts file for `h.q`. -/
theorem run_parents_lease :
    ∃ s, (cacheInit { cachesize := 1 }).bind (run { cachesize := 1 } · [.addDhcpEntry
        { name := [120, 46, 112], addr := [10, 0, 0, 2], ttd := 50 },
        .hostsFile { lines := [[{ name := [104, 46, 113], addr := [10, 0, 0, 3] }]] }]) = some s ∧
      ∀ i, ∀ c ∈ s.chain i, (s.crec c).flags.isStatic = true → (s.crec c).flags.held = true →
        isExpired 40 (s.crec c) = false → ∀ p ∈ subnames (s.crec c).name, ∃ j, ∃ d ∈ s.chain j,
          (s.crec d).flags.forward = true ∧ (s.crec d).flags.ofSort (s.crec c).flags.dhcp = true ∧
          hostnameIsequal p (s.crec d).name = true ∧ isExpired 40 (s.crec d) = false ∧
          (s.crec d).Outlasts (s.crec c) := by
  obtain ⟨s, hs, hparents, -⟩ :=
    run_parents { cachesize := 1 } (fun _ => rfl) 40 (by decide) [.addDhcpEntry
    { name := [120, 46, 112], addr := [10, 0, 0, 2], ttd := 50 },
    .hostsFile { lines := [[{ name := [104, 46, 113], addr := [10, 0, 0, 3] }]] }] (fun s hs => by
      cases hs
      exact ⟨fun i c hc => absurd hc not_mem_nil, fun _ _ => ⟨trivial, fun _ _ => trivial⟩⟩)
  exact ⟨s, hs, hparents⟩

/-- A lease for `p`, and an infinite one for `x.p`. -/
def leaseAbove : List Op :=
  [.addDhcpEntry { name := [112], addr := [10, 0, 0, 1], ttd := 50 },
    .addDhcpEntry { name := [120, 46, 112], addr := [10, 0, 0, 2], ttd := 0 }]

/-- The entry for `p`, which holds an address, becomes immortal. -/
theorem run_leaseAbove :
    ∃ s s', (cacheInit { cachesize := 1 }).bind (run { cachesize := 1 } · (leaseAbove.take 1)) =
      some s ∧ run { cachesize := 1 } s (leaseAbove.drop 1) = some s' ∧
      ∃ i, ∃ c ∈ s.chain i, c ∈ s'.chain i ∧ (s.crec c).flags.ipv4 = true ∧
        (s.crec c).name = [112] ∧ (s.crec c).flags.immortal = false ∧
        (s'.crec c).flags.immortal = true := by
  let i := hashBucket { cachesize := 1 } 64 [112]
  have h :
      (((cacheInit { cachesize := 1 }).bind (run { cachesize := 1 } · (leaseAbove.take 1))).any
        fun s =>
      (run { cachesize := 1 } s (leaseAbove.drop 1)).any fun s' => (s.chain i).any fun c =>
        decide (c ∈ s'.chain i ∧ (s.crec c).flags.ipv4 = true ∧ (s.crec c).name = [112] ∧
          (s.crec c).flags.immortal = false ∧ (s'.crec c).flags.immortal = true)) = true := by
    decide +kernel
  obtain ⟨s, hs, h⟩ := (Option.any_eq_true _ _).mp h
  obtain ⟨s', hs', h⟩ := (Option.any_eq_true _ _).mp h
  obtain ⟨c, hc, h⟩ := any_eq_true.mp h
  exact ⟨s, s', hs, hs', i, c, hc, of_decide_eq_true h⟩

end Dnsmasq.Cache
