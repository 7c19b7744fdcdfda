import Dnsmasq.Cache.Static

/-!
The operations that put local names into the cache: hosts files, DHCP leases and `cache_reload`.
-/
namespace Dnsmasq.Cache

open List hiding Chain
open Option Lib

variable {cfg : Config} {s s' t : State} {L L' M : Lists} {i n : ℕ} {c d : CrecId}
  {q : CString → Prop} {S : Crec → Prop}

section

variable (e : HostsEntry) (config : Bool) (ttd : ℤ) (index : ℕ) (reverse : Bool) (r : Crec)

theorem HostsEntry.crec_statable : Statable (e.crec config ttd index reverse r).flags := by
  constructor <;> simp [HostsEntry.crec, HostsEntry.family, Flags.isStatic]

theorem HostsEntry.crec_held : (e.crec config ttd index reverse r).flags.held = true := by
  cases h : e.ipv6 <;> simp [HostsEntry.crec, HostsEntry.family, Flags.held, h]

theorem HostsEntry.crec_hashable (hc : cfg.cachesize ≤ c) :
    Hashable cfg (e.crec config ttd index reverse r) c := by
  obtain ⟨h1, h2, h3, h4⟩ := e.crec_statable config ttd index reverse r
  refine ⟨fun hlt => absurd hlt (not_lt.mpr hc),
    fun _ => ⟨h1, h2, fun hd => ?_, h3, fun hn => ?_, h4⟩⟩
  · simp [HostsEntry.crec, HostsEntry.family, Flags.dnssec] at hd
  · simp [HostsEntry.crec, HostsEntry.family] at hn

end

section

variable (h : Threads cfg s L ∅) (hc : cfg.cachesize ≤ c) (hlt : c < s.nextCrec)
  (hhash : ¬L.Hashed c) (hspare : c ∉ L.spare) (hcrec : s.crec c = {}) (hn : n ≤ c)
include h hc hlt hhash hspare hcrec hn

/-- A record that is neither of the pool nor in use is filled in and hashed, with the parents of
its name. -/
theorem Threads.addStatic (u : Crec → Crec) (hok : Hashable cfg (u {}) c)
    (hS : S (u {})) (hst : Statable (u {}).flags) (hheld : (u {}).flags.held = true)
    (hns : n ≤ s.nextCrec) : ∃ s' L', hashStatic cfg s c u = some s' ∧
    Staged cfg S q n s L s' L' := by
  have hnew : c ∉ L.new := fun hm => absurd (h.newPool c hm).1 (not_lt.mpr hc)
  obtain ⟨t, M, ht, hT, hview⟩ := (h.pickUp hlt hnew hspare).placeStatic hc hhash u (hcrec ▸ hok)
  have htc : t.crec c = u {} := by
    have := congrArg (fun w : View => w.crec c) hview
    rw [hcrec] at this
    exact this.trans (View.setCrec_self _ _ _)
  have hchain : M.Hashed c := by
    change (t.view M).Hashed c
    rw [hview]
    exact View.hashed_hash.mpr (.inl rfl)
  have hR : Reaches cfg (Making (u {}) n) s L t M := by
    refine ⟨hT, ?_⟩
    rw [hview, hcrec]
    exact (Move.add (v := s.view L) hc hlt hhash hnew hspare hst.static).moves ⟨hn, .inl rfl⟩
  obtain ⟨s', L', hs', hT', hmade, hhas⟩ := hashStatic_made hR ht htc hc hchain hst hheld hns
  exact ⟨s', L', hs', .of_stage hT' (.entry hS hheld hmade hhas)⟩

theorem Threads.addHostsEntry (e : HostsEntry)
    (bulk config : Bool) (ttd : ℤ) (index : ℕ) (hS : ∀ reverse,
      S (e.crec config ttd index reverse {}))
    (hq : ∀ name, hostnameIsequal name e.name = true → q name) :
    ∃ s' L', addHostsEntry cfg s c e bulk config ttd index = some s' ∧
      Staged cfg S q n s L s' L' := by
  obtain ⟨s1, L1, ans, stats, front, back, hs1, hR1, -⟩ := h.cacheFindByName e.name 0 e.family false
  have hR1' : Reaches cfg (Searching 0 q) s L s1 L1 := hR1.mono fun a v ha => by
    cases a with
    | rotate d => exact hq _ ha
    | _ => exact ha
  unfold Cache.addHostsEntry
  simp only [hs1, bind_eq_bind, bind_some]
  split
  · exact ⟨s1, L1, rfl, hR1'.staged⟩
  have hfinish : ∀ {s2 : State} {L2 : Lists} (seen : Bool), Reaches cfg (Searching 0 q) s L s2 L2 →
      ∃ s' L', hashStatic cfg s2 c (e.crec config ttd index (!seen)) = some s' ∧
        Staged cfg S q n s L s' L' := by
    intro s2 L2 seen hR2
    have hsheds := hR2.sheds
    have hnext : s2.nextCrec = s.nextCrec := hsheds.nextCrec
    have hhash2 : ¬L2.Hashed c := fun hm => hhash (hsheds.hashed c hm).1
    have hspare2 : c ∉ L2.spare := by
      rw [show L2.spare = L.spare from hsheds.spare]
      exact hspare
    have hcrec2 : s2.crec c = {} := (hsheds.static c hhash).trans hcrec
    obtain ⟨s', L', hs', hR'⟩ := hR2.threads.addStatic (S := S) (q := q) hc (hnext ▸ hlt)
      hhash2 hspare2 hcrec2 hn (e.crec config ttd index (!seen)) (e.crec_hashable _ _ _ _ _ hc)
      (hS _) (e.crec_statable ..) (e.crec_held ..) (hn.trans (hnext ▸ hlt.le))
    exact ⟨s', L', hs', hR2.staged.trans hR'⟩
  cases bulk with
  | true => exact hfinish e.seen hR1'
  | false =>
    obtain ⟨s2, L2, ans2, _, _, _, hs2, hR2, -⟩ :=
      hR1.threads.cacheFindByAddr (q := q) e.addr 0 e.family
    simp only [Bool.false_eq_true, if_false, hs2, bind_some]
    exact hfinish _ (hR1'.trans hR2)

end

theorem Threads.allocated (h : Threads cfg s L ∅) :
    (∃ s1, s.allocate cfg = (s1, none) ∧ s1.view L = s.view L ∧ Threads cfg s1 L ∅) ∨
      ∃ s1, s.allocate cfg = (s1, some s.nextCrec) ∧ Staged cfg S q n s L s1 L ∧
        s.nextCrec < s1.nextCrec ∧ ¬L.Hashed s.nextCrec ∧ s.nextCrec ∉ L.spare ∧
        s1.crec s.nextCrec = {} := by
  unfold State.allocate
  split
  · refine .inr ⟨_, rfl, .of_stage ?_ (.alloc (Move.alloc (v := s.view L) h.lt_nextCrec)),
      Nat.lt_succ_self _,
      fun ⟨_, hi⟩ => absurd (h.unhashed_lt hi) (lt_irrefl _),
      fun hm => absurd (h.sparePlace _ hm).2.1 (lt_irrefl _), Function.update_self _ _ _⟩
    exact (h.allocate (s.allocs + 1)).putDown (fun hlt => absurd hlt (not_lt.mpr h.bound))
      fun hlt => absurd hlt (not_lt.mpr h.bound)
  · exact .inl ⟨_, rfl, rfl, h.congr rfl rfl rfl rfl rfl rfl rfl rfl⟩

theorem Threads.addHost (h : Threads cfg s L ∅) (hn : n ≤ s.nextCrec) (e : HostsEntry)
    (bulk config : Bool) (ttd : ℤ) (index : ℕ) (hS : ∀ reverse,
      S (e.crec config ttd index reverse {}))
    (hq : ∀ name, hostnameIsequal name e.name = true → q name) :
    ∃ s' L', addHost cfg s e bulk config ttd index = some s' ∧ Staged cfg S q n s L s' L' := by
  unfold Cache.addHost
  obtain ⟨s1, hs1, hview, hT⟩ | ⟨s1, hs1, hR1, hlt, hhash, hspare, hcrec⟩ :=
    h.allocated (S := S) (q := q) (n := n)
  · rw [hs1]
    exact ⟨s1, L, rfl, .of_view hT hview⟩
  rw [hs1]
  obtain ⟨s', L', hs', hR'⟩ := hR1.threads.addHostsEntry (S := S) (q := q)
    h.bound hlt hhash hspare hcrec hn e bulk config ttd index hS hq
  exact ⟨s', L', hs', hR1.trans hR'⟩

theorem Threads.addConfig (h : Threads cfg s L ∅) (hn : n ≤ s.nextCrec) (u : Crec → Crec)
    (hok : ∀ c, cfg.cachesize ≤ c → Hashable cfg (u {}) c) (hS : S (u {}))
    (hst : Statable (u {}).flags) (hheld : (u {}).flags.held = true) :
    ∃ s' L', addConfig cfg s u = some s' ∧ Staged cfg S q n s L s' L' := by
  unfold Cache.addConfig
  obtain ⟨s1, hs1, hview, hT⟩ | ⟨s1, hs1, hR1, hlt, hhash, hspare, hcrec⟩ :=
    h.allocated (S := S) (q := q) (n := n)
  · rw [hs1]
    exact ⟨s1, L, rfl, .of_view hT hview⟩
  rw [hs1]
  obtain ⟨s', L', hs', hR'⟩ := hR1.threads.addStatic (S := S) (q := q)
    h.bound hlt hhash hspare hcrec hn u (hok _ h.bound) hS hst hheld (hn.trans hlt.le)
  exact ⟨s', L', hs', hR1.trans hR'⟩

/-- The entries of a hosts file as they may get into the cache. -/
def HostsFile.Entry (ttd : ℤ) (file : HostsFile) (r : Crec) : Prop :=
  ∃ line ∈ file.lines, ∃ e ∈ line, ∃ reverse, r = e.crec false ttd file.index reverse {}

theorem Threads.readHostsfile (h : Threads cfg s L ∅) (hn : n ≤ s.nextCrec) (bulk : Bool)
    (cacheSize : ℕ) (file : HostsFile) (hS : ∀ r, file.Entry cfg.localTtl r → S r) :
    ∃ s' m L', readHostsfile cfg bulk (s, cacheSize) file = some (s', m) ∧
      Staged cfg S (fun _ => True) n s L s' L' := by
  have hrehash : ∀ {t : State} {M : Lists}, Threads cfg t M ∅ → ∀ size, ∃ t' M',
      Cache.rehash cfg t size = some t' ∧ Staged cfg S (fun _ => True) n t M t' M' := by
    intro t M hT size
    obtain ⟨t', M', ht', hR⟩ := hT.rehash size
    refine ⟨t', M', ht', hR.threads, Relation.ReflTransGen.mono ?_ _ _ hR.moves⟩
    rintro v w ⟨a, rfl, hm⟩
    exact .rehash (fun _ => trivial) hm
  obtain ⟨⟨s1, m, size⟩, hs1, L1, hR1⟩ := foldlM_some (l := file.lines)
    (f := readHostsLine cfg bulk file.index) (s := (s, cacheSize, cacheSize))
    (J := fun p : State × ℕ × ℕ => ∃ M, Staged cfg S (fun _ => True) n s L p.1 M)
    (by
      rintro line hline ⟨t, m, size⟩ ⟨M, hM⟩
      obtain ⟨t1, ht1, M1, hR1⟩ : ∃ t1,
        (if bulk && decide (1000 < m - size) then Cache.rehash cfg t m else some t) =
          some t1 ∧ ∃ M1, Staged cfg S (fun _ => True) n s L t1 M1 := by
        split
        · obtain ⟨t1, M1, ht1, hR1⟩ := hrehash hM.threads m
          exact ⟨t1, ht1, M1, hM.trans hR1⟩
        · exact ⟨t, rfl, M, hM⟩
      obtain ⟨⟨t2, m2⟩, ht2, M2, hR2⟩ := foldlM_some (l := line) (s := (t1, m))
        (f := fun p e => (Cache.addHost cfg p.1 e bulk false cfg.localTtl file.index).bind fun s' =>
          some (s', if cfg.malloc p.1.allocs then p.2 + 1 else p.2))
        (J := fun p : State × ℕ => ∃ M, Staged cfg S (fun _ => True) n s L p.1 M)
        (by
          rintro e he ⟨t, m⟩ ⟨M, hM⟩
          obtain ⟨t', M', ht', hR'⟩ := hM.threads.addHost (S := S) (q := fun _ => True)
            (hn.trans hM.nextCrec_le) e
            bulk false cfg.localTtl file.index (fun reverse => hS _ ⟨line, hline, e, he,
              reverse, rfl⟩) (fun _ _ => trivial)
          exact ⟨(t', if cfg.malloc t.allocs then m + 1 else m), by simp [ht'], M', hM.trans hR'⟩)
            ⟨M1, hR1⟩
      refine ⟨(t2, m2, if bulk && decide (1000 < m - size) then m else size), ?_, M2, hR2⟩
      by_cases hgrow : (bulk && decide (1000 < m - size)) = true
      · simp only [if_pos hgrow] at ht1
        simp only [readHostsLine, if_pos hgrow, ht1, bind_eq_bind, bind_some]
        rw [ht2]
        rfl
      simp only [if_neg hgrow, Option.some.injEq] at ht1
      simp only [readHostsLine, if_neg hgrow, ht1, bind_eq_bind, bind_some]
      rw [ht2]
      rfl) ⟨L, .refl h⟩
  unfold Cache.readHostsfile
  simp only [hs1, bind_eq_bind, bind_some]
  cases bulk with
  | true =>
    obtain ⟨s2, L2, hs2, hR2⟩ := hrehash hR1.threads m
    simp only [if_true, hs2, bind_some]
    exact ⟨s2, m, L2, rfl, hR1.trans hR2⟩
  | false => exact ⟨s1, m, L1, rfl, hR1⟩

theorem Threads.cacheUnhashDhcp (h : Threads cfg s L ∅) :
    ∃ s' L', cacheUnhashDhcp s = some s' ∧ Reaches cfg (fun a _ => ∃ c, a = .spare c) s L s' L' ∧
      ∀ d, L'.Hashed d → (s'.crec d).flags.dhcp = false := by
  obtain ⟨s', L', hs', hR, hp⟩ :=
    sweepTable_filter (P := fun a _ => ∃ c, a = .spare c) (p := fun r => r.flags.dhcp)
    (b := fun s acc c => if (s.crec c).flags.dhcp then .drop (toSpare · c) acc else .keep s acc)
    (fun _ _ => rfl) (fun _ _ _ => rfl) (fun {s L i pre c rest} hT hi hd => by
      have hc : c ∈ L.chain i := by simp [hi]
      have hstatic : (s.crec c).flags.isStatic = true := by simp [Flags.isStatic, hd]
      have hle := (hT.place i c hc).2.2.1.static_iff.mp hstatic
      have hgone := hT.not_hashed_of_unhash hi
      exact ⟨_, ⟨(hT.unhash hi).pushSpare hle hgone,
        (Move.spare (v := s.view L) hi hle hd hgone).moves ⟨c, rfl⟩⟩, rfl, fun _ _ => rfl, rfl⟩) h
  refine ⟨s', L', ?_, hR, hp⟩
  unfold Cache.cacheUnhashDhcp
  simp [hs']

/-- A record of the pool and one that is not, of which the second is in the way when the first
is to be freed. -/
def View.Conflict (cfg : Config) (v : View) : Prop :=
  ∃ c d, c < cfg.cachesize ∧ v.Hashed c ∧ cfg.cachesize ≤ d ∧ v.Hashed d ∧
    (v.crec c).flags.forward = true ∧ (v.crec c).Hits (v.crec d)

theorem View.Conflict.of_sheds {v w : View} (h : w.Conflict cfg) (hs : Sheds v w) :
    v.Conflict cfg := by
  obtain ⟨c, d, hc, hch, hd, hdh, hf, hhit⟩ := h
  obtain ⟨hch', hce⟩ := hs.hashed c hch
  obtain ⟨hdh', hde⟩ := hs.hashed d hdh
  rw [hce] at hf hhit
  rw [hde] at hhit
  exact ⟨c, d, hc, hch', hd, hdh', hf, hhit⟩

variable (l : Lease)

/-- The types asked for when the name of a lease is looked up. -/
def Lease.prot : Flags := { l.family with cname := true }

/-- No entry of the pool has the name and a type of the lease, or is a CNAME. -/
def Lease.Clear (cfg : Config) (l : Lease) (v : View) : Prop :=
  ∀ d < cfg.cachesize, v.Hashed d → (v.crec d).answers l.name l.prot = false

/-- What `cache_scan_free` is called with when an entry with flags `f` has the name of a lease. -/
def Lease.scanArgs (f : Flags) : ScanArgs :=
  { name := l.name, cls := 1, now := 0
    flags := { ipv4 := f.ipv4 && l.family.ipv4, ipv6 := f.ipv6 && l.family.ipv6, cname := f.cname
               forward := f.forward } }

theorem Lease.meets_prot {l : Lease} {f : Flags} :
    f.meets l.prot = (f.cname || if l.ipv6 then f.ipv6 else f.ipv4) := by
  unfold Flags.meets Lease.prot Lease.family
  cases l.ipv6 <;> simp [Bool.or_comm]

theorem Lease.clashes_of_scanArgs
    {l : Lease} {f g : Flags} (h : (l.scanArgs f).flags.clashes g = true) : f.clashes g = true := by
  simp only [Lease.scanArgs, Flags.clashes, Flags.sameFamily, Bool.false_and, Bool.or_false,
    Bool.or_eq_true, Bool.and_eq_true] at h ⊢
  tauto

theorem Lease.clashes_scanArgs
    {l : Lease} {f g : Flags} (hf : f.meets l.prot = true) (hg : g.meets l.prot = true)
    (hup : g.upstream = true) : (l.scanArgs f).flags.clashes g = true := by
  rw [Lease.meets_prot] at hf hg
  simp only [Flags.upstream, Bool.and_eq_true, Bool.not_eq_true'] at hup
  obtain ⟨⟨⟨⟨-, -⟩, hcd⟩, hda⟩, -⟩ := hup
  simp only [Lease.scanArgs, Flags.clashes, Flags.sameFamily, Lease.family]
  cases hl : l.ipv6 <;> cases hc : f.cname <;> cases hc' : g.cname <;> simp_all

/-- The walk along the entries found: `rest` are those that are not of the pool. -/
theorem Threads.dhcpNames (h : Threads cfg s L ∅) (l : Lease) {front back : List CrecId}
    (hlru : L.lru = front ++ back)
    (hfront : ∀ d, d ∈ front ↔ d ∈ L.chain (hashBucket cfg s.hashSize l.name) ∧ d < cfg.cachesize ∧
      (s.crec d).answers l.name l.prot = true) (rest : List CrecId) (k : ℕ) (hk : rest.length < k)
    {p : Option CrecId} (hchain : Chain s.next p (rest ++ L.lru))
    (hrest : ∀ d ∈ rest, (s.crec d).flags.isStatic = true ∧ (s.crec d).answers l.name l.prot = true)
      (inHosts fail : Bool) :
    ∃ s' L' inHosts' fail', Cache.dhcpNames cfg l k s (p.filter fun c =>
      (s.crec c).answers l.name l.prot) inHosts fail =
        some (s', inHosts', fail') ∧ Reaches cfg (Shedding 0) s L s' L' ∧
      ((s.view L).Conflict cfg ∨ l.Clear cfg (s'.view L')) := by
  have hclear : (∀ d ∈ front, False) → l.Clear cfg (s.view L) := by
    intro hnone d hd hdh
    obtain ⟨i, hi⟩ := hdh
    refine eq_false_of_ne_true fun hans => hnone d ((hfront d).mpr ⟨?_, hd, hans⟩)
    have hname : hostnameIsequal (s.crec d).name l.name = true := by
      simp only [Crec.answers, Bool.and_eq_true] at hans
      exact hans.2
    have hi' : d ∈ L.chain i := hi
    rw [← hashBucket_congr cfg s.hashSize hname]
    rwa [← (h.place i d hi).1] at hi'
  induction rest generalizing k p inHosts fail with
  | nil =>
    cases front with
    | nil =>
      -- the walk ends with an entry that is no answer
      have hp : (p.filter fun c => (s.crec c).answers l.name l.prot) = none := by
        rw [filter_eq_none_iff]
        intro c hc hans
        have hc' : c ∈ L.lru := by
          cases hl : L.lru with
          | nil =>
            rw [hl] at hchain
            rw [hchain] at hc
            cases hc
          | cons a l' =>
            rw [hl] at hchain
            obtain ⟨hpa, -⟩ := hchain
            rw [hpa] at hc
            cases hc
            exact mem_cons_self
        have hpool := h.lruPool c hc'
        have huse : (s.crec c).flags.inUse = true := by
          simp only [Crec.answers, Bool.and_eq_true] at hans
          simp [Flags.inUse, hans.1.1]
        have := hclear (fun d hd => by cases hd) c hpool ⟨_,
          h.hashed c hc' (Set.notMem_empty c) huse⟩
        exact absurd hans (ne_true_of_eq_false this)
      rw [hp]
      refine ⟨s, L, inHosts, fail, ?_, .refl h, .inr (hclear fun d hd => by cases hd)⟩
      cases k <;> rfl
    | cons c front =>
      rw [hlru] at hchain
      obtain ⟨rfl, -⟩ := hchain
      obtain ⟨hc, hpool, hans⟩ := (hfront c).mp mem_cons_self
      have hup := (h.place _ c hc).2.2.1.pool hpool
      have hstatic := Flags.upstream_not_static hup
      obtain ⟨k, rfl⟩ : ∃ k', k = k' + 1 := ⟨k - 1, by omega⟩
      have hans' := hans
      simp only [Crec.answers, Bool.and_eq_true] at hans'
      obtain ⟨⟨hfwd, hmeets⟩, hname⟩ := hans'
      obtain ⟨s', L', found, target, hs', hR, -, hfound, hnone⟩ :=
        h.scanForward (l.scanArgs (s.crec c).flags) hfwd
      refine ⟨s', L', inHosts, fail, ?_, hR, ?_⟩
      · have hbranch : (!((s.crec c).flags.hosts || (s.crec c).flags.config) &&
            !(s.crec c).flags.dhcp) = true := by
          simp only [Flags.isStatic, Bool.or_eq_false_iff] at hstatic
          simp [hstatic]
        simp only [filter_some, hans, if_true, Cache.dhcpNames, hbranch]
        simp only [Lease.scanArgs] at hs'
        simp [hs']
      cases found with
      | some d =>
        left
        obtain ⟨hle, hdh, hhit⟩ := hfound d rfl
        obtain ⟨hdf, hdn, hcl⟩ := hhit (fun e he => by cases he)
        obtain ⟨hdh', hde⟩ := hR.shed.hashed d hdh
        have hde : s'.crec d = s.crec d := hde
        rw [hde] at hdf hdn hcl
        refine ⟨c, d, hpool, ⟨_, hc⟩, hle, hdh', hfwd, hdf, ?_, .inl ?_⟩
        · exact hostnameIsequal_trans hdn (hostnameIsequal_symm hname)
        · rcases hcl with hcl | hcl
          · exact Lease.clashes_of_scanArgs hcl
          · simp [Lease.scanArgs, Flags.sameDnssec] at hcl
      | none =>
        right
        intro d hd hdh
        obtain ⟨j, hj⟩ := hdh
        refine eq_false_of_ne_true fun hdans => ?_
        have hdans' : (s'.crec d).answers l.name l.prot = true := hdans
        simp only [Crec.answers, Bool.and_eq_true] at hdans'
        obtain ⟨⟨hdf, hdm⟩, hdn⟩ := hdans'
        have hplace := hR.threads.place j d hj
        have hbucket : d ∈ L'.chain (hashBucket cfg s.hashSize l.name) := by
          have hsize : s'.hashSize = s.hashSize := hR.shed.hashSize
          rw [← hsize, ← hashBucket_congr cfg s'.hashSize hdn]
          rwa [← hplace.1] at hj
        refine hnone rfl (fun e he => by cases he) d hbucket ⟨hdf, hdn, .inl ?_⟩
        exact Lease.clashes_scanArgs hmeets hdm (hplace.2.2.1.pool hd)
  | cons c rest ih =>
    obtain ⟨k, rfl⟩ : ∃ k', k = k' + 1 := ⟨k - 1, by omega⟩
    obtain ⟨rfl, hchain⟩ := hchain
    obtain ⟨hstatic, hans⟩ := hrest c mem_cons_self
    have hbranch : (!((s.crec c).flags.hosts || (s.crec c).flags.config) &&
        !(s.crec c).flags.dhcp) = false := by
      simp only [Flags.isStatic, Bool.or_eq_true] at hstatic
      rcases hstatic with (hs | hs) | hs <;> simp [hs]
    obtain ⟨s', L', inHosts', fail', hs', hR⟩ := ih k (by simpa using hk) hchain
      (fun d hd => hrest d (mem_cons_of_mem c hd)) _ _
    refine ⟨s', L', inHosts', fail', ?_, hR⟩
    simp only [filter_some, hans, if_true, Cache.dhcpNames, hbranch, Bool.false_eq_true, if_false,
      Cache.cacheFindByName, bind_eq_bind, bind_some]
    exact hs'

def Lease.Record (r : Crec) : Prop := ∃ reverse r₀, r = l.crec reverse r₀

section

variable (reverse : Bool) (r : Crec)

theorem Lease.crec_statable : Statable (l.crec reverse r).flags := by
  constructor <;> simp [Lease.crec, Lease.family, Flags.isStatic]

theorem Lease.crec_held : (l.crec reverse r).flags.held = true := by
  cases h : l.ipv6 <;> simp [Lease.crec, Lease.family, Flags.held, h]

theorem Lease.crec_hashable (hc : cfg.cachesize ≤ c) : Hashable cfg (l.crec reverse r) c := by
  obtain ⟨h1, h2, h3, h4⟩ := l.crec_statable reverse r
  refine ⟨fun hlt => absurd hlt (not_lt.mpr hc),
    fun _ => ⟨h1, h2, fun hd => ?_, h3, fun hn => ?_, h4⟩⟩
  · simp [Lease.crec, Lease.family, Flags.dnssec] at hd
  · simp [Lease.crec, Lease.family] at hn

end

theorem Threads.dhcpReverse (h : Threads cfg s L ∅) (l : Lease) (found : Option CrecId) :
    ∃ s' reverse L', dhcpReverse cfg s l found = some (s', reverse) ∧
      Reaches cfg (Shedding 0) s L s' L' := by
  cases found with
  | none => exact ⟨s, true, L, rfl, .refl h⟩
  | some c =>
    by_cases hneg : (s.crec c).flags.neg = true
    · obtain ⟨s', L', found, target, hs', hR, -⟩ := h.cacheScanFree
        { addr := some l.addr, cls := 1, now := 0, flags := { l.family with reverse := true } }
      exact ⟨s', true, L', by simp [Cache.dhcpReverse, hneg, hs'], hR⟩
    · exact ⟨s, false, L, by simp [Cache.dhcpReverse, hneg], .refl h⟩

/-- First the entries for the name are looked up, and those of the pool freed; then the entry for
the lease is made. -/
def Lease.Added (cfg : Config) (l : Lease) (s : State) (L : Lists) (s' : State) (L' : Lists) :
    Prop :=
  ∃ s1 L1, Reaches cfg (Searching 0 (hostnameIsequal · l.name = true)) s L s1 L1 ∧
    ((s.view L).Conflict cfg ∨ l.Clear cfg (s1.view L1)) ∧
    Staged cfg l.Record (hostnameIsequal · l.name = true) s.nextCrec s1 L1 s' L'

theorem Threads.cacheAddDhcpEntry (h : Threads cfg s L ∅) (l : Lease) :
    ∃ s' L', cacheAddDhcpEntry cfg s l = some s' ∧ l.Added cfg s L s' L' := by
  obtain ⟨s0, L0, ans, stats, front, back, hs0, hR0, hfound, -⟩ :=
    h.cacheFindByName l.name 0 l.prot false
  have hstats : ∀ d ∈ stats, (s0.crec d).flags.isStatic = true ∧
      (s0.crec d).answers l.name l.prot = true := by
    intro d hd
    obtain ⟨hmem, hle, hans⟩ := (hfound.mem_stats d).mp hd
    exact ⟨(hR0.threads.place _ d hmem).2.2.1.static_iff.mpr hle, hans⟩
  have hlen : stats.length < s0.nextCrec + 1 := by
    have hnodup := (nodup_append.mp hfound.chain.nodup).1
    have hlt : ∀ d ∈ stats, d < s0.nextCrec := fun d hd =>
      hR0.threads.unhashed_lt ((hfound.mem_stats d).mp hd).1
    have hle := length_le_of_lt hnodup hlt
    omega
  obtain ⟨s1, L1, inHosts, fail, hs1, hR1, hclear⟩ :=
    hR0.threads.dhcpNames l hfound.lru hfound.mem_front stats
    (s0.nextCrec + 1) hlen hfound.chain hstats false false
  have hR01 := hR0.trans hR1.searching
  have hclear' : (s.view L).Conflict cfg ∨ l.Clear cfg (s1.view L1) :=
    hclear.imp_left fun hc => hc.of_sheds hR0.sheds
  have hnext : s1.nextCrec = s.nextCrec := hR01.sheds.nextCrec
  unfold Cache.cacheAddDhcpEntry
  have hprot : ({ l.family with cname := true } : Flags) = l.prot := rfl
  simp only [hprot, hs0, hs1, bind_eq_bind, bind_some]
  split
  · exact ⟨s1, L1, rfl, s1, L1, hR01, hclear', .refl hR1.threads⟩
  obtain ⟨s2, L2, ans2, _, _, _, hs2, hR2, -⟩ := hR1.threads.cacheFindByAddr
    (q := (hostnameIsequal · l.name = true)) l.addr 0 l.family
  obtain ⟨s3, reverse, L3, hs3, hR3⟩ :=
    hR2.threads.dhcpReverse l (ans2.filter fun c => Crec.pointsAt l.addr l.family (s2.crec c))
  have hR23 := (hR2.trans hR3.searching).staged (S := l.Record) (n := s.nextCrec)
  have hn : s.nextCrec ≤ s3.nextCrec := hnext ▸ hR23.nextCrec_le
  simp only [hs2, hs3, bind_some]
  obtain ⟨s4, hs4, hview, hT4, -⟩ | ⟨s4, c, s5, L5, hs4, hs5, hR5, hcrec, hle, hch⟩ :=
    hR3.threads.putStatic hn true
    (l.crec reverse) (l.crec reverse) (fun r c hc => l.crec_hashable reverse r hc)
      (fun _ => .inl rfl) fun _ _ => rfl
  · rw [hs4]
    exact ⟨s4, L3, rfl, s1, L1, hR01, hclear', hR23.trans (.of_view hT4 hview)⟩
  · rw [hs4]
    obtain ⟨s6, L6, hs6, hT6, hmade, hhas⟩ :=
      hashStatic_made hR5 hs5 hcrec hle hch (l.crec_statable _ _) (l.crec_held _ _) hn
    exact ⟨s6, L6, hs6, s1, L1, hR01, hclear',
      hR23.trans (.of_stage hT6 (.entry ⟨reverse, _, rfl⟩ (l.crec_held _ _) hmade hhas))⟩

end Dnsmasq.Cache
