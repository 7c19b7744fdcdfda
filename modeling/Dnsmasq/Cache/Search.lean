import Dnsmasq.Cache.Hashing

/-!
`cache_scan_free`: which records a scan for a name or of the whole table removes.
-/
namespace Dnsmasq.Cache

open List Lib

variable {cfg : Config} {s s' t : State} {L L' M : Lists} {i : ℕ} {c d : CrecId}
  {pre rest : List CrecId}

/-- The records a scan for a name removes, or stops at. -/
def ScanArgs.Hits (args : ScanArgs) (name : CString) (r : Crec) : Prop :=
  r.flags.forward = true ∧ hostnameIsequal r.name name = true ∧
    (args.flags.clashes r.flags = true ∨ args.flags.sameDnssec r.flags = true ∧ r.uid = args.cls)

theorem Flags.dnssec_of_sameDnssec {f g : Flags} (h : f.sameDnssec g = true) : g.dnssec = true := by
  unfold Flags.sameDnssec at h
  unfold Flags.dnssec
  cases hk : g.dnskey <;> cases hd : g.ds <;> simp_all

section Forward

variable {args : ScanArgs} {acc acc' : ScanAcc}

theorem scanForward_keep (hb : scanForward args s acc c = .keep s' acc') :
    s' = s ∧ acc' = acc ∧ ¬args.Hits acc.name (s.crec c) := by
  simp only [scanForward] at hb
  split at hb
  · split at hb <;> cases hb
  rename_i h1
  split at hb
  · split at hb <;> cases hb
  rename_i h2
  split at hb
  · cases hb
  cases hb
  refine ⟨rfl, rfl, fun ⟨hf, hn, hor⟩ => ?_⟩
  rcases hor with hor | ⟨hor, huid⟩
  · exact h1 (by simp [hf, hn, hor])
  · exact h2 (by simp [hf, hn, hor, huid])

theorem scanForward_stop (hok : Hashable cfg (s.crec c) c) (hb : scanForward args s acc c = .stop) :
    cfg.cachesize ≤ c ∧ args.Hits acc.name (s.crec c) := by
  simp only [scanForward] at hb
  split at hb
  · rename_i h1
    simp only [Bool.and_eq_true] at h1
    split at hb
    · rename_i hs
      exact ⟨hok.static_iff.mp hs, h1.1.1, h1.1.2, .inl h1.2⟩
    · cases hb
  split at hb
  · rename_i h2
    simp only [Bool.and_eq_true, decide_eq_true_eq] at h2
    split at hb
    · rename_i hconf
      refine ⟨hok.static_iff.mp ?_, h2.1.1.1, h2.1.1.2, .inr ⟨h2.1.2, h2.2⟩⟩
      simp [Flags.isStatic, hconf]
    · cases hb
  · split at hb <;> cases hb

theorem Hashable.not_outdated (h : Hashable cfg (s.crec c) c) (hc : cfg.cachesize ≤ c) :
    isOutdatedCnamePointer s c = false := by
  have hptr := (h.other hc).2.2.2.2.1
  unfold isOutdatedCnamePointer
  cases hn : (s.crec c).flags.cname with
  | false => simp [hn]
  | true => simp [hptr hn]

theorem scanForward_drop (hok : Hashable cfg (s.crec c) c) {after : State → State}
    (hb : scanForward args s acc c = .drop after acc') :
    (∀ t, (after t).hashNext = t.hashNext) ∧ (∀ t, t.crec c = s.crec c → after t = discard t c) ∧
      (acc'.target = acc.target ∨ c < cfg.cachesize ∧ acc'.target = some (c, (s.crec c).uid) ∧
        (s.crec c).uid ≠ uidNone ∧ hostnameIsequal (s.crec c).name acc.name = true ∧
        args.flags.clashes (s.crec c).flags = true) ∧ (acc'.name = acc.name ∨ args.owner = some c) ∧
      (cfg.cachesize ≤ c → isExpired args.now (s.crec c) = true) := by
  have hname : ∀ b : Bool, (if args.owner = some c ∧ b = true then { acc with name := args.garbled }
      else acc).target = acc.target ∧ ((if args.owner = some c ∧ b = true then
        { acc with name := args.garbled } else acc).name = acc.name ∨ args.owner = some c) := by
    intro b
    split
    · rename_i ho
      exact ⟨rfl, .inr ho.1⟩
    · exact ⟨rfl, .inl rfl⟩
  have hrelease : (s.crec c).flags.isStatic = false → ∀ t : State, t.crec c = s.crec c →
      release t c = discard t c := fun hs t ht => (discard_eq_release (ht ▸ hs)).symm
  have hpool : (s.crec c).flags.isStatic = false → c < cfg.cachesize := fun hs =>
    not_le.mp fun hle => by simp [hok.static_iff.mpr hle] at hs
  simp only [scanForward] at hb
  split at hb
  · rename_i h1
    simp only [Bool.and_eq_true] at h1
    split at hb
    · cases hb
    rename_i hs
    cases hb
    have hs : (s.crec c).flags.isStatic = false := by simpa using hs
    refine ⟨fun _ => rfl, hrelease hs, ?_, (hname _).2,
      fun hle => absurd (hpool hs) (not_lt.mpr hle)⟩
    by_cases hu : (s.crec c).uid = uidNone
    · exact .inl (if_pos hu)
    · exact .inr ⟨hpool hs, if_neg hu, hu, h1.1.2, h1.2⟩
  split at hb
  · rename_i h2
    simp only [Bool.and_eq_true] at h2
    split at hb
    · cases hb
    rename_i hconf
    cases hb
    have hs : (s.crec c).flags.isStatic = false := by
      by_contra hs
      have hle := hok.static_iff.mp (by simpa using hs)
      exact hconf ((hok.other hle).2.2.1 (Flags.dnssec_of_sameDnssec h2.1.2)).1
    exact ⟨fun _ => rfl, hrelease hs, .inl (hname _).1, (hname _).2,
      fun hle => absurd (hpool hs) (not_lt.mpr hle)⟩
  split at hb
  · rename_i h3
    cases hb
    refine ⟨fun t => discard_frame t c, fun _ _ => rfl, .inl (hname _).1, (hname _).2,
      fun hle => ?_⟩
    simpa [hok.not_outdated hle] using h3
  · cases hb

/-- A record that was a CNAME target and has been freed to be filled in again. -/
structure Retargeted (cfg : Config) (args : ScanArgs) (v w : View) (c : CrecId) (uid : ℕ) :
    Prop where
  pool : c < cfg.cachesize
  hashed : v.Hashed c
  free : ¬w.Hashed c
  eq : uid = (v.crec c).uid
  used : uid ≠ uidNone
  same : args.owner = none → hostnameIsequal (v.crec c).name args.name = true ∧
    args.flags.clashes (v.crec c).flags = true

/-- What holds while the chain is scanned, with `pre` behind the loop. -/
structure Scanning (cfg : Config) (args : ScanArgs) (v : View) (s : State) (acc : ScanAcc)
    (L : Lists) (pre : List CrecId) : Prop where
  sheds : Sheds v (s.view L)
  target : ∀ c uid, acc.target = some (c, uid) → Retargeted cfg args v (s.view L) c uid
  /-- The name is as it was until its owner is freed. -/
  name : (∀ e, args.owner = some e → L.Hashed e) → acc.name = args.name
  kept : (∀ e, args.owner = some e → L.Hashed e) → ∀ d ∈ pre, ¬args.Hits args.name (s.crec d)

theorem scanForward_rule (cfg : Config) (args : ScanArgs) (v : View) (i : ℕ) :
    SweepRule cfg (Shedding args.now) (scanForward args) i (Scanning cfg args v) where
  keep {s acc L pre c rest s' acc'} h hi hI hb := by
    obtain ⟨rfl, rfl, hnot⟩ := scanForward_keep hb
    refine ⟨L, .refl h, rfl, hI.sheds, hI.target, hI.name, fun howner d hd => ?_⟩
    rcases mem_append.mp hd with hd | hd
    · exact hI.kept howner d hd
    · rw [mem_singleton.mp hd, ← hI.name howner]
      exact hnot
  drop {s acc L pre c rest after acc'} h hi hI hb := by
    have hc : c ∈ L.chain i := by simp [hi]
    obtain ⟨hframe, hafter, htarget, hname, hexp⟩ := scanForward_drop (h.place i c hc).2.2.1 hb
    obtain ⟨L', h', hchain, -⟩ := h.discard hi hexp
    have heq := hafter (s.store i pre.getLast? (s.hashNext c)) rfl
    have hsheds := h'.shed
    have hL' : ∀ e, L'.Hashed e → L.Hashed e := fun e he => (hsheds.hashed e he).1
    have hgone : ¬L'.Hashed c := by
      rintro ⟨j, hj⟩
      rw [hchain] at hj
      exact h.not_hashed_of_unhash hi ⟨j, hj⟩
    have hi' : L'.chain i = pre ++ rest := by rw [hchain, Threads.setChain_self]
    rw [heq]
    refine ⟨hframe, L', h', hi', hI.sheds.trans hsheds, fun e uid he => ?_, fun howner => ?_,
      fun howner d hd => ?_⟩
    · rcases htarget with htarget | ⟨hpool, htarget, hused, hsame, hclash⟩
      · have hre := hI.target e uid (htarget ▸ he)
        exact { hre with free := fun hm => hre.free (hL' e hm) }
      rw [htarget] at he
      cases he
      obtain ⟨hv, hcrec⟩ := hI.sheds.hashed c ⟨i, hc⟩
      have hcrec : s.crec c = v.crec c := hcrec
      rw [hcrec] at hused hsame hclash ⊢
      refine ⟨hpool, hv, hgone, rfl, hused, fun howner => ⟨?_, hclash⟩⟩
      rwa [← hI.name (fun e he => by rw [howner] at he; cases he)]
    · -- the owner is still hashed, so it is not the record just dropped
      have hne : args.owner ≠ some c := fun e => hgone (howner c e)
      rw [hname.resolve_right hne]
      exact hI.name fun e he => hL' e (howner e he)
    · have hd' : L'.Hashed d := ⟨i, hi' ▸ mem_append_left rest hd⟩
      rw [show (discard (s.store i pre.getLast? (s.hashNext c)) c).crec d =
        s.crec d from (hsheds.hashed d hd').2]
      exact hI.kept (fun e he => hL' e (howner e he)) d hd

theorem Threads.scanForward (h : Threads cfg s L ∅) (args : ScanArgs)
    (hf : args.flags.forward = true) : ∃ s' L' found target,
    cacheScanFree cfg s args = some (s', found, target) ∧
      Reaches cfg (Shedding args.now) s L s' L' ∧
      (∀ c uid, target = some (c, uid) → Retargeted cfg args (s.view L) (s'.view L') c uid) ∧
      (∀ c ∈ found, cfg.cachesize ≤ c ∧ L'.Hashed c ∧
        ((∀ e, args.owner = some e → L'.Hashed e) → args.Hits args.name (s'.crec c))) ∧
      (found = none → (∀ e, args.owner = some e → L'.Hashed e) →
        ∀ d ∈ L'.chain (hashBucket cfg s.hashSize args.name),
          ¬args.Hits args.name (s'.crec d)) := by
  have hstart : Scanning cfg args (s.view L) s { name := args.name } L [] :=
    ⟨Sheds.refl _, nofun, fun _ => rfl, fun _ _ hd => absurd hd not_mem_nil⟩
  obtain ⟨s', acc, L', pre, rest, hs', h', hi, hI, hstop⟩ :=
    (scanForward_rule cfg args (s.view L) (hashBucket cfg s.hashSize args.name)).sweepChain h hstart
  refine ⟨s', L', rest.head?, acc.target, ?_, h', hI.target, fun c hc => ?_,
    fun hnone howner d hd => ?_⟩
  · rw [cacheScanFree, if_pos hf]
    simp [hs']
  · have hmem : c ∈ L'.chain (hashBucket cfg s.hashSize args.name) := by
      rw [hi]
      exact mem_append_right pre (mem_of_head? hc)
    obtain ⟨hle, hhit⟩ := scanForward_stop (h'.threads.place _ c hmem).2.2.1 (hstop c hc)
    exact ⟨hle, ⟨_, hmem⟩, fun howner => hI.name howner ▸ hhit⟩
  · rw [head?_eq_none_iff.mp hnone, append_nil] at hi
    exact hI.kept howner d (hi ▸ hd)

end Forward

section All

variable {args : ScanArgs} {acc acc' : Unit}

def ScanArgs.Keeps (args : ScanArgs) (r : Crec) : Prop :=
  isExpired args.now r = false ∧
    (!r.flags.isStatic && (args.flags.reverse && r.flags.reverse) &&
      args.flags.sameFamily r.flags && args.addr.any (sameAddr args.flags.addrlen r.addr)) = false

theorem scanAll_drop (hok : Hashable cfg (s.crec c) c) {after : State → State}
    (hb : scanAll args s acc c = .drop after acc') :
    (∀ t, (after t).hashNext = t.hashNext) ∧ (∀ t, t.crec c = s.crec c → after t = discard t c) ∧
      (cfg.cachesize ≤ c → isExpired args.now (s.crec c) = true) := by
  simp only [scanAll] at hb
  split at hb
  · cases hb
  split at hb
  · rename_i h2
    cases hb
    exact ⟨fun t => discard_frame t c, fun _ _ => rfl, fun _ => h2⟩
  split at hb
  · rename_i h3
    simp only [Bool.and_eq_true, Bool.not_eq_true'] at h3
    cases hb
    refine ⟨fun _ => rfl, fun t ht => (discard_eq_release (ht ▸ h3.1.1.1)).symm, fun hle => ?_⟩
    simp [hok.static_iff.mpr hle] at h3
  · cases hb

theorem scanAll_keep (hb : scanAll args s acc c = .keep s' acc') :
    s' = s ∧ args.Keeps (s.crec c) := by
  simp only [scanAll] at hb
  split at hb
  · cases hb
  split at hb
  · cases hb
  rename_i h2
  split at hb
  · cases hb
  · rename_i h3
    cases hb
    exact ⟨rfl, by simpa using h2, by simpa using h3⟩

theorem scanAll_stop (hb : scanAll args s acc c = .stop) :
    (s.crec c).flags.reverse = false ∧ (s.crec c).flags.immortal = true := by
  simp only [scanAll] at hb
  split at hb
  · rename_i h1
    simpa using h1
  · split at hb
    · cases hb
    · split at hb <;> cases hb

/-- A chain that has been scanned up to the first entry that is immortal and not reverse. -/
def ScanArgs.Scanned (args : ScanArgs) (s : State) (l : List CrecId) : Prop :=
  ∃ pre rest, l = pre ++ rest ∧ (∀ c ∈ pre, args.Keeps (s.crec c)) ∧
    ∀ d ∈ rest.head?, (s.crec d).flags.reverse = false ∧ (s.crec d).flags.immortal = true

theorem ScanArgs.Scanned.congr
    {l : List CrecId} (h : args.Scanned s l) (hs : ∀ c ∈ l, s'.crec c = s.crec c) :
    args.Scanned s' l := by
  obtain ⟨pre, rest, rfl, hpre, hrest⟩ := h
  refine ⟨pre, rest, rfl, fun c hc => ?_, fun d hd => ?_⟩
  · rw [hs c (mem_append_left rest hc)]
    exact hpre c hc
  · rw [hs d (mem_append_right pre (mem_of_head? hd))]
    exact hrest d hd

theorem scanAll_rule (cfg : Config) (args : ScanArgs) (i : ℕ) :
    SweepRule cfg (Shedding args.now) (scanAll args) i fun s _ L pre =>
      (∀ j < i, args.Scanned s (L.chain j)) ∧ ∀ c ∈ pre, args.Keeps (s.crec c) where
  keep {s acc L pre c rest s' acc'} h hi hI hb := by
    obtain ⟨rfl, hkeep⟩ := scanAll_keep hb
    refine ⟨L, .refl h, rfl, hI.1, fun d hd => ?_⟩
    rcases mem_append.mp hd with hd | hd
    · exact hI.2 d hd
    · rw [mem_singleton.mp hd]
      exact hkeep
  drop {s acc L pre c rest after acc'} h hi hI hb := by
    have hc : c ∈ L.chain i := by simp [hi]
    obtain ⟨hframe, hafter, hexp⟩ := scanAll_drop (h.place i c hc).2.2.1 hb
    obtain ⟨L', h', hchain, -⟩ := h.discard hi hexp
    have hi' : L'.chain i = pre ++ rest := by rw [hchain, Threads.setChain_self]
    have hcrec : ∀ d, L'.Hashed d →
        (discard (s.store i pre.getLast? (s.hashNext c)) c).crec d = s.crec d :=
      fun d hd => (h'.shed.hashed d hd).2
    rw [hafter (s.store i pre.getLast? (s.hashNext c)) rfl]
    refine ⟨hframe, L', h', hi', fun j hj => ?_, fun d hd => ?_⟩
    · have hj' : L'.chain j = L.chain j := by
        rw [hchain, Threads.setChain_of_ne L (Nat.ne_of_lt hj)]
      rw [hj']
      exact (hI.1 j hj).congr fun d hd => hcrec d ⟨j, hj' ▸ hd⟩
    · rw [hcrec d ⟨i, hi' ▸ mem_append_left rest hd⟩]
      exact hI.2 d hd

theorem Threads.scanAll (h : Threads cfg s L ∅) (args : ScanArgs)
    (hf : args.flags.forward = false) :
    ∃ s' L', cacheScanFree cfg s args = some (s', none, none) ∧
      Reaches cfg (Shedding args.now) s L s' L' ∧ ∀ i, args.Scanned s' (L'.chain i) := by
  obtain ⟨s', acc, L', hs', h', hJ⟩ :=
    @sweepTable_rule cfg s L (Shedding args.now) Unit (Cache.scanAll args) () _
    ( fun n s _ L => ∀ j < n, args.Scanned s (L.chain j)) (scanAll_rule cfg args)
    (fun i s acc L hJ => ⟨hJ, nofun⟩)
    (fun {i s acc L pre rest} h hi hI hstop j hj => by
      rcases Nat.lt_succ_iff_lt_or_eq.mp hj with hj | rfl
      · exact hI.1 j hj
      · exact ⟨pre, rest, hi, hI.2, fun d hd => scanAll_stop (hstop d hd)⟩)
    h (fun j hj => absurd hj (Nat.not_lt_zero j))
  refine ⟨s', L', ?_, h', fun i => ?_⟩
  · rw [cacheScanFree, if_neg (by simp [hf])]
    simp [hs']
  by_cases hi : i < s.hashSize
  · exact hJ i hi
  have hsize : s'.hashSize = s.hashSize := h'.shed.hashSize
  have hnil : L'.chain i = [] := eq_nil_iff_forall_not_mem.mpr fun c hc => by
    have hb : bucketOf cfg s' c = i := (h'.threads.place i c hc).1
    have hlt : bucketOf cfg s' c < s'.hashSize := hashBucket_lt cfg h'.threads.size _
    omega
  rw [hnil]
  exact ⟨[], [], rfl, nofun, nofun⟩

end All

theorem Threads.cacheScanFree (h : Threads cfg s L ∅) (args : ScanArgs) :
    ∃ s' L' found target, cacheScanFree cfg s args = some (s', found, target) ∧
      Reaches cfg (Shedding args.now) s L s' L' ∧
      ∀ c uid, target = some (c, uid) → Retargeted cfg args (s.view L) (s'.view L') c uid := by
  cases hf : args.flags.forward with
  | true =>
    obtain ⟨s', L', found, target, h1, h2, h3, -⟩ := h.scanForward args hf
    exact ⟨s', L', found, target, h1, h2, h3⟩
  | false =>
    obtain ⟨s', L', h1, h2, -⟩ := h.scanAll args hf
    exact ⟨s', L', none, none, h1, h2, nofun⟩

end Dnsmasq.Cache
