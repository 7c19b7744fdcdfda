import Dnsmasq.Cache.Search

/-!
Insertion: how a record of the pool is found for a new entry, and the chain of new entries.
-/
namespace Dnsmasq.Cache

open List Option Lib Function

variable {cfg : Config} {s s' t : State} {L L' M : Lists} {i : ℕ} {c d : CrecId} {ins : Insert}

theorem Hashable.not_hashed (h : Threads cfg s L ∅) (hc : (s.crec c).flags.inUse = false) :
    ¬L.Hashed c := by
  rintro ⟨i, hi⟩
  have := (h.place i c hi).2.2.1.inUse
  rw [hc] at this
  cases this

theorem Flags.freed_not_inUse (f : Flags) : f.freed.inUse = false := rfl

theorem Moves.lru_of_shedding {v w : View} {now : ℤ} (h : Moves cfg (Shedding now) v w) :
    w.lru = v.lru ∨ ∃ c, w.lru.getLast? = some c ∧ (w.crec c).flags.inUse = false := by
  refine h.invariant (I := fun u => u.lru = v.lru ∨ ∃ c, u.lru.getLast? = some c ∧
    (u.crec c).flags.inUse = false) (.inl rfl) fun a u u' ha hm hI => ?_
  cases hm with
  | drop => exact hI
  | @release i c pre rest _ _ _ _ =>
    refine .inr ⟨c, by simp, ?_⟩
    rw [View.setCrec_self]
    exact Flags.freed_not_inUse _
  | _ => exact absurd ha id

def Evicting (now : ℤ) : Action → View → Prop
  | .drop c, v => isExpired now (v.crec c) = true
  | .release _, _ | .fail, _ | .warn _, _ => True
  | _, _ => False

theorem Shedding.evicting {now : ℤ} {a : Action} {v : View} (h : Shedding now a v) :
    Evicting now a v := by
  cases a with
  | drop c => exact h
  | release c => trivial
  | _ => exact absurd h id

/-- The scan for a record by its own name, address and flags leaves it only if something is in
the way. -/
theorem Threads.scanOwn (h : Threads cfg s L ∅) (hlru : c ∈ L.lru)
    (hc : (s.crec c).flags.inUse = true) (now : ℤ) (garbled : CString) :
    ∃ s' L' found target, Cache.cacheScanFree cfg s ((s.crec c).scanArgs c now garbled) =
      some (s', found, target) ∧ Reaches cfg (Shedding now) s L s' L' ∧
      (L'.Hashed c → (s.crec c).flags.forward = true ∧ ((s.crec c).Hits (s.crec c) →
        ∃ d, cfg.cachesize ≤ d ∧ L'.Hashed d ∧ (s.crec c).Hits (s'.crec d))) := by
  have hplace := h.place _ c (h.hashed c hlru (Set.notMem_empty c) hc)
  have hup := hplace.2.2.1.pool (h.lruPool c hlru)
  cases hf : (s.crec c).flags.forward with
  | true =>
    obtain ⟨s', L', found, target, hs', hR, -, hfound, hnone⟩ :=
      h.scanForward ((s.crec c).scanArgs c now garbled) hf
    refine ⟨s', L', found, target, hs', hR, fun hmem => ⟨rfl, fun hself => ?_⟩⟩
    have hcrec : s'.crec c = s.crec c := (hR.shed.hashed c hmem).2
    have howner : ∀ e, ((s.crec c).scanArgs c now garbled).owner = some e → L'.Hashed e := by
      intro e he
      cases he
      exact hmem
    cases found with
    | none =>
      obtain ⟨i, hi⟩ := hmem
      have hbucket : hashBucket cfg s.hashSize (s.crec c).name = i := by
        rw [← (hR.threads.place i c hi).1, bucketOf, hcrec,
          show s'.hashSize = s.hashSize from hR.shed.hashSize]
      have := hnone rfl howner c (hbucket ▸ hi)
      rw [hcrec] at this
      exact absurd hself this
    | some d =>
      obtain ⟨hle, hd, hhit⟩ := hfound d rfl
      exact ⟨d, hle, hd, hhit howner⟩
  | false =>
    obtain ⟨s', L', hs', hR, hscan⟩ := h.scanAll ((s.crec c).scanArgs c now garbled) hf
    refine ⟨s', L', none, none, hs', hR, fun hmem => ?_⟩
    have hcrec : s'.crec c = s.crec c := (hR.shed.hashed c hmem).2
    obtain ⟨i, hmem⟩ := hmem
    simp only [Flags.upstream, hf, Bool.false_eq_true, if_false, Bool.and_eq_true] at hup
    obtain ⟨⟨⟨⟨hstatic, -⟩, -⟩, -⟩, hrev, hfamily⟩ := hup
    obtain ⟨pre, rest, hi, hpre, hrest⟩ := hscan i
    rw [hi] at hmem
    rcases mem_append.mp hmem with hp | hp
    · have := (hpre c hp).2
      rw [hcrec] at this
      simp only [Crec.scanArgs, any_some, sameAddr, decide_true, Flags.sameFamily, Bool.and_self,
        hrev, hstatic, Bool.true_and, Bool.and_true] at this
      rw [hfamily] at this
      cases this
    cases rest with
    | nil => cases hp
    | cons d rest =>
      have hd := (hrest d rfl).1
      rcases mem_cons.mp hp with rfl | hp
      · rw [hcrec, hrev] at hd
        cases hd
      have hord := hR.threads.order i
      rw [hi] at hord
      have := (pairwise_cons.mp (pairwise_append.mp hord).2.1).1 c hp
      rw [hcrec, hd, hrev] at this
      cases this rfl

theorem Threads.scanTail (h : Threads cfg s L ∅) (hlast : L.lru.getLast? = some c)
    (hc : (s.crec c).flags.inUse = true) (now : ℤ) (garbled : CString) :
    ∃ s' L' found target, Cache.cacheScanFree cfg s ((s.crec c).scanArgs c now garbled) =
      some (s', found, target) ∧ Reaches cfg (Shedding now) s L s' L' ∧
      ∀ x, L'.lru.getLast? = some x → (s'.crec x).flags.inUse = true →
        (s'.crec x).flags.forward = true ∧ ((s'.crec x).Hits (s'.crec x) →
          ∃ d, cfg.cachesize ≤ d ∧ L'.Hashed d ∧ (s'.crec x).Hits (s'.crec d)) := by
  have hlru : c ∈ L.lru := mem_of_getLast? hlast
  obtain ⟨s', L', found, target, hs', hR, hblocked⟩ := h.scanOwn hlru hc now garbled
  refine ⟨s', L', found, target, hs', hR, fun x hx hu => ?_⟩
  rcases hR.moves.lru_of_shedding with heq | ⟨y, hy, hfree⟩
  · have heq : L'.lru = L.lru := heq
    rw [heq, hlast] at hx
    cases hx
    have hmem : L'.Hashed c := ⟨_, hR.threads.hashed c (heq ▸ hlru) (Set.notMem_empty c) hu⟩
    rw [show s'.crec c = s.crec c from (hR.shed.hashed c hmem).2]
    exact hblocked hmem
  have hy : L'.lru.getLast? = some y := hy
  rw [hx] at hy
  cases hy
  have hfree : (s'.crec x).flags.inUse = false := hfree
  rw [hfree] at hu
  cases hu

/-- What the loop that looks for a free record comes back with. -/
inductive Taken (cfg : Config) (now : ℤ) (s : State) (L : Lists) : State × Option CrecId → Prop
  | none {t : State} {M : Lists} : Reaches cfg (Evicting now) s L t M → t.insertError = true →
      Taken cfg now s L (t, none)
  | some {t : State} {M : Lists} {c : CrecId} : Reaches cfg (Shedding now) s L t M → c ∈ M.lru →
      ¬M.Hashed c → Taken cfg now s L (t, some c)

theorem Taken.trans {r : State × Option CrecId} (h : Reaches cfg (Shedding now) s L t M)
    (h' : Taken cfg now t M r) : Taken cfg now s L r := by
  cases h' with
  | none hR he => exact .none ((h.mono fun _ _ => Shedding.evicting).trans hR) he
  | some hR hl hn => exact .some (h.trans hR) hl hn

section

variable (h : Threads cfg s L ∅)
include h

theorem Threads.failed : Reaches cfg (Evicting now) s L { s with insertError := true } L :=
  ⟨h.congr rfl rfl rfl rfl rfl rfl rfl rfl, (Move.fail (v := s.view L)).moves trivial⟩

section

variable (ins : Insert) (k : ℕ)

theorem Threads.takeTail_succ (freedAll freeAvail : Bool)
    (hlive : ∀ c, L.lru.getLast? = some c → (s.crec c).flags.inUse = true →
      ∃ r, takeTail cfg ins (k + 1) s freedAll freeAvail = some r ∧ Taken cfg ins.now s L r) :
    ∃ r, takeTail cfg ins (k + 1) s freedAll freeAvail = some r ∧ Taken cfg ins.now s L r := by
  have htail := h.lru.tail_eq
  cases hl : L.lru.getLast? with
  | none =>
    rw [hl] at htail
    refine ⟨({ s with insertError := true }, none), ?_, .none h.failed rfl⟩
    simp only [takeTail, htail]
  | some c =>
    rw [hl] at htail
    by_cases hc : (s.crec c).flags.inUse = true
    · exact hlive c hl hc
    refine ⟨(s, some c), ?_, .some (.refl h) (mem_of_getLast? hl) ?_⟩
    · simp only [takeTail, htail]
      rw [if_pos (by simpa using hc)]
    · exact Hashable.not_hashed h (by simpa using hc)

theorem Threads.takeTail_freeAvail
    (hblocked : ∀ x, L.lru.getLast? = some x → (s.crec x).flags.inUse = true →
      (s.crec x).flags.forward = true ∧ ((s.crec x).Hits (s.crec x) →
        ∃ d, cfg.cachesize ≤ d ∧ L.Hashed d ∧ (s.crec x).Hits (s.crec d))) :
    ∃ r, takeTail cfg ins (k + 1) s true true = some r ∧ Taken cfg ins.now s L r := by
  apply h.takeTail_succ
  intro c hl hc
  have htail := h.lru.tail_eq
  rw [hl] at htail
  have hlru : c ∈ L.lru := mem_of_getLast? hl
  refine ⟨({ s with insertError := true, warned := true }, none), ?_, .none (M := L) ⟨?_, ?_⟩ rfl⟩
  · simp only [takeTail, htail]
    rw [if_neg (by simp [hc])]
    rfl
  · exact h.congr rfl rfl rfl rfl rfl rfl rfl rfl
  · have hhash : L.Hashed c := ⟨_, h.hashed c hlru (Set.notMem_empty c) hc⟩
    obtain ⟨hf, hd⟩ := hblocked c hl hc
    exact (Move.warn (v := s.view L) (h.lruPool c hlru) hhash hf hd).moves trivial

theorem Threads.takeTail_freedAll :
    ∃ r, takeTail cfg ins (k + 2) s true false = some r ∧ Taken cfg ins.now s L r := by
  apply h.takeTail_succ
  intro c hl hc
  have htail := h.lru.tail_eq
  rw [hl] at htail
  obtain ⟨s', L', found, target, hs', hR, hblocked⟩ := h.scanTail hl hc ins.now ins.garbled
  obtain ⟨r, hr, ht⟩ := hR.threads.takeTail_freeAvail ins k hblocked
  refine ⟨r, ?_, .trans hR ht⟩
  simp only [takeTail, htail]
  rw [if_neg (by simp [hc])]
  simp only [hs', bind_eq_bind, bind_some, Bool.false_eq_true, if_false, if_true]
  exact hr

end

/-- First everything that has expired is freed, then the least recently used record. -/
theorem Threads.takeTail (ins : Insert) (freedAll : Bool) :
    ∃ r, takeTail cfg ins 3 s freedAll false = some r ∧ Taken cfg ins.now s L r := by
  cases freedAll with
  | true => exact h.takeTail_freedAll ins 1
  | false =>
    apply h.takeTail_succ
    intro c hl hc
    have htail := h.lru.tail_eq
    rw [hl] at htail
    obtain ⟨s', L', hs', hR, -⟩ := h.scanAll { cls := ins.cls.toNat, now := ins.now } rfl
    obtain ⟨r, hr, ht⟩ := hR.threads.takeTail_freedAll ins 0
    refine ⟨r, ?_, .trans hR ht⟩
    rw [Cache.takeTail]
    simp only [htail]
    rw [if_neg (by simp [hc])]
    simp only [hs', bind_eq_bind, bind_some, Bool.false_eq_true, if_false]
    exact hr

end

/-- The record of a new entry; `uid` is that of a CNAME target which it replaces, or was there. -/
def Insert.crec (ins : Insert) (ttl : ℕ) (big : Bool) (uid : ℕ) (r : Crec) : Crec :=
  { r with
    flags := { ins.flags with bigname := ins.flags.bigname || big }
    name := ins.name.getD []
    uid := if ins.flags.dnssec then ins.cls.toNat else uid
    addr := ins.addr.getD r.addr
    ttd := ins.now + ttl }

/-- What an insertion does and comes back with; `fill` makes the new record. -/
inductive Inserted (cfg : Config) (ins : Insert) (fill : Bool → ℕ → Crec →
    Crec) (s : State) (L : Lists) : State × Option CrecId → Lists → Prop
  | fail {t : State} {M : Lists} : Reaches cfg (Evicting ins.now) s L t M → t.insertError = true →
      Inserted cfg ins fill s L (t, none) M
  /-- There is a record from elsewhere that says the same. -/
  | found {t : State} {M : Lists} {c : CrecId} : Reaches cfg (Shedding ins.now) s L t M →
      cfg.cachesize ≤ c → M.Hashed c → ins.scanArgs.Hits ins.scanArgs.name (t.crec c) →
      sameEntry (t.crec c) ins = true → Inserted cfg ins fill s L (t, some c) M
  | new {u t : State} {M N : Lists} {c : CrecId} {big : Bool} {uid : ℕ} : s.insertError = false →
      Reaches cfg (Shedding ins.now) s L u M →
      uid = (u.crec c).uid ∨ Retargeted cfg ins.scanArgs (s.view L) (u.view M) c uid →
      (ins.flags.forward = true → ∀ d, M.Hashed d →
        ¬ins.scanArgs.Hits ins.scanArgs.name (u.crec d)) →
      Threads cfg t N ∅ → Move cfg (u.view M) (.grab c (fill big uid (u.crec c))) (t.view N) →
      Inserted cfg ins fill s L (t, some c) N

theorem takeBigname_frame (cfg : Config) (s : State) (ins : Insert) :
    (takeBigname cfg s ins).1 = { s with
      bigFree := (takeBigname cfg s ins).1.bigFree, allocs := (takeBigname cfg s ins).1.allocs
      bignamesLeft := (takeBigname cfg s ins).1.bignamesLeft } := by
  unfold takeBigname
  split
  · rfl
  split
  · rfl
  · split
    · rfl
    · split <;> rfl

theorem Threads.grab (h : Threads cfg s L ∅) (ins : Insert) (hc : c ∈ L.lru) (hn : ¬L.Hashed c)
    (ttl : ℕ) (big : Bool) (uid : ℕ) :
    Threads cfg (Cache.grab (s.modify c fun r => { r with uid := uid }) c ins ttl big)
        { L with lru := L.lru.erase c, new := c :: L.new } ∅ ∧
      Move cfg (s.view L) (.grab c (ins.crec ttl big uid (s.crec c)))
        ((Cache.grab (s.modify c fun r => { r with uid := uid }) c ins ttl big).view
          { L with lru := L.lru.erase c, new := c :: L.new }) := by
  have hp := h.lruPool c hc
  have hnew := h.apart c hc
  have hspare : c ∉ L.spare := fun hs => absurd hp (not_lt.mpr (h.sparePlace c hs).1)
  have hcrec : (Cache.grab (s.modify c fun r => { r with uid := uid }) c ins ttl big).crec =
      update s.crec c (ins.crec ttl big uid (s.crec c)) := by
    simp only [Cache.grab, cacheUnlink, State.modify, update_idem, update_self]
    rfl
  constructor
  · have h1 := (h.pickUp (hp.trans_le h.bound) hnew hspare).modify hn fun r => { r with uid := uid }
    have h2 := (h1.unlink hc).modify (c := c) hn fun r => { r with
      flags := { ins.flags with bigname := ins.flags.bigname || big }
      name := ins.name.getD []
      uid := if ins.flags.dnssec then ins.cls.toNat else r.uid
      addr := ins.addr.getD r.addr
      ttd := ins.now + ttl }
    refine h2.pushNew hp (fun hm => ((List.Nodup.mem_erase_iff h.lru.forward.nodup).mp hm).1 rfl)
      hn ?_
    rw [State.modify_self]
    exact ins.upstream
  have hview : (Cache.grab (s.modify c fun r => { r with uid := uid }) c ins ttl big).view
      { L with lru := L.lru.erase c, new := c :: L.new } =
      { (s.view L).setCrec c (ins.crec ttl big uid (s.crec c)) with
        lru := L.lru.erase c, new := c :: L.new } := by
    unfold State.view
    rw [hcrec]
    rfl
  rw [hview]
  exact Move.grab (v := s.view L) hc hn hnew ins.upstream

theorem ScanArgs.Hits.bucket (h : Threads cfg s L ∅) {args : ScanArgs} {name : CString}
    (hd : L.Hashed d) (hhit : args.Hits name (s.crec d)) :
    d ∈ L.chain (hashBucket cfg s.hashSize name) := by
  obtain ⟨i, hi⟩ := hd
  have hb := (h.place i d hi).1
  rw [bucketOf, hashBucket_congr cfg _ hhit.2.1] at hb
  rwa [hb]

theorem Reaches.fillIn (hR : Reaches cfg (Shedding ins.now) s L t M)
    (he : s.insertError = false) (ttl : ℕ) (hc : c ∈ M.lru) (hn : ¬M.Hashed c)
    (hfree : ins.flags.forward = true → ∀ d, M.Hashed d →
      ¬ins.scanArgs.Hits ins.scanArgs.name (t.crec d))
    (target : Option (CrecId × ℕ))
    (ht : ∀ e uid, target = some (e, uid) → e = c ∧
      Retargeted cfg ins.scanArgs (s.view L) (t.view M) c uid) :
    ∃ r N, (match takeBigname cfg t ins with
      | (s, none) => some ({ s with insertError := true }, none)
      | (s, some big) =>
        let s := match target with
          | some (_, uid) => s.modify c fun r => { r with uid := uid }
          | none => s
        some (Cache.grab s c ins ttl big, some c)) = some r ∧
          Inserted cfg ins (ins.crec ttl) s L r N := by
  have hframe := takeBigname_frame cfg t ins
  cases hb : takeBigname cfg t ins with
  | mk t1 big =>
    rw [hb] at hframe
    dsimp only at hframe
    have hcrec : t1.crec = t.crec := by rw [hframe]
    have hview : t1.view M = t.view M := by rw [hframe]; rfl
    have hT1 : Threads cfg t1 M ∅ := by
      rw [hframe]
      exact hR.threads.congr rfl rfl rfl rfl rfl rfl rfl rfl
    have hR1 : Reaches cfg (Shedding ins.now) s L t1 M := hR.trans (.of_view hT1 hview)
    cases big with
    | none =>
      refine ⟨_, _, rfl, .fail ((hR1.mono fun _ _ => Shedding.evicting).trans hT1.failed) rfl⟩
    | some big =>
      cases target with
      | none =>
        -- the uid is the one that is there
        obtain ⟨hT, hmove⟩ := hT1.grab ins hc hn ttl big (t1.crec c).uid
        have hsame : (t1.modify c fun r => { r with uid := (t1.crec c).uid }) = t1 := by
          unfold State.modify
          rw [update_eq_self]
        rw [hsame] at hT hmove
        exact ⟨_, _, rfl, .new he hR1 (.inl rfl) (by rw [hcrec]; exact hfree) hT hmove⟩
      | some p =>
        obtain ⟨e, uid⟩ := p
        obtain ⟨rfl, hre⟩ := ht e uid rfl
        obtain ⟨hT, hmove⟩ := hT1.grab ins hc hn ttl big uid
        exact ⟨_, _, rfl, .new he hR1 (.inr (hview ▸ hre)) (by rw [hcrec]; exact hfree) hT hmove⟩

theorem Threads.reallyInsert (h : Threads cfg s L ∅) (ins : Insert) (ttl : ℕ) :
    ∃ r N, reallyInsert cfg s ins ttl = some r ∧ Inserted cfg ins (ins.crec ttl) s L r N := by
  unfold Cache.reallyInsert
  by_cases he : s.insertError = true
  · rw [if_pos he]
    exact ⟨_, _, rfl, .fail (.refl h) he⟩
  rw [if_neg he]
  have he : s.insertError = false := eq_false_of_ne_true he
  by_cases httl : ttl = 0
  · rw [if_pos httl]
    exact ⟨_, _, rfl, .fail h.failed rfl⟩
  rw [if_neg httl]
  obtain ⟨s1, L1, found, target, hs1, hR1, htarget, hfound, hfree⟩ :
      ∃ s1 L1 found target, Cache.cacheScanFree cfg s ins.scanArgs = some (s1, found, target) ∧
        Reaches cfg (Shedding ins.now) s L s1 L1 ∧
        (∀ c uid, target = some (c, uid) →
          Retargeted cfg ins.scanArgs (s.view L) (s1.view L1) c uid) ∧
        (∀ c ∈ found, cfg.cachesize ≤ c ∧ L1.Hashed c ∧
          ins.scanArgs.Hits ins.scanArgs.name (s1.crec c)) ∧
        (found = none → ins.flags.forward = true → ∀ d, L1.Hashed d →
          ¬ins.scanArgs.Hits ins.scanArgs.name (s1.crec d)) := by
    cases hf : ins.flags.forward with
    | true =>
      obtain ⟨s1, L1, found, target, hs1, hR1, htarget, hfound, hnone⟩ :=
        h.scanForward ins.scanArgs hf
      refine ⟨s1, L1, found, target, hs1, hR1, htarget, fun c hc => ?_, fun hn _ d hd hhit => ?_⟩
      · obtain ⟨h1, h2, h3⟩ := hfound c hc
        exact ⟨h1, h2, h3 nofun⟩
      · have hmem := ScanArgs.Hits.bucket hR1.threads hd hhit
        rw [show s1.hashSize = s.hashSize from hR1.shed.hashSize] at hmem
        exact hnone hn nofun d hmem hhit
    | false =>
      obtain ⟨s1, L1, hs1, hR1, -⟩ := h.scanAll ins.scanArgs hf
      exact ⟨s1, L1, none, none, hs1, hR1, nofun, nofun, nofun⟩
  simp only [hs1, bind_eq_bind, bind_some]
  cases found with
  | some c =>
    obtain ⟨h1, h2, h3⟩ := hfound c rfl
    dsimp only
    split
    · rename_i hsame
      exact ⟨_, _, rfl, .found hR1 h1 h2 h3 hsame⟩
    · exact ⟨_, _, rfl,
        .fail ((hR1.mono fun _ _ => Shedding.evicting).trans hR1.threads.failed) rfl⟩
  | none =>
    cases target with
    | some p =>
      obtain ⟨c, uid⟩ := p
      have hre := htarget c uid rfl
      have hlru : c ∈ L1.lru := by
        refine (hR1.threads.pool c hre.pool (Set.notMem_empty c)).resolve_right fun hn => ?_
        obtain ⟨i, hi⟩ := hre.hashed
        have hnew : L1.new = L.new := hR1.shed.new
        exact h.notMem_new hi (hnew ▸ hn)
      exact hR1.fillIn he ttl hlru hre.free (hfree rfl) (some (c, uid)) fun e uid' heq => by
        cases heq
        exact ⟨rfl, hre⟩
    | none =>
      obtain ⟨r, hr, htaken⟩ := hR1.threads.takeTail ins ins.flags.reverse
      simp only [hr, bind_some]
      cases htaken with
      | none hR2 herr =>
        exact ⟨_, _, rfl, .fail ((hR1.mono fun _ _ => Shedding.evicting).trans hR2) herr⟩
      | @some t2 M2 c hR2 hl hn =>
        refine (hR1.trans hR2).fillIn he ttl hl hn (fun hf d hd => ?_) none nofun
        obtain ⟨hd1, hcrec⟩ := hR2.shed.hashed d hd
        rw [show t2.crec d = s1.crec d from hcrec]
        exact hfree rfl hf d hd1

end Dnsmasq.Cache
