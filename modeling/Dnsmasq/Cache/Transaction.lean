import Dnsmasq.Cache.Insert

/-!
The insertion transactions: `cache_start_insert`, calls of `cache_insert` with CNAMEs that are made
to point at what they return, and `cache_end_insert`.
-/
namespace Dnsmasq.Cache

open List Option Lib

variable {cfg : Config} {s s' t : State} {L L' M : Lists} {c d : CrecId} {ins : Insert}

section

variable (ins : Insert) (ttl : ℕ) (big : Bool) (uid : ℕ) (r : Crec)

/-- The record of a new entry once the caller has initialised the target of a CNAME. -/
def Insert.entry : Crec :=
  if ins.flags.cname then { ins.crec ttl big uid r with target := none, isNamePtr := false }
  else ins.crec ttl big uid r

theorem Insert.entry_flags :
    (ins.entry ttl big uid r).flags = { ins.flags with bigname := ins.flags.bigname || big } := by
  unfold Insert.entry
  split <;> rfl

end

theorem not_sameEntry_of_cname {r : Crec} (h : ins.flags.cname = true) :
    sameEntry r ins = false := by
  have hup := ins.upstream
  simp only [Flags.upstream, h, Bool.true_or, Bool.true_and, Bool.and_eq_true, Bool.not_eq_true',
    Bool.or_eq_false_iff] at hup
  simp [sameEntry, hup.1.2]

theorem Move.grab_modify {v : View} {r : Crec} (h : Move cfg v (.grab c r) (t.view L))
    (u : Crec → Crec) (hu : (u r).flags = r.flags) :
    Move cfg v (.grab c (u r)) ((t.modify c u).view L) := by
  have hview : (t.modify c u).view L = (t.view L).setCrec c (u ((t.view L).crec c)) := rfl
  rw [hview]
  generalize t.view L = w at h
  cases h with
  | grab hl hn hnew hr =>
    have hself : (v.setCrec c r).crec c = r := View.setCrec_self _ _ _
    have heq : View.setCrec { v.setCrec c r with lru := v.lru.erase c, new := c :: v.new } c (u r) =
        { v.setCrec c (u r) with lru := v.lru.erase c, new := c :: v.new } := by
      simp only [View.setCrec, Function.update_idem]
    rw [hself, heq]
    exact Move.grab hl hn hnew (hu ▸ hr)

theorem Move.mem_new_of_grab {v w : View} {r : Crec} (h : Move cfg v (.grab c r) w) :
    c ∈ w.new := by
  cases h
  exact mem_cons_self

theorem Threads.cacheInsert (h : Threads cfg s L ∅) (ins : Insert) :
    ∃ r N, cacheInsert cfg s ins = some r ∧
      Inserted cfg ins (ins.entry (cfg.ttl ins.flags ins.ttl)) s L r N := by
  obtain ⟨r, N, hr, hins⟩ := h.reallyInsert ins (cfg.ttl ins.flags ins.ttl)
  unfold Cache.cacheInsert
  simp only [hr, bind_eq_bind, bind_some]
  cases hins with
  | fail hR he => exact ⟨_, _, rfl, .fail hR he⟩
  | found hR hle hc hhit hsame =>
    dsimp only
    by_cases hcn : ins.flags.cname = true
    · rw [not_sameEntry_of_cname hcn] at hsame
      cases hsame
    · rw [if_neg hcn]
      exact ⟨_, _, rfl, .found hR hle hc hhit hsame⟩
  | @new u t M N c big uid he hR huid hfree hT hmove =>
    dsimp only
    by_cases hcn : ins.flags.cname = true
    · rw [if_pos hcn]
      have hmove' := hmove.grab_modify (fun r => { r with target := none, isNamePtr := false }) rfl
      have hentry : ins.entry (cfg.ttl ins.flags ins.ttl) big uid (u.crec c) =
          { ins.crec (cfg.ttl ins.flags ins.ttl) big uid (u.crec c) with
            target := none, isNamePtr := false } :=
        if_pos hcn
      have hpool : c < cfg.cachesize := (hT.newPool c hmove.mem_new_of_grab).1
      exact ⟨_, _, rfl, .new he hR huid hfree
        (hT.modify_inert rfl (.inl rfl) fun hle => absurd hpool (not_lt.mpr hle)) (hentry ▸ hmove')⟩
    rw [if_neg hcn]
    have hentry : ins.entry (cfg.ttl ins.flags ins.ttl) big uid (u.crec c) =
        ins.crec (cfg.ttl ins.flags ins.ttl) big uid (u.crec c) := if_neg hcn
    exact ⟨_, _, rfl, .new he hR huid hfree hT (hentry ▸ hmove)⟩

theorem nextUid_view (s : State) (L : Lists) (c : CrecId) :
    (nextUid s c).view L = (s.view L).nextUid c := by
  unfold nextUid View.nextUid
  by_cases h : (s.crec c).uid = uidNone
  · rw [if_pos h, if_pos (show ((s.view L).crec c).uid = uidNone from h)]
    rfl
  · rw [if_neg h, if_neg (show ¬((s.view L).crec c).uid = uidNone from h)]

theorem Threads.nextUid (h : Threads cfg s L ∅) (c : CrecId) : Threads cfg (nextUid s c) L ∅ := by
  unfold Cache.nextUid
  split
  · refine Threads.modify_inert ?_ rfl (.inl rfl) fun _ => rfl
    exact h.congr rfl rfl rfl rfl rfl rfl rfl rfl
  · exact h

theorem Threads.linkCname (h : Threads cfg s L ∅) (cpp newc : CrecId) :
    Reaches cfg (fun a _ => a = .link cpp newc) s L (linkCname s cpp newc) L := by
  constructor
  · unfold Cache.linkCname
    refine Threads.modify_inert ?_ rfl (.inl rfl) fun _ => rfl
    exact h.nextUid newc
  have hview : (Cache.linkCname s cpp newc).view L = ((Cache.nextUid s newc).view L).setCrec cpp
      { ((Cache.nextUid s newc).view L).crec cpp with
        target := some newc, targetUid := (((Cache.nextUid s newc).view L).crec newc).uid } := rfl
  rw [hview, nextUid_view]
  exact (Move.link cpp newc).moves rfl

section

variable (h : Threads cfg s L ∅)
include h

theorem Threads.new_length : L.new.length ≤ s.nextCrec := by
  rw [← toFinset_card_of_nodup h.new.nodup, ← Finset.card_range s.nextCrec]
  refine Finset.card_le_card fun c hc => ?_
  exact Finset.mem_range.mpr ((h.newPool c (mem_toFinset.mp hc)).1.trans_le h.bound)

theorem Threads.new_place (hc : c ∈ L.new) : c < cfg.cachesize ∧ c ∉ L.lru ∧ ¬L.Hashed c :=
  ⟨(h.newPool c hc).1, fun hl => h.apart c hl hc, fun ⟨_, hi⟩ => h.notMem_new hi hc⟩

theorem Threads.dropNew {new : List CrecId} (hn : L.new = c :: new) :
    Threads cfg { cacheFree s c with newChain := s.next c }
    { L with lru := L.lru ++ [c], new := new } ∅ ∧
      Move cfg (s.view L) (.dropNew c)
        (State.view { cacheFree s c with newChain := s.next c }
          { L with lru := L.lru ++ [c], new := new }) := by
  obtain ⟨hp, hlru, hhash⟩ := h.new_place (hn ▸ mem_cons_self : c ∈ L.new)
  have hnew : c ∉ new := by
    have := h.new
    rw [hn] at this
    exact this.not_mem_of_cons
  exact ⟨(h.popNew hn).free hp hlru hhash, Move.dropNew (v := s.view L) hn hnew hhash⟩

theorem Threads.newChain_eq_none (hn : L.new = []) : s.newChain = none := by
  have hnew := h.new
  rwa [hn] at hnew

theorem Threads.newChain_eq_some {new : List CrecId} (hn : L.new = c :: new) :
    s.newChain = some c := by
  have hnew := h.new
  rw [hn] at hnew
  exact hnew.1

end

theorem Threads.freeNewChain (k : ℕ) (h : Threads cfg s L ∅) (hk : L.new.length ≤ k) :
    ∃ s' L', freeNewChain k s = some s' ∧ Reaches cfg (fun a _ => ∃ c, a = .dropNew c) s L s' L' ∧
      L'.new = [] := by
  induction k generalizing s L with
  | zero =>
    have hnil := length_eq_zero_iff.mp (Nat.le_zero.mp hk)
    exact ⟨s, L, by simp [Cache.freeNewChain, h.newChain_eq_none hnil], .refl h, hnil⟩
  | succ k ih =>
    cases hn : L.new with
    | nil => exact ⟨s, L, by simp [Cache.freeNewChain, h.newChain_eq_none hn], .refl h, hn⟩
    | cons c new =>
      obtain ⟨hT, hm⟩ := h.dropNew hn
      obtain ⟨s', L', hs', hR, hnil⟩ := ih hT (by simpa [hn] using hk)
      refine ⟨s', L', ?_, ⟨hR.threads, (hm.moves ⟨c, rfl⟩).trans hR.moves⟩, hnil⟩
      unfold Cache.freeNewChain
      simp only [h.newChain_eq_some hn]
      exact hs'

/-- What has not been committed is freed, and nothing has gone wrong yet. -/
theorem Threads.cacheStartInsert (h : Threads cfg s L ∅) : ∃ s' L', cacheStartInsert s = some s' ∧
      Reaches cfg (fun a _ => (∃ c, a = .dropNew c) ∨ a = .reset) s L s' L' ∧ L'.new = [] ∧
      s'.insertError = false := by
  obtain ⟨s1, L1, hs1, hR, hnil⟩ := h.freeNewChain s.nextCrec h.new_length
  refine ⟨{ s1 with insertError := false },
    L1, by simp [Cache.cacheStartInsert, hs1], ?_, hnil, rfl⟩
  refine (hR.mono fun a _ ha => .inl ha).trans ⟨?_, (Move.reset (v := s1.view L1)).moves (.inr rfl)⟩
  exact hR.threads.congr rfl rfl rfl rfl rfl rfl rfl rfl

/-- `is_outdated_cname_pointer` -/
def View.outdated (v : View) (c : CrecId) : Bool :=
  let r := v.crec c
  if !r.flags.cname || r.isNamePtr then false
  else
    match r.target with
    | none => true
    | some t => (v.crec t).flags.dnssec || !decide (r.targetUid = (v.crec t).uid)

/-- CNAMEs without a target are dropped, all other entries hashed. -/
def Committing : Action → View → Prop
  | .dropNew c, v => v.outdated c = true
  | .commit c, v => v.outdated c = false
  | _, _ => False

theorem Threads.commit (h : Threads cfg s L ∅) {new : List CrecId} (hn : L.new = c :: new) :
    ∃ s' L', Cache.cacheHash cfg s c = some s' ∧
      Threads cfg { cacheLink s' c with newChain := s.next c } L' ∅ ∧ L'.new = new ∧
      Move cfg (s.view L) (.commit c)
      (State.view { cacheLink s' c with newChain := s.next c } L') := by
  have hmem : c ∈ L.new := hn ▸ mem_cons_self
  obtain ⟨hp, hlru, hhash⟩ := h.new_place hmem
  have hnew : c ∉ new := by
    have := h.new
    rw [hn] at this
    exact this.not_mem_of_cons
  have hok : Hashable cfg (s.crec c) c :=
    ⟨fun _ => (h.newPool c hmem).2, fun hle => absurd hp (not_lt.mpr hle)⟩
  have hT := h.popNew hn
  obtain ⟨t, M, ht, hT1, hview, hin, hbucket⟩ := hT.cacheHash rfl hhash hok
  obtain ⟨s', hs', rfl⟩ : ∃ s', Cache.cacheHash cfg s c = some s' ∧
      t = { s' with newChain := s.next c } := by
    refine ⟨_, cacheHash_eq h c, ?_⟩
    rw [cacheHash_eq hT c] at ht
    exact (Option.some.inj ht).symm
  have hlru' : M.lru = L.lru := by rw [hin.lists]
  have hT2 := (hT1.link hp (by rw [hlru']; exact hlru)).putDown (fun _ => mem_cons_self)
    fun _ _ => by
    have hb : bucketOf cfg (cacheLink { s' with newChain := s.next c } c) c = bucketOf cfg s c :=
      hin.bucketOf c
    rw [hb]
    exact hbucket
  refine ⟨s', _, hs', hT2, ?_, ?_⟩
  · rw [hin.lists]
  have hv : State.view { cacheLink s' c with newChain := s.next c } { M with lru := c :: M.lru } =
      { (s.view L).hash cfg c with lru := c :: L.lru, new := new } := by
    have : State.view { cacheLink s' c with newChain := s.next c } { M with lru := c :: M.lru } =
        { State.view { s' with newChain := s.next c } M with lru := c :: M.lru } := rfl
    rw [this, hview, hlru']
    rfl
  rw [hv]
  exact Move.commit (v := s.view L) hn hnew hhash hp

theorem Threads.commitNewChain (k : ℕ) (h : Threads cfg s L ∅) (hk : L.new.length ≤ k) :
    ∃ s' L', commitNewChain cfg k s = some s' ∧ Reaches cfg Committing s L s' L' ∧ L'.new = [] := by
  induction k generalizing s L with
  | zero =>
    have hnil := length_eq_zero_iff.mp (Nat.le_zero.mp hk)
    exact ⟨s, L, by simp [Cache.commitNewChain, h.newChain_eq_none hnil], .refl h, hnil⟩
  | succ k ih =>
    cases hn : L.new with
    | nil => exact ⟨s, L, by simp [Cache.commitNewChain, h.newChain_eq_none hn], .refl h, hn⟩
    | cons c new =>
      have hlen : new.length ≤ k := by simpa [hn] using hk
      unfold Cache.commitNewChain
      simp only [h.newChain_eq_some hn]
      cases hout : isOutdatedCnamePointer s c with
      | true =>
        obtain ⟨hT, hm⟩ := h.dropNew hn
        obtain ⟨s', L', hs', hR, hnil⟩ := ih hT hlen
        exact ⟨s', L', hs', ⟨hR.threads, (hm.moves hout).trans hR.moves⟩, hnil⟩
      | false =>
        obtain ⟨t, M, ht, hT, hnew, hm⟩ := h.commit hn
        obtain ⟨s', L', hs', hR, hnil⟩ := ih hT (hnew ▸ hlen)
        refine ⟨s', L', ?_, ⟨hR.threads, (hm.moves hout).trans hR.moves⟩, hnil⟩
        simp only [ht, bind_eq_bind, bind_some, Bool.false_eq_true, if_false]
        exact hs'

theorem Threads.cacheEndInsert (h : Threads cfg s L ∅) :
    ∃ s' L', cacheEndInsert cfg s = some s' ∧ Reaches cfg Committing s L s' L' ∧
      (s.insertError = true ∧ s' = s ∧ L' = L ∨ s.insertError = false ∧ L'.new = []) := by
  unfold Cache.cacheEndInsert
  cases he : s.insertError with
  | true => exact ⟨s, L, rfl, .refl h, .inl ⟨rfl, rfl, rfl⟩⟩
  | false =>
    obtain ⟨s', L', hs', hR, hnil⟩ := h.commitNewChain s.nextCrec h.new_length
    exact ⟨s', L', hs', hR, .inr ⟨rfl, hnil⟩⟩

end Dnsmasq.Cache
