import Dnsmasq.Cache.Sweep

/-!
Putting records into hash chains: `cache_hash`, and `rehash`, which moves every record to a
larger table.
-/
namespace Dnsmasq.Cache

open List hiding Chain
open Option Lib

variable {cfg : Config} {s s' t : State} {L L' M : Lists} {hand : Set CrecId} {i : ℕ} {c d : CrecId}

theorem advance_eq (skip : Flags → Bool) (k : ℕ) (l : List CrecId) (hk : l.length ≤ k)
    {p : Option CrecId} (h : Chain s.hashNext p l) (pre : List CrecId) :
    advance s skip k pre.getLast? p =
    some ((pre ++ l.takeWhile fun c => skip (s.crec c).flags).getLast?,
      (l.dropWhile fun c => skip (s.crec c).flags).head?) := by
  induction l generalizing k p pre with
  | nil =>
    cases h
    cases k <;> simp [advance]
  | cons a l ih =>
    obtain ⟨rfl, h⟩ := h
    obtain ⟨k, rfl⟩ : ∃ k', k = k' + 1 := ⟨k - 1, by simp at hk; omega⟩
    rw [advance]
    by_cases ha : skip (s.crec a).flags = true
    · have := ih k (by simpa using hk) h (pre ++ [a])
      have hlast : (pre ++ [a]).getLast? = some a := by simp
      rw [hlast] at this
      rw [if_pos ha, this, takeWhile_cons, dropWhile_cons, if_pos ha, if_pos ha, append_assoc]
      rfl
    · simp [ha]

theorem Threads.no_reverse_behind (h : Threads cfg s L hand) (i : ℕ) :
    ∀ b ∈ (L.chain i).dropWhile fun c => (s.crec c).flags.reverse,
      (s.crec b).flags.reverse = false := by
  have hord := h.order i
  generalize L.chain i = l at hord ⊢
  induction l with
  | nil => nofun
  | cons a l ih =>
    obtain ⟨ha, hl⟩ := pairwise_cons.mp hord
    by_cases hr : (s.crec a).flags.reverse = true
    · rw [dropWhile_cons, if_pos hr]
      exact ih hl
    rw [dropWhile_cons, if_neg hr]
    intro b hb
    rcases mem_cons.mp hb with rfl | hb
    · simpa using hr
    · by_contra hrb
      exact hr (ha b hb (by simpa using hrb))

theorem Threads.hashSplit_reverse (h : Threads cfg s L hand) (f : Flags) (i : ℕ) :
    (f.reverse = true → (hashSplit (fun d => (s.crec d).flags) f (L.chain i)).1 = []) ∧
      (f.reverse = false → ∀ b ∈ (hashSplit (fun d => (s.crec d).flags) f (L.chain i)).2,
        (s.crec b).flags.reverse = false) := by
  constructor
  · intro hr
    simp [hashSplit, hr]
  intro hr b hb
  apply h.no_reverse_behind i b
  simp only [hashSplit, hr, Bool.false_eq_true, if_false] at hb
  split at hb
  · exact dropWhile_subset _ hb
  · exact hb

theorem hashPlace_eq (h : Threads cfg s L hand) (f : Flags) (i : ℕ) :
    hashPlace s f i = some ((hashSplit (fun d => (s.crec d).flags) f (L.chain i)).1.getLast?,
      (hashSplit (fun d => (s.crec d).flags) f (L.chain i)).2.head?) := by
  have hchain := h.hash i
  have hhead : s.table i = (L.chain i).head? := hchain.head?.symm
  by_cases hr : f.reverse = true
  · simp [hashPlace, hashSplit, hr, hhead]
  have hsplit := takeWhile_append_dropWhile (p := fun c => (s.crec c).flags.reverse)
    (l := L.chain i)
  have hfirst := advance_eq Flags.reverse s.nextCrec (L.chain i) (h.chain_length i) hchain []
  simp only [hashSplit, if_neg hr]
  set front := (L.chain i).takeWhile fun c => (s.crec c).flags.reverse with hfront
  set back := (L.chain i).dropWhile fun c => (s.crec c).flags.reverse with hback
  rw [getLast?_nil] at hfirst
  by_cases hm : f.immortal = true
  · have hbackChain : Chain s.hashNext back.head? back := by
      rw [← hsplit] at hchain
      cases hb : back with
      | nil => rfl
      | cons b l =>
        rw [hb] at hchain
        exact hchain.from_cell
    have hlen : back.length ≤ s.nextCrec := by
      have := h.chain_length i
      rw [← hsplit, length_append] at this
      omega
    have hsecond := advance_eq (fun g => !g.immortal) s.nextCrec back hlen hbackChain front
    rw [hashPlace, if_neg hr, hfirst]
    simp only [bind_eq_bind, bind_some, hm, if_true]
    exact hsecond
  · rw [hashPlace, if_neg hr, hfirst]
    simp [hm]

/-- `L'` is `L` with the records of `R` put into chains, and nothing else has changed. -/
structure HashedIn (cfg : Config) (s : State) (L : Lists) (s' : State) (L' : Lists)
    (R : List CrecId) : Prop where
  frame : s' = { s with hashNext := s'.hashNext, table := s'.table }
  lists : L' = { L with chain := L'.chain }
  hashed : ∀ d, L'.Hashed d ↔ d ∈ R ∨ L.Hashed d
  links : ∀ d, d ∉ R → ¬L.Hashed d → s'.hashNext d = s.hashNext d

theorem HashedIn.crec {R : List CrecId} (h : HashedIn cfg s L s' L' R) : s'.crec = s.crec := by
  rw [h.frame]

theorem HashedIn.bucketOf {R : List CrecId} (h : HashedIn cfg s L s' L' R) (c : CrecId) :
    bucketOf cfg s' c = bucketOf cfg s c := by
  rw [h.frame]
  rfl

theorem cacheHash_eq (h : Threads cfg s L hand) (c : CrecId) : cacheHash cfg s c = some ({ s with
      hashNext := Function.update s.hashNext c
        (hashSplit (fun d => (s.crec d).flags)
          (s.crec c).flags (L.chain (bucketOf cfg s c))).2.head? }.store
      (bucketOf cfg s c)
      (hashSplit (fun d => (s.crec d).flags)
        (s.crec c).flags (L.chain (bucketOf cfg s c))).1.getLast? (some c)) := by
  have hplace := hashPlace_eq h (s.crec c).flags (bucketOf cfg s c)
  unfold Cache.cacheHash
  rw [bucketOf] at hplace
  simp only [hplace, bind_eq_bind, bind_some]
  rfl

theorem Threads.cacheHash (h : Threads cfg s L hand) (hhand : c ∈ hand) (hc : ¬L.Hashed c)
    (hok : Hashable cfg (s.crec c) c) :
    ∃ s' L', cacheHash cfg s c = some s' ∧ Threads cfg s' L' hand ∧
      s'.view L' = (s.view L).hash cfg c ∧ HashedIn cfg s L s' L' [c] ∧
      c ∈ L'.chain (bucketOf cfg s c) := by
  have heq := cacheHash_eq h c
  obtain ⟨hrev, hrest⟩ := h.hashSplit_reverse (s.crec c).flags (bucketOf cfg s c)
  have hi :=
    (hashSplit_append (fun d => (s.crec d).flags)
      (s.crec c).flags (L.chain (bucketOf cfg s c))).symm
  have hview : (s.view L).hash cfg c = s.view (L.setChain (bucketOf cfg s c)
    ((hashSplit (fun d => (s.crec d).flags) (s.crec c).flags (L.chain (bucketOf cfg s c))).1 ++
      c :: (hashSplit (fun d => (s.crec d).flags)
        (s.crec c).flags (L.chain (bucketOf cfg s c))).2)) := rfl
  rw [hview]
  generalize hashSplit (fun d => (s.crec d).flags) (s.crec c).flags (L.chain (bucketOf cfg s c)) =
    parts at *
  obtain ⟨pre, rest⟩ := parts
  dsimp only at heq hrev hrest hi
  refine ⟨_, _, heq, h.hashAt hhand hc hok rfl hi (fun hr => by simp [hrev hr]) hrest, rfl,
    ⟨rfl, rfl, fun d => ?_, fun d hd hnot => ?_⟩, ?_⟩
  · constructor
    · rintro ⟨j, hj⟩
      by_cases e : j = bucketOf cfg s c
      · subst e
        rw [setChain_self] at hj
        rcases mem_append.mp hj with hj | hj
        · exact .inr ⟨_, hi ▸ mem_append_left rest hj⟩
        · refine (mem_cons.mp hj).imp mem_singleton.mpr fun hj => ?_
          exact ⟨_, hi ▸ mem_append_right pre hj⟩
      · rw [setChain_of_ne L e] at hj
        exact .inr ⟨j, hj⟩
    rintro (hd | ⟨j, hj⟩)
    · refine ⟨bucketOf cfg s c, ?_⟩
      rw [setChain_self, mem_singleton.mp hd]
      simp
    refine ⟨j, ?_⟩
    by_cases e : j = bucketOf cfg s c
    · subst e
      rw [hi] at hj
      rw [setChain_self]
      exact List.Sublist.subset (sublist_cons_self c rest |>.append_left pre) hj
    · rwa [setChain_of_ne L e]
  · have hpre : pre.getLast? ≠ some d := getLast?_ne_of_notMem fun hm =>
      hnot ⟨_, hi ▸ mem_append_left rest hm⟩
    exact (linkSet_of_ne hpre _).trans
      (Function.update_of_ne (fun e => hd (mem_singleton.mpr e)) _ _)
  · rw [setChain_self]
    simp

theorem HashedIn.trans {R R' : List CrecId} (h : HashedIn cfg s L t M R)
    (h' : HashedIn cfg t M s' L' R') : HashedIn cfg s L s' L' (R ++ R') where
  frame := by
    rw [h'.frame, h.frame]
  lists := by
    rw [h'.lists, h.lists]
  hashed d := by
    rw [h'.hashed, h.hashed, mem_append]
    tauto
  links d hd hnot := by
    rw [mem_append, not_or] at hd
    refine (h'.links d hd.2 fun hM => ?_).trans (h.links d hd.1 hnot)
    exact ((h.hashed d).mp hM).elim hd.1 hnot

theorem HashedIn.refl (cfg : Config) (s : State) (L : Lists) : HashedIn cfg s L s L [] :=
  ⟨rfl, rfl, fun d => by simp, fun _ _ _ => rfl⟩

theorem Threads.rehashChain (k : ℕ) (rest : List CrecId) (hk : rest.length ≤ k) {p : Option CrecId}
    (h : Threads cfg t M hand) (hp : Chain t.hashNext p rest) (hhand : ∀ c ∈ rest, c ∈ hand)
    (hnot : ∀ c ∈ rest, ¬M.Hashed c) (hok : ∀ c ∈ rest, Hashable cfg (t.crec c) c)
    (hlru : ∀ c ∈ rest, c < cfg.cachesize → c ∈ M.lru) :
    ∃ t' M', rehashChain cfg k t p = some t' ∧ Threads cfg t' M' (hand \ {c | c ∈ rest}) ∧
      HashedIn cfg t M t' M' rest ∧ ((t.view M).Ordered → (t'.view M').Ordered) := by
  induction rest generalizing k p t M hand with
  | nil =>
    cases hp
    have hset : hand \ {c | c ∈ ([] : List CrecId)} = hand := by simp
    exact ⟨t, M, by cases k <;> rfl, hset.symm ▸ h, HashedIn.refl cfg t M, id⟩
  | cons a rest ih =>
    obtain ⟨rfl, htail⟩ := id hp
    obtain ⟨k, rfl⟩ : ∃ k', k = k' + 1 := ⟨k - 1, by simp at hk; omega⟩
    obtain ⟨t1, M1, ht1, h1, hview, hin, hmem⟩ := h.cacheHash (hhand a mem_cons_self)
      (hnot a mem_cons_self) (hok a mem_cons_self)
    have hne : ∀ c ∈ rest, c ≠ a := fun c hc e => hp.not_mem_of_cons (e ▸ hc)
    have h2 := h1.putBack (c := a) (fun hlt => by rw [hin.lists]; exact hlru a mem_cons_self hlt)
      fun _ _ => by rw [hin.bucketOf]; exact hmem
    obtain ⟨t', M', ht', h', hin', hord'⟩ := ih k (by simpa using hk) h2
      (htail.congr fun c hc => hin.links c (by simpa using hne c hc)
        (hnot c (mem_cons_of_mem a hc)))
      (fun c hc => ⟨hhand c (mem_cons_of_mem a hc), hne c hc⟩)
      (fun c hc hM => ((hin.hashed c).mp hM).elim (fun e => hne c hc (mem_singleton.mp e))
        (hnot c (mem_cons_of_mem a hc)))
      (fun c hc => by rw [hin.crec]; exact hok c (mem_cons_of_mem a hc))
      (fun c hc => by rw [hin.lists]; exact hlru c (mem_cons_of_mem a hc))
    refine ⟨t', M', ?_, ?_, hin.trans hin', fun hord => hord' (hview ▸ hord.hash cfg a)⟩
    · rw [Cache.rehashChain]
      simp only [ht1, bind_eq_bind, bind_some]
      exact ht'
    have hset : hand \ {c | c ∈ a :: rest} = (hand \ {a}) \ {c | c ∈ rest} := by
      ext c
      simp only [Set.mem_sdiff, Set.mem_ofPred_eq, mem_cons, Set.mem_singleton_iff]
      tauto
    rw [hset]
    exact h'

theorem le_doubleTo (size k n : ℕ) : n ≤ doubleTo size k n := by
  induction k generalizing n with
  | zero => exact le_rfl
  | succ k ih =>
    rw [doubleTo]
    split
    · exact (by omega : n ≤ 2 * n).trans (ih (2 * n))
    · exact le_rfl

theorem Threads.moveAll (h : Threads cfg s L ∅) {size : ℕ} (hsize : 0 < size) (allocs : ℕ) :
    ∃ s' L', (List.range s.hashSize).foldlM (fun t i =>
      Cache.rehashChain cfg s.nextCrec t (s.table i))
        { s with table := fun _ => none, hashSize := size, allocs := allocs } = some s' ∧
      Reaches cfg (fun a _ => a = .rehash) s L s' L' := by
  set new : State :=
    { s with table := fun _ => none, hashSize := size, allocs := allocs } with hnewdef
  set bare : Lists := { L with chain := fun _ => [] } with hbare
  have hbareNot : ∀ c, ¬bare.Hashed c := fun c ⟨j, hj⟩ => not_mem_nil hj
  have hstart : Threads cfg new bare {c | L.Hashed c} :=
    { h with
      hash := fun _ => rfl
      size := hsize
      held := fun c ⟨i, hc⟩ => ⟨h.unhashed_lt hc, h.notMem_new hc⟩
      pool := fun c hc _ => h.pool c hc (Set.notMem_empty c)
      sparePlace := fun c hc => ⟨(h.sparePlace c hc).1, (h.sparePlace c hc).2.1,
        (h.sparePlace c hc).2.2.2, hbareNot c⟩
      place := fun i c hc => absurd hc not_mem_nil
      hashed := fun c hc hnot hu => absurd ⟨_, h.hashed c hc (Set.notMem_empty c) hu⟩ hnot
      order := fun _ => List.Pairwise.nil }
  -- the chains from `n` on are still in their old state
  let J : ℕ → State → Prop := fun n t => ∃ M R, Threads cfg t M {c | ∃ j, n ≤ j ∧ c ∈ L.chain j} ∧
    HashedIn cfg new bare t M R ∧ (∀ c, c ∈ R ↔ ∃ j < n, c ∈ L.chain j) ∧ (t.view M).Ordered
  have hstep : ∀ n < s.hashSize, ∀ t, J n t →
      ∃ t', Cache.rehashChain cfg s.nextCrec t (s.table n) = some t' ∧ J (n + 1) t' := by
    rintro n - t ⟨M, R, hM, hin, hR, hord⟩
    have hRn : ∀ j, n ≤ j → ∀ c ∈ L.chain j, c ∉ R := fun j hj c hc hm => by
      obtain ⟨j', hj', hc'⟩ := (hR c).mp hm
      have := h.chain_unique hc hc'
      omega
    have hnotM : ∀ c ∈ L.chain n, ¬M.Hashed c := fun c hc hm =>
      ((hin.hashed c).mp hm).elim (hRn n le_rfl c hc) (hbareNot c)
    obtain ⟨t', M', ht', hT', hin', hord'⟩ :=
      hM.rehashChain s.nextCrec (L.chain n) (h.chain_length n)
      ((h.hash n).congr fun c hc => hin.links c (hRn n le_rfl c hc) (hbareNot c))
      (fun c hc => ⟨n, le_rfl, hc⟩) hnotM
      (fun c hc => by rw [hin.crec]; exact (h.place n c hc).2.2.1)
      (fun c hc hlt => by rw [hin.lists]; exact (h.place n c hc).2.2.2 hlt (Set.notMem_empty c))
    refine ⟨t', ht', M', R ++ L.chain n, ?_, hin.trans hin', fun c => ?_, hord' hord⟩
    · have hset : {c | ∃ j, n + 1 ≤ j ∧ c ∈ L.chain j} =
          {c | ∃ j, n ≤ j ∧ c ∈ L.chain j} \ {c | c ∈ L.chain n} := by
        ext c
        constructor
        · rintro ⟨j, hj, hc⟩
          refine ⟨⟨j, by omega, hc⟩, fun hn => ?_⟩
          have := h.chain_unique hc hn
          omega
        rintro ⟨⟨j, hj, hc⟩, hn⟩
        refine ⟨j, Nat.lt_of_le_of_ne hj ?_, hc⟩
        rintro rfl
        exact hn hc
      rw [hset]
      exact hT'
    rw [mem_append, hR]
    constructor
    · rintro (⟨j, hj, hc⟩ | hc)
      · exact ⟨j, by omega, hc⟩
      · exact ⟨n, by omega, hc⟩
    rintro ⟨j, hj, hc⟩
    rcases Nat.lt_succ_iff_lt_or_eq.mp hj with hj | rfl
    · exact .inl ⟨j, hj, hc⟩
    · exact .inr hc
  have hJ0 : J 0 new := by
    refine ⟨bare, [], ?_, HashedIn.refl cfg new bare, fun c => by simp, fun _ => List.Pairwise.nil⟩
    have hset : {c | ∃ j, 0 ≤ j ∧ c ∈ L.chain j} = {c | L.Hashed c} := by
      simp [Lists.Hashed]
    rw [hset]
    exact hstart
  obtain ⟨s', hs', M, R, hM, hin, hR, hord⟩ := foldlM_range_some hstep hJ0
  -- no chain has a number beyond the size of the table
  have hlt : ∀ {j c}, c ∈ L.chain j → j < s.hashSize := fun {j c} hc =>
    (h.place j c hc).1 ▸ hashBucket_lt cfg h.size _
  have hempty : {c | ∃ j, s.hashSize ≤ j ∧ c ∈ L.chain j} = (∅ : Set CrecId) := by
    ext c
    simp only [Set.mem_ofPred_eq, Set.mem_empty_iff_false, iff_false, not_exists, not_and]
    exact fun j hj hc => absurd (hlt hc) (not_lt.mpr hj)
  rw [hempty] at hM
  have hview : s'.view M = { s.view L with hashSize := size, chain := M.chain } := by
    rw [hin.frame, hin.lists]
    rfl
  refine ⟨s', M, hs', hM, ?_⟩
  rw [hview] at hord ⊢
  refine (Move.rehash (fun c => ?_) hord).moves rfl
  change L.Hashed c ↔ M.Hashed c
  rw [hin.hashed, hR]
  constructor
  · rintro ⟨j, hc⟩
    exact .inl ⟨j, hlt hc, hc⟩
  · rintro (⟨j, -, hc⟩ | hc)
    · exact ⟨j, hc⟩
    · exact absurd hc (hbareNot c)

theorem Threads.rehash (h : Threads cfg s L ∅) (size : ℕ) :
    ∃ s' L', rehash cfg s size = some s' ∧ Reaches cfg (fun a _ => a = .rehash) s L s' L' := by
  unfold Cache.rehash
  rw [if_neg h.size.ne']
  split
  · exact ⟨s, L, rfl, .refl h⟩
  · split
    · exact ⟨_, L, rfl, .of_view (h.congr rfl rfl rfl rfl rfl rfl rfl rfl) rfl⟩
    · exact h.moveAll ((by decide : 0 < 64).trans_le (le_doubleTo _ _ _)) _

end Dnsmasq.Cache
