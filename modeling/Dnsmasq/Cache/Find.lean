import Dnsmasq.Cache.Search

/-!
What a look-up finds, and `cache_find_by_addr`. A look-up frees what has expired and brings what it
finds to the front of the LRU list.
-/
namespace Dnsmasq.Cache

open List hiding Chain
open Option Lib Function

variable {cfg : Config} {s s' t : State} {L L' M : Lists} {i : ℕ} {c d : CrecId}
  {pre rest : List CrecId} {a : Answers} {stats : List CrecId} {q : CString → Prop}

/-- The answers so far; whatever comes next will be linked behind them. -/
structure Pending (s : State) (a : Answers) (stats : List CrecId) : Prop where
  last : a.last = stats.getLast?
  segment : ∀ q, Segment (a.put s q).1.next (a.put s q).2.ans stats q

theorem Pending.nil (s : State) : Pending s {} [] := ⟨rfl, fun _ => rfl⟩

theorem Pending.congr (h : Pending s a stats) (hn : ∀ x ∈ stats, s'.next x = s.next x) :
    Pending s' a stats := by
  refine ⟨h.last, fun q => ?_⟩
  have hseg := h.segment q
  unfold Answers.put at hseg ⊢
  cases hl : a.last with
  | none =>
    rw [hl] at hseg
    exact hseg.congr hn
  | some l =>
    rw [hl] at hseg
    refine hseg.congr fun x hx => ?_
    by_cases e : x = l
    · subst e
      simp
    · simp [e, hn x hx]

theorem Pending.concat (h : Pending s a stats) (hc : c ∉ stats) :
    Pending (a.put s (some c)).1 { (a.put s (some c)).2 with last := some c } (stats ++ [c]) := by
  refine ⟨by simp, fun q => ?_⟩
  have hseg := h.segment (some c)
  have hlast : Segment (update (a.put s (some c)).1.next c q)
      (a.put s (some c)).2.ans stats (some c) :=
    hseg.congr fun x hx => update_of_ne (ne_of_mem_of_not_mem hx hc) _ _
  have hmore := hlast.concat
  rwa [update_self] at hmore

theorem put_frame (a : Answers) (s : State) (p : Option CrecId) :
    (a.put s p).1 = { s with next := (a.put s p).1.next } := by
  unfold Answers.put
  split <;> rfl

theorem put_next_of_ne (a : Answers) (s : State) (p : Option CrecId) {x : CrecId}
    (hx : a.last ≠ some x) : (a.put s p).1.next x = s.next x := by
  unfold Answers.put
  split
  · rfl
  · rename_i l hl
    exact update_of_ne (fun e => hx (hl.trans (congrArg some e.symm))) _ _

theorem Threads.put (h : Threads cfg s L ∅) (ha : ∀ l, a.last = some l →
    cfg.cachesize ≤ l ∧ L.Hashed l) (p : Option CrecId) : Threads cfg (a.put s p).1 L ∅ := by
  unfold Answers.put
  split
  · exact h
  rename_i l hl
  obtain ⟨hle, j, hj⟩ := ha l hl
  exact h.setNext (fun hm => absurd (h.lruPool l hm) (not_lt.mpr hle))
    (fun hm => absurd (h.newPool l hm).1 (not_lt.mpr hle)) (h.notMem_spare hj) p

theorem touch_next (h : Threads cfg s L ∅) (hc : c ∈ L.lru) {x : CrecId} (hx : x ∉ L.lru) :
    (touch s c).next x = s.next x :=
  (DLinks.pushFront_next fun (e : x = c) => hx (e ▸ hc)).trans (h.lru.remove_next hc hx)

theorem discard_next (h : Threads cfg s L ∅) (hi : L.chain i = pre ++ c :: rest) {x : CrecId}
    (hx : x ∉ L.lru) : (discard (s.store i pre.getLast? (s.hashNext c)) c).next x = s.next x := by
  have hplace := h.place i c (by simp [hi])
  by_cases hs : (s.crec c).flags.isStatic = true
  · rw [discard,
      if_pos (show ((s.store i pre.getLast? (s.hashNext c)).crec c).flags.isStatic = true from hs)]
    rfl
  have hc : c ∈ L.lru := hplace.2.2.2 (not_le.mp fun hle => hs (hplace.2.2.1.static_iff.mpr hle))
    (Set.notMem_empty c)
  have hs' : ((s.store i pre.getLast? (s.hashNext c)).crec c).flags.isStatic = false :=
    eq_false_of_ne_true hs
  rw [discard_eq_release hs']
  have hlru : x ∉ L.lru.erase c := fun hm => hx (mem_of_mem_erase hm)
  exact ((h.lru.remove hc).pushBack_next hlru fun (e : x = c) => hx (e ▸ hc)).trans
    (h.lru.remove_next hc hx)

/-- Of the records in `seen` those that are hits and not of the pool are linked, and the hits
of the pool are at the front of the LRU list. -/
structure Answered (cfg : Config) (hit : Crec → Bool) (s : State) (a : Answers) (L : Lists)
    (seen : CrecId → Prop) : Prop where
  linked : ∃ stats, Pending s a stats ∧ ∀ d, d ∈ stats ↔ seen d ∧ cfg.cachesize ≤ d ∧
    hit (s.crec d) = true
  touched : ∃ front back, L.lru = front ++ back ∧
    ∀ d, d ∈ front ↔ seen d ∧ d < cfg.cachesize ∧ hit (s.crec d) = true
  hashed : ∀ d, seen d → L.Hashed d

variable {hit : Crec → Bool} {seen : CrecId → Prop} {now : ℤ}

theorem Answered.start (cfg : Config) (hit : Crec → Bool) (s : State) (L : Lists) :
    Answered cfg hit s {} L fun _ => False where
  linked := ⟨[], Pending.nil s, by simp⟩
  touched := ⟨[], L.lru, rfl, by simp⟩
  hashed _ hd := absurd hd id

section

variable (h : Answered cfg hit s a L seen)
include h

theorem Answered.last {l : CrecId} (hl : a.last = some l) : cfg.cachesize ≤ l ∧ L.Hashed l := by
  obtain ⟨stats, hp, hs⟩ := h.linked
  rw [hp.last] at hl
  obtain ⟨hseen, hle, -⟩ := (hs l).mp (mem_of_getLast? hl)
  exact ⟨hle, h.hashed l hseen⟩

theorem Answered.congr {seen' : CrecId → Prop}
    (hnext : ∀ d, seen d → cfg.cachesize ≤ d → s'.next d = s.next d) (hcrec : ∀ d, seen d →
      s'.crec d = s.crec d)
    (hlru : ∀ front back, L.lru = front ++ back → (∀ d ∈ front, seen d) →
      ∃ back', L'.lru = front ++ back')
    (hseen : ∀ d, seen' d ∧ hit (s'.crec d) = true ↔ seen d ∧ hit (s'.crec d) = true)
    (hhashed : ∀ d, seen' d → L'.Hashed d) : Answered cfg hit s' a L' seen' := by
  have hiff : ∀ d (Q : Prop), seen' d ∧ Q ∧ hit (s'.crec d) = true ↔ seen d ∧ Q ∧
      hit (s.crec d) = true := by
    intro d Q
    have h1 := hseen d
    have h2 := hcrec d
    constructor
    · rintro ⟨hd, hQ, hh⟩
      have hd' := (h1.mp ⟨hd, hh⟩).1
      exact ⟨hd', hQ, h2 hd' ▸ hh⟩
    · rintro ⟨hd, hQ, hh⟩
      rw [← h2 hd] at hh
      exact ⟨(h1.mpr ⟨hd, hh⟩).1, hQ, hh⟩
  obtain ⟨stats, hp, hs⟩ := h.linked
  obtain ⟨front, back, hl, hf⟩ := h.touched
  obtain ⟨back', hl'⟩ := hlru front back hl fun d hd => ((hf d).mp hd).1
  refine ⟨⟨stats, hp.congr fun x hx => ?_, fun d => ?_⟩, ⟨front, back', hl', fun d => ?_⟩, hhashed⟩
  · exact hnext x ((hs x).mp hx).1 ((hs x).mp hx).2.1
  · rw [hs, hiff]
  · rw [hf, hiff]

theorem Answered.discard (hT : Threads cfg s L ∅)
    (hi : L.chain i = pre ++ c :: rest) (hc : ¬seen c) (hexp : cfg.cachesize ≤ c →
      isExpired now (s.crec c) = true) :
    ∃ L', Reaches cfg (Searching now q) s L (discard (s.store i pre.getLast? (s.hashNext c)) c) L' ∧
      L'.chain = (L.setChain i (pre ++ rest)).chain ∧
      Answered cfg hit (Cache.discard (s.store i pre.getLast? (s.hashNext c)) c) a L' seen := by
  obtain ⟨L', hR, hchain, hlru⟩ := hT.discard hi hexp
  have hne : ∀ d, seen d → d ≠ c := fun d hd e => hc (e ▸ hd)
  have hhashed : ∀ d, seen d → L'.Hashed d := by
    intro d hd
    obtain ⟨j, hj⟩ := h.hashed d hd
    refine ⟨j, ?_⟩
    rw [hchain]
    by_cases e : j = i
    · subst e
      rw [Threads.setChain_self]
      rw [hi] at hj
      simpa [hne d hd] using hj
    · rwa [Threads.setChain_of_ne L e]
  refine ⟨L', hR.searching, hchain,
    h.congr (fun d hd hle => ?_) (fun d hd => (hR.shed.hashed d (hhashed d hd)).2)
    (fun front back hl hf => hlru front back hl fun hm => hc (hf c hm)) (fun d => Iff.rfl) hhashed⟩
  exact discard_next hT hi fun hl => absurd (hT.lruPool d hl) (not_lt.mpr hle)

end

theorem Answered.add (h : Answered cfg hit s a L seen) (hT : Threads cfg s L ∅) (hc : c ∈ L.chain i)
    (hnew : ¬seen c) (hhit : hit (s.crec c) = true) :
    ∃ L', Reaches cfg (Searching now q) s L (a.add s c).1 L' ∧ L'.chain = L.chain ∧
      (a.add s c).1 = { s with toDLinks := (a.add s c).1.toDLinks } ∧
      Answered cfg hit (a.add s c).1 (a.add s c).2 L' fun d => seen d ∨ d = c := by
  obtain ⟨stats, hp, hs⟩ := h.linked
  obtain ⟨front, back, hl, hf⟩ := h.touched
  have hplace := hT.place i c hc
  have hhashed : ∀ d, seen d ∨ d = c → L.Hashed d := by
    rintro d (hd | rfl)
    · exact h.hashed d hd
    · exact ⟨i, hc⟩
  by_cases hst : (s.crec c).flags.isStatic = true
  · have hle := hplace.2.2.1.static_iff.mp hst
    have hadd : a.add s c = ((a.put s (some c)).1, { (a.put s (some c)).2 with last := some c }) :=
      if_pos hst
    have hframe := put_frame a s (some c)
    have hcrec : (a.put s (some c)).1.crec = s.crec := by rw [hframe]
    have hview : (a.put s (some c)).1.view L = s.view L := by rw [hframe]; rfl
    rw [hadd]
    refine ⟨L, .of_view (hT.put (fun l hl => h.last hl) _) hview, rfl, ?_,
      ⟨stats ++ [c], hp.concat fun hm => hnew ((hs c).mp hm).1, fun d => ?_⟩,
      ⟨front, back, hl, fun d => ?_⟩, hhashed⟩
    · rw [hframe]
    · rw [hcrec, mem_append, mem_singleton, hs]
      constructor
      · rintro (⟨hd, hp, hh⟩ | rfl)
        · exact ⟨.inl hd, hp, hh⟩
        · exact ⟨.inr rfl, hle, hhit⟩
      · rintro ⟨hd | rfl, hp, hh⟩
        · exact .inl ⟨hd, hp, hh⟩
        · exact .inr rfl
    rw [hcrec, hf]
    constructor
    · rintro ⟨hd, hp, hh⟩
      exact ⟨.inl hd, hp, hh⟩
    · rintro ⟨hd | rfl, hp, hh⟩
      · exact ⟨hd, hp, hh⟩
      · exact absurd hp (not_lt.mpr hle)
  have hlt : c < cfg.cachesize := not_le.mp fun hle => hst (hplace.2.2.1.static_iff.mpr hle)
  have hlru := hplace.2.2.2 hlt (Set.notMem_empty c)
  have hadd : a.add s c = (touch s c, a) := if_neg hst
  have hfront : c ∉ front := fun hm => hnew ((hf c).mp hm).1
  rw [hadd]
  refine ⟨_, hT.touch hc hlt, rfl, rfl, ⟨stats, hp.congr fun x hx => ?_, fun d => ?_⟩,
    ⟨c :: front, back.erase c, ?_, fun d => ?_⟩, hhashed⟩
  · exact touch_next hT hlru fun hl => absurd (hT.lruPool x hl) (not_lt.mpr ((hs x).mp hx).2.1)
  · rw [hs]
    constructor
    · rintro ⟨hd, hp, hh⟩
      exact ⟨.inl hd, hp, hh⟩
    · rintro ⟨hd | rfl, hp, hh⟩
      · exact ⟨hd, hp, hh⟩
      · exact absurd hlt (not_lt.mpr hp)
  · rw [hl, erase_append_right _ hfront, cons_append]
  rw [mem_cons, hf]
  constructor
  · rintro (rfl | ⟨hd, hp, hh⟩)
    · exact ⟨.inr rfl, hlt, hhit⟩
    · exact ⟨.inl hd, hp, hh⟩
  · rintro ⟨hd | rfl, hp, hh⟩
    · exact .inr ⟨hd, hp, hh⟩
    · exact .inl rfl

/-- The hits among the records of `scope`, as a list that is linked by `next`. -/
structure Found (cfg : Config) (hit : Crec → Bool) (s : State) (L : Lists) (scope : CrecId → Prop)
    (ans : Option CrecId) (stats front back : List CrecId) : Prop where
  chain : Chain s.next ans (stats ++ L.lru)
  lru : L.lru = front ++ back
  mem_stats : ∀ d, d ∈ stats ↔ scope d ∧ cfg.cachesize ≤ d ∧ hit (s.crec d) = true
  mem_front : ∀ d, d ∈ front ↔ scope d ∧ d < cfg.cachesize ∧ hit (s.crec d) = true

theorem Segment.chain {next : CrecId → Option CrecId} {p q : Option CrecId} {l l' : List CrecId}
    (h : Segment next p l q) (h' : Chain next q l') : Chain next p (l ++ l') := by
  induction l generalizing p with
  | nil =>
    cases h
    exact h'
  | cons a l ih => exact ⟨h.1, ih h.2⟩

/-- Behind the answers that were linked, the whole LRU list follows. -/
theorem Answered.found (h : Answered cfg hit s a L seen) (hT : Threads cfg s L ∅) :
    Reaches cfg (Searching now q) s L (a.put s s.head).1 L ∧
      ∃ stats front back, Found cfg hit (a.put s s.head).1 L seen (a.put s s.head).2.ans stats
        front back := by
  have hframe := put_frame a s s.head
  have hcrec : (a.put s s.head).1.crec = s.crec := by rw [hframe]
  constructor
  · exact .of_view (hT.put (fun l hl => h.last hl) _) (by rw [hframe]; rfl)
  obtain ⟨stats, hp, hs⟩ := h.linked
  obtain ⟨front, back, hl, hf⟩ := h.touched
  refine ⟨stats, front, back, ?_, hl,
    fun d => by rw [hcrec]; exact hs d, fun d => by rw [hcrec]; exact hf d⟩
  have hlru : Chain (a.put s s.head).1.next s.head L.lru := by
    refine hT.lru.forward.congr fun x hx => put_next_of_ne a s _ fun hlast => ?_
    exact absurd (hT.lruPool x hx) (not_lt.mpr (h.last hlast).1)
  exact Segment.chain (hp.segment s.head) hlru

/-- The answers from `p` on: each call with the last one gives the next, up to the first record that
is no hit. -/
def hitsFrom (next : CrecId → Option CrecId) (hit : CrecId → Bool) : ℕ → Option CrecId →
    Option (List CrecId)
  | 0, _ => none
  | k + 1, p =>
    match p.filter hit with
    | none => some []
    | some c => (hitsFrom next hit k (next c)).map (c :: ·)

theorem hitsFrom_eq {next : CrecId → Option CrecId} {hit : CrecId → Bool} {p : Option CrecId}
    {l back : List CrecId} (k : ℕ) (hk : l.length < k) (hchain : Chain next p (l ++ back))
    (hl : ∀ d ∈ l, hit d = true) (hback : ∀ d ∈ back.head?, hit d = false) :
    hitsFrom next hit k p = some l := by
  induction l generalizing p k with
  | nil =>
    obtain ⟨k, rfl⟩ : ∃ k', k = k' + 1 := ⟨k - 1, by omega⟩
    have hnone : p.filter hit = none := by
      rw [filter_eq_none_iff]
      intro d hd
      rw [← hchain.head?] at hd
      simp [hback d hd]
    rw [hitsFrom, hnone]
  | cons d l ih =>
    obtain ⟨k, rfl⟩ : ∃ k', k = k' + 1 := ⟨k - 1, by omega⟩
    obtain ⟨rfl, hchain⟩ := hchain
    have hrest := ih k (by simpa using hk) hchain fun e he => hl e (mem_cons_of_mem d he)
    rw [hitsFrom, filter_some, if_pos (hl d mem_cons_self)]
    exact congrArg (Option.map (d :: ·)) hrest

/-- The answers are all the hits, as long as hits of the LRU list belong to the scope. -/
theorem Found.hitsFrom {scope : CrecId → Prop} {ans : Option CrecId} {front back : List CrecId}
    (h : Found cfg hit s L scope ans stats front back) (hT : Threads cfg s L ∅) (hscope : ∀ d,
      scope d → L.Hashed d)
    (hlru : ∀ d ∈ L.lru, hit (s.crec d) = true → scope d) {k : ℕ} (hk : s.nextCrec < k) :
    hitsFrom s.next (fun d => hit (s.crec d)) k ans = some (stats ++ front) ∧
      (stats ++ front).Nodup := by
  have hchain : Chain s.next ans (stats ++ front ++ back) := by
    rw [append_assoc, ← h.lru]
    exact h.chain
  have hnodup := nodup_append.mp hchain.nodup
  have hmem : ∀ d ∈ stats ++ front, scope d ∧ hit (s.crec d) = true := by
    intro d hd
    rcases mem_append.mp hd with hd | hd
    · exact ⟨((h.mem_stats d).mp hd).1, ((h.mem_stats d).mp hd).2.2⟩
    · exact ⟨((h.mem_front d).mp hd).1, ((h.mem_front d).mp hd).2.2⟩
  have hback : ∀ d ∈ back.head?, hit (s.crec d) = false := by
    intro d hd
    have hd : d ∈ back := mem_of_head? hd
    have hin : d ∈ L.lru := h.lru ▸ mem_append_right front hd
    refine eq_false_of_ne_true fun hhit => ?_
    have hfront := (h.mem_front d).mpr ⟨hlru d hin hhit, hT.lruPool d hin, hhit⟩
    exact hnodup.2.2 d (mem_append_right stats hfront) d hd rfl
  have hlen : (stats ++ front).length ≤ s.nextCrec :=
    length_le_of_lt hnodup.1 fun d hd => hT.lt_nextCrec d (.inl (hscope d (hmem d hd).1))
  exact ⟨hitsFrom_eq k (hlen.trans_lt hk) hchain (fun d hd => (hmem d hd).2) hback, hnodup.1⟩

def Crec.pointsAt (addr : List UInt8) (prot : Flags) (r : Crec) : Bool :=
  r.flags.reverse && r.flags.meets prot && sameAddr prot.addrlen r.addr addr

section Addr

variable {addr : List UInt8} {prot : Flags}

def Survives (now : ℤ) (v w : View) : Prop := ∀ d, v.Hashed d → isExpired now
    (v.crec d) = false → w.Hashed d

/-- The chains below `i` are done, and `pre` of chain `i`. -/
structure AddrScan (cfg : Config) (addr : List UInt8) (now : ℤ) (prot : Flags) (v : View)
    (i : ℕ) (s : State) (a : Answers) (L : Lists) (pre : List CrecId) : Prop where
  answered : Answered cfg (Crec.pointsAt addr prot) s a L fun d => d ∈ pre ∨ ∃ j < i, d ∈ L.chain j
  sheds : Sheds v (s.view L)
  survives : Survives now v (s.view L)

/-- The record the loop has come to is not one of those it has passed. -/
theorem Threads.not_passed (h : Threads cfg s L ∅) (hi : L.chain i = pre ++ c :: rest) :
    ¬(c ∈ pre ∨ ∃ j < i, c ∈ L.chain j) := by
  rintro (hp | ⟨j, hj, hcj⟩)
  · have hnodup := (h.hash i).nodup
    rw [hi] at hnodup
    exact (nodup_append.mp hnodup).2.2 c hp c mem_cons_self rfl
  · exact absurd (h.chain_unique (by simp [hi] : c ∈ L.chain i) hcj) (Nat.ne_of_gt hj)

theorem findAddr_rule (cfg : Config) (addr : List UInt8) (now : ℤ) (prot : Flags)
    (v : View) (i : ℕ) : SweepRule cfg (Searching now q) (findAddr addr now prot)
    i (AddrScan cfg addr now prot v i) where
  keep {s acc L pre c rest s' acc'} h hi hI hb := by
    have hc : c ∈ L.chain i := by simp [hi]
    have hmem : ∀ d, d ∈ pre ++ [c] ∨ (∃ j < i, d ∈ L.chain j) ↔
        (d ∈ pre ∨ ∃ j < i, d ∈ L.chain j) ∨ d = c := by
      intro d
      rw [mem_append, mem_singleton]
      exact or_right_comm
    have hhashed : ∀ d, d ∈ pre ++ [c] ∨ (∃ j < i, d ∈ L.chain j) → L.Hashed d := by
      intro d hd
      rcases (hmem d).mp hd with hd | rfl
      · exact hI.answered.hashed d hd
      · exact ⟨i, hc⟩
    simp only [findAddr] at hb
    split at hb
    · cases hb
    rename_i hrev
    split at hb
    · cases hb
    split at hb
    · rename_i hmatch
      cases hb
      have hhit : Crec.pointsAt addr prot (s.crec c) = true := by
        simp only [Bool.not_eq_true, Bool.not_eq_false'] at hrev
        simp only [Crec.pointsAt, Bool.and_eq_true] at hmatch ⊢
        exact ⟨⟨hrev, hmatch.1⟩, hmatch.2⟩
      obtain ⟨L', hR, hchain, -, hA⟩ := hI.answered.add (q := q) h hc (h.not_passed hi) hhit
      refine ⟨L', hR, by rw [hchain], ?_, hI.sheds.trans hR.sheds, fun d hd he => ?_⟩
      · have : (fun d => d ∈ pre ++ [c] ∨ ∃ j < i, d ∈ L'.chain j) =
            fun d => (d ∈ pre ∨ ∃ j < i, d ∈ L.chain j) ∨ d = c := by
          funext d
          rw [hchain]
          exact propext (hmem d)
        rw [this]
        exact hA
      · change ∃ j, d ∈ L'.chain j
        rw [hchain]
        exact hI.survives d hd he
    rename_i hmatch
    cases hb
    refine ⟨L, .refl h, rfl, ?_, hI.sheds, hI.survives⟩
    refine hI.answered.congr (fun _ _ _ => rfl) (fun _ _ => rfl) (fun front back hl _ => ⟨back, hl⟩)
      (fun d => ?_) hhashed
    rw [hmem]
    constructor
    · rintro ⟨hd | rfl, hh⟩
      · exact ⟨hd, hh⟩
      · simp only [Crec.pointsAt, Bool.and_eq_true] at hh
        simp only [Bool.and_eq_true] at hmatch
        exact absurd ⟨hh.1.2, hh.2⟩ hmatch
    · rintro ⟨hd, hh⟩
      exact ⟨.inl hd, hh⟩
  drop {s acc L pre c rest after acc'} h hi hI hb := by
    have hc : c ∈ L.chain i := by simp [hi]
    simp only [findAddr] at hb
    split at hb
    · cases hb
    split at hb
    · rename_i hexp
      cases hb
      obtain ⟨L', hR, hchain, hA⟩ :=
        hI.answered.discard (q := q) h hi (h.not_passed hi) fun _ => hexp
      have hi' : L'.chain i = pre ++ rest := by rw [hchain, Threads.setChain_self]
      have hj' : ∀ j, j ≠ i → L'.chain j = L.chain j := fun j hj => by
        rw [hchain, Threads.setChain_of_ne L hj]
      refine ⟨fun t => discard_frame t c, L', hR, hi', ?_, hI.sheds.trans hR.sheds,
        fun d hd he => ?_⟩
      · have : (fun d => d ∈ pre ∨ ∃ j < i, d ∈ L'.chain j) = fun d => d ∈ pre ∨ ∃ j < i,
            d ∈ L.chain j := by
          funext d
          refine propext (or_congr Iff.rfl (exists_congr fun j => and_congr_right fun hj => ?_))
          rw [hj' j (Nat.ne_of_lt hj)]
        rw [this]
        exact hA
      obtain ⟨j, hj⟩ := hI.survives d hd he
      have hne : d ≠ c := by
        rintro rfl
        have hcrec : s.crec d = v.crec d := (hI.sheds.hashed d ⟨i, hc⟩).2
        rw [hcrec, he] at hexp
        cases hexp
      refine ⟨j, ?_⟩
      change d ∈ L'.chain j
      change d ∈ L.chain j at hj
      by_cases e : j = i
      · subst e
        rw [hi] at hj
        rw [hi']
        simpa [hne] using hj
      · rwa [hj' j e]
    · split at hb <;> cases hb

theorem findAddr_stop {s : State} {a : Answers} (hb : findAddr addr now prot s a c = .stop) :
    (s.crec c).flags.reverse = false := by
  simp only [findAddr] at hb
  split at hb
  · rename_i hrev
    simpa using hrev
  · split at hb
    · cases hb
    · split at hb <;> cases hb

theorem AddrScan.done {v : View} (hA : AddrScan cfg addr now prot v i s a L pre)
    (h : Threads cfg s L ∅) (hi : L.chain i = pre ++ rest) (hstop : ∀ c ∈ rest.head?,
      findAddr addr now prot s a c = .stop) :
    AddrScan cfg addr now prot v (i + 1) s a L [] := by
  have hrest : ∀ d ∈ rest, (s.crec d).flags.reverse = false := by
    cases rest with
    | nil => nofun
    | cons c rest =>
      have hrev := findAddr_stop (hstop c rfl)
      have hord := h.order i
      rw [hi] at hord
      have hbehind := (pairwise_cons.mp (pairwise_append.mp hord).2.1).1
      intro d hd
      rcases mem_cons.mp hd with rfl | hd
      · exact hrev
      · by_contra hne
        rw [hbehind d hd (by simpa using hne)] at hrev
        cases hrev
  refine ⟨?_, hA.sheds, hA.survives⟩
  refine hA.answered.congr (fun _ _ _ => rfl) (fun _ _ => rfl) (fun front back hl _ => ⟨back, hl⟩)
    (fun d => ?_) (fun d hd => ?_)
  · constructor
    · rintro ⟨hd | ⟨j, hj, hd⟩, hh⟩
      · exact absurd hd not_mem_nil
      rcases Nat.lt_succ_iff_lt_or_eq.mp hj with hj | rfl
      · exact ⟨.inr ⟨j, hj, hd⟩, hh⟩
      rw [hi] at hd
      rcases mem_append.mp hd with hd | hd
      · exact ⟨.inl hd, hh⟩
      · simp [Crec.pointsAt, hrest d hd] at hh
    · rintro ⟨hd | ⟨j, hj, hd⟩, hh⟩
      · exact ⟨.inr ⟨i, Nat.lt_succ_self i, hi ▸ mem_append_left rest hd⟩, hh⟩
      · exact ⟨.inr ⟨j, Nat.lt_succ_of_lt hj, hd⟩, hh⟩
  · rcases hd with hd | ⟨j, -, hd⟩
    · exact absurd hd not_mem_nil
    · exact ⟨j, hd⟩

/-- A new search by address finds every reverse entry for it that has not expired. -/
theorem Threads.cacheFindByAddr
    (h : Threads cfg s L ∅) (addr : List UInt8) (now : ℤ) (prot : Flags) :
    ∃ s' L' ans stats front back, cacheFindByAddr s none addr now prot =
        some (s', ans.filter fun c => Crec.pointsAt addr prot (s'.crec c)) ∧
      Reaches cfg (Searching now q) s L s' L' ∧ Survives now (s.view L) (s'.view L') ∧
      Found cfg (Crec.pointsAt addr prot) s' L' L'.Hashed ans stats front back := by
  have hstart : AddrScan cfg addr now prot (s.view L) 0 s {} L [] := by
    refine ⟨?_, Sheds.refl _, fun _ hd _ => hd⟩
    have hnone : (fun d => d ∈ ([] : List CrecId) ∨ ∃ j < 0, d ∈ L.chain j) = fun _ => False := by
      simp
    rw [hnone]
    exact Answered.start cfg _ s L
  obtain ⟨s1, a, L1, hs1, hR1, hA⟩ := @sweepTable_rule cfg s L (Searching now q) Answers
    (findAddr addr now prot) {} _ (fun n t a M => AddrScan cfg addr now prot (s.view L) n t a M [])
    (findAddr_rule cfg addr now prot (s.view L)) (fun i t acc M hJ => hJ)
    (fun {i t acc M pre rest} h hi hI hstop => hI.done h hi hstop) h hstart
  have hsize : s1.hashSize = s.hashSize := hR1.sheds.hashSize
  have hscope : (fun d => d ∈ ([] : List CrecId) ∨ ∃ j < s.hashSize, d ∈ L1.chain j) =
      L1.Hashed := by
    funext d
    refine propext ⟨?_, fun ⟨j, hj⟩ => .inr ⟨j, ?_, hj⟩⟩
    · rintro (hd | ⟨j, -, hd⟩)
      · exact absurd hd not_mem_nil
      · exact ⟨j, hd⟩
    · have hb : bucketOf cfg s1 d = j := (hR1.threads.place j d hj).1
      have hlt : bucketOf cfg s1 d < s1.hashSize := hashBucket_lt cfg hR1.threads.size _
      omega
  have hanswered := hA.answered
  rw [hscope] at hanswered
  obtain ⟨hR2, stats, front, back, hF⟩ := hanswered.found (q := q) hR1.threads
  refine ⟨_, L1, _, stats, front, back, ?_, hR1.trans hR2, hA.survives, hF⟩
  unfold Cache.cacheFindByAddr
  simp only [hs1, bind_eq_bind, bind_some]
  rfl

end Addr

end Dnsmasq.Cache
