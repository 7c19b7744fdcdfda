import Dnsmasq.Lib.OptionFold
import Dnsmasq.Cache.Moves

/-!
The loops along the hash chains. `SweepRule` says what one turn of a loop does and keeps.
-/
namespace Dnsmasq.Cache

open List Lib

variable {cfg : Config} {s s' t : State} {L L' M : Lists} {i : ℕ} {c d : CrecId}
  {pre rest : List CrecId} {P : Action → View → Prop} {q : CString → Prop}

theorem Threads.release (h : Threads cfg s L {c}) (hlru : c ∈ L.lru) (hchain : ¬L.Hashed c) :
    Threads cfg (release s c) { L with lru := L.lru.erase c ++ [c] } ∅ := by
  have hnodup : L.lru.Nodup := h.lru.forward.nodup
  exact (h.unlink hlru).free (h.lruPool c hlru)
    (fun hm => (List.Nodup.mem_erase_iff hnodup).mp hm |>.1 rfl) hchain

theorem discard_frame (s : State) (c : CrecId) : (discard s c).hashNext = s.hashNext := by
  unfold discard
  split <;> rfl

theorem discard_eq_release (h : (s.crec c).flags.isStatic = false) : discard s c = release s c :=
  if_neg (by simp [h])

/-- A record leaves its chain for good; if it is one of the pool, it is free, and no other has
moved in the LRU list. -/
theorem Threads.discard (h : Threads cfg s L ∅) (hi : L.chain i = pre ++ c :: rest) {now : ℤ}
    (hexp : cfg.cachesize ≤ c → isExpired now (s.crec c) = true) :
    ∃ L', Reaches cfg (Shedding now) s L (discard (s.store i pre.getLast? (s.hashNext c)) c) L' ∧
      L'.chain = (L.setChain i (pre ++ rest)).chain ∧
      ∀ front back, L.lru = front ++ back → c ∉ front → ∃ back', L'.lru = front ++ back' := by
  have hc : c ∈ L.chain i := by simp [hi]
  have h1 := h.unhash hi
  have hgone := h.not_hashed_of_unhash hi
  have hstatic := (h.place i c hc).2.2.1.static_iff
  by_cases hp : cfg.cachesize ≤ c
  · have heq : Cache.discard (s.store i pre.getLast? (s.hashNext c)) c =
        s.store i pre.getLast? (s.hashNext c) :=
      if_pos (hstatic.mpr hp)
    refine ⟨L.setChain i (pre ++ rest), ?_, rfl, fun front back hl _ => ⟨back, hl⟩⟩
    rw [heq]
    constructor
    · exact h1.putDown (fun hlt => absurd hlt (not_lt.mpr hp)) fun hlt => absurd hlt (not_lt.mpr hp)
    · exact (Move.drop (v := s.view L) hi hp).moves (hexp hp)
  have hlt := not_le.mp hp
  have hlru : c ∈ L.lru := (h.place i c hc).2.2.2 hlt (Set.notMem_empty c)
  have heq : Cache.discard (s.store i pre.getLast? (s.hashNext c)) c =
      Cache.release (s.store i pre.getLast? (s.hashNext c)) c := if_neg fun e => hp (hstatic.mp e)
  refine ⟨{ L.setChain i (pre ++ rest) with lru := L.lru.erase c ++ [c] }, ?_, rfl,
    fun front back hl hf => ?_⟩
  · rw [heq]
    constructor
    · exact h1.release hlru hgone
    · exact (Move.release (v := s.view L) hi hlt (h.notMem_new hc) hgone).moves trivial
  · refine ⟨back.erase c ++ [c], ?_⟩
    change L.lru.erase c ++ [c] = front ++ (back.erase c ++ [c])
    rw [hl, erase_append_right _ hf, append_assoc]

theorem Threads.touch {now : ℤ} (h : Threads cfg s L ∅) (hc : c ∈ L.chain i)
    (hp : c < cfg.cachesize) : Reaches cfg (Searching now q) s L (touch s c)
    { L with lru := c :: L.lru.erase c } := by
  obtain ⟨hbucket, hlt, -, hlru⟩ := h.place i c hc
  have hmem := hlru hp (Set.notMem_empty c)
  have h1 := (h.pickUp hlt (h.notMem_new hc) (h.notMem_spare hc)).unlink hmem
  have h2 := h1.link hp fun hm => ((List.Nodup.mem_erase_iff h.lru.forward.nodup).mp hm).1 rfl
  constructor
  · refine h2.putDown (fun _ => mem_cons_self) fun _ _ => ?_
    change c ∈ L.chain (bucketOf cfg s c)
    rwa [hbucket]
  · exact (Move.touch (v := s.view L) hc hp).moves trivial

section Rule

variable {α : Type}

/-- What one turn does and keeps, with `pre` behind the loop in chain `i`. -/
structure SweepRule (cfg : Config) (P : Action → View → Prop) (body : State → α → CrecId →
    Verdict α) (i : ℕ) (I : State → α → Lists → List CrecId → Prop) : Prop where
  keep : ∀ {s acc L pre c rest s' acc'}, Threads cfg s L ∅ → L.chain i = pre ++ c :: rest →
    I s acc L pre → body s acc c = .keep s' acc' →
    ∃ L', Reaches cfg P s L s' L' ∧ L'.chain i = L.chain i ∧ I s' acc' L' (pre ++ [c])
  drop : ∀ {s acc L pre c rest after acc'}, Threads cfg s L ∅ → L.chain i = pre ++ c :: rest →
    I s acc L pre → body s acc c = .drop after acc' →
    (∀ t, (after t).hashNext = t.hashNext) ∧
      ∃ L', Reaches cfg P s L (after (s.store i pre.getLast? (s.hashNext c))) L' ∧
        L'.chain i = pre ++ rest ∧ I (after (s.store i pre.getLast? (s.hashNext c))) acc' L' pre

variable {body : State → α → CrecId → Verdict α} {I : State → α → Lists → List CrecId →
  Prop} {acc : α}

/-- The loop goes on until its body stops it or the chain ends. -/
theorem SweepRule.sweep (hrule : SweepRule cfg P body i I) (k : ℕ) (hk : rest.length ≤ k)
    (h : Threads cfg s L ∅) (hi : L.chain i = pre ++ rest) (hI : I s acc L pre) :
    ∃ s' acc' L' pre' rest', sweep body i k s acc pre.getLast? rest.head? =
      some (s', acc', rest'.head?) ∧ Reaches cfg P s L s' L' ∧ L'.chain i = pre' ++ rest' ∧
      I s' acc' L' pre' ∧ ∀ c ∈ rest'.head?, body s' acc' c = .stop := by
  induction k generalizing s acc L pre rest with
  | zero =>
    obtain rfl := length_eq_zero_iff.mp (Nat.le_zero.mp hk)
    exact ⟨s, acc, L, pre, [], rfl, .refl h, hi, hI, nofun⟩
  | succ k ih =>
    cases rest with
    | nil => exact ⟨s, acc, L, pre, [], rfl, .refl h, hi, hI, nofun⟩
    | cons c rest =>
      have hlen : rest.length ≤ k := by simpa using hk
      rw [head?_cons, Cache.sweep]
      cases hb : body s acc c with
      | stop =>
        refine ⟨s, acc, L, pre, c :: rest, rfl, .refl h, hi, hI, fun d hd => ?_⟩
        cases hd
        exact hb
      | keep s1 acc1 =>
        obtain ⟨L1, h1, hL1, hI1⟩ := hrule.keep h hi hI hb
        have hi1 : L1.chain i = pre ++ [c] ++ rest := by rw [hL1, hi]; simp
        have hnext : s1.hashNext c = rest.head? := by
          have := h1.threads.load_eq hi1
          simpa [State.load] using this
        obtain ⟨s', acc', L', pre', rest', hs', h', hrest⟩ := ih hlen h1.threads hi1 hI1
        simp only [getLast?_append, getLast?_singleton, Option.some_or] at hs'
        simp only [hnext]
        exact ⟨s', acc', L', pre', rest', hs', h1.trans h', hrest⟩
      | drop after acc1 =>
        obtain ⟨hframe, L1, h1, hi1, hI1⟩ := hrule.drop h hi hI hb
        have hpre : pre.getLast? ≠ some c := getLast?_ne_of_notMem fun hm => by
          have hnodup := (h.hash i).nodup
          rw [hi] at hnodup
          exact (nodup_append.mp hnodup).2.2 c hm c mem_cons_self rfl
        have hnext : (after (s.store i pre.getLast? (s.hashNext c))).hashNext c = rest.head? := by
          rw [hframe]
          have hsame : (s.store i pre.getLast? (s.hashNext c)).hashNext c = s.hashNext c :=
            linkSet_of_ne hpre _
          have hchain := h.hash i
          rw [hi] at hchain
          rw [hsame]
          exact hchain.from_cell.2.head?.symm
        obtain ⟨s', acc', L', pre', rest', hs', h', hrest⟩ := ih hlen h1.threads hi1 hI1
        simp only [hnext]
        exact ⟨s', acc', L', pre', rest', hs', h1.trans h', hrest⟩

theorem SweepRule.sweepChain (hrule : SweepRule cfg P body i I) (h : Threads cfg s L ∅)
    (hI : I s acc L []) : ∃ s' acc' L' pre' rest',
    sweepChain body s acc i = some (s', acc', rest'.head?) ∧
      Reaches cfg P s L s' L' ∧ L'.chain i = pre' ++ rest' ∧ I s' acc' L' pre' ∧
      ∀ c ∈ rest'.head?, body s' acc' c = .stop := by
  have hhead : s.table i = (L.chain i).head? := (h.hash i).head?.symm
  have := @SweepRule.sweep cfg s L i [] (L.chain i)
    P α body I acc hrule s.nextCrec (h.chain_length i) h rfl hI
  rw [← hhead] at this
  exact this

/-- The same loop over every chain of the table; `J n` holds when `n` chains are done. -/
theorem sweepTable_rule {I : ℕ → State → α → Lists → List CrecId → Prop} {J : ℕ → State → α →
    Lists → Prop} (hrule : ∀ i, SweepRule cfg P body i (I i)) (hstart : ∀ i s acc L, J i s acc L →
    I i s acc L []) (hend : ∀ {i s acc L pre rest}, Threads cfg s L ∅ → L.chain i = pre ++ rest →
    I i s acc L pre →
      (∀ c ∈ rest.head?, body s acc c = .stop) → J (i + 1) s acc L)
    (h : Threads cfg s L ∅) (hJ : J 0 s acc L) :
    ∃ s' acc' L', sweepTable body s acc = some (s', acc') ∧ Reaches cfg P s L s' L' ∧
      J s.hashSize s' acc' L' := by
  have hfold : ∃ p, sweepTable body s acc = some p ∧ ∃ M, Reaches cfg P s L p.1 M ∧
      J s.hashSize p.1 p.2 M := by
    apply foldlM_range_some (J := fun n (p : State × α) => ∃ M, Reaches cfg P s L p.1 M ∧
      J n p.1 p.2 M)
    · rintro i - p ⟨M, hM, hJM⟩
      obtain ⟨s', acc', L', pre, rest, hs', h', hi, hI, hstop⟩ :=
        (hrule i).sweepChain hM.threads (hstart i _ _ _ hJM)
      exact ⟨(s', acc'), by simp [hs'], L', hM.trans h', hend h'.threads hi hI hstop⟩
    · exact ⟨L, .refl h, hJ⟩
  obtain ⟨⟨s', acc'⟩, hs', L', h', hJ'⟩ := hfold
  exact ⟨s', acc', L', hs', h', hJ'⟩

/-- A loop that only drops records: those that `p` holds for go, from every chain. -/
theorem sweepTable_filter {b : State → Unit → CrecId → Verdict Unit} {p : Crec → Bool}
    {f : State → CrecId → State → State}
    (hbody : ∀ s c, b s () c = if p (s.crec c) then .drop (f s c) () else .keep s ())
    (hframe : ∀ s c t, (f s c t).hashNext = t.hashNext)
    (hdrop : ∀ {s L i pre c rest}, Threads cfg s L ∅ → L.chain i = pre ++ c :: rest →
      p (s.crec c) = true →
      ∃ L', Reaches cfg P s L (f s c (s.store i pre.getLast? (s.hashNext c))) L' ∧
        L'.chain = (L.setChain i (pre ++ rest)).chain ∧
        (∀ d, d ≠ c → (f s c (s.store i pre.getLast? (s.hashNext c))).crec d = s.crec d) ∧
        (f s c (s.store i pre.getLast? (s.hashNext c))).hashSize = s.hashSize)
    (h : Threads cfg s L ∅) : ∃ s' L', sweepTable b s () = some (s', ()) ∧ Reaches cfg P s L s' L' ∧
      ∀ d, L'.Hashed d → p (s'.crec d) = false := by
  let J : ℕ → State → Unit → Lists → Prop := fun n t _ M =>
    t.hashSize = s.hashSize ∧ ∀ j < n, ∀ d ∈ M.chain j, p (t.crec d) = false
  have hrule : ∀ i, SweepRule cfg P b i fun t acc M pre => J i t acc M ∧ ∀ d ∈ pre,
      p (t.crec d) = false := by
    intro i
    constructor
    · intro t acc M pre c rest t' acc' hT hi hI hb
      rw [hbody] at hb
      split at hb
      · cases hb
      rename_i hp
      cases hb
      refine ⟨M, .refl hT, rfl, hI.1, fun d hd => ?_⟩
      rcases mem_append.mp hd with hd | hd
      · exact hI.2 d hd
      · rw [mem_singleton.mp hd]
        exact eq_false_of_ne_true hp
    intro t acc M pre c rest f' acc' hT hi hI hb
    rw [hbody] at hb
    split at hb
    · rename_i hp
      cases hb
      obtain ⟨M', hR, hchain, hcrec, hsize⟩ := hdrop hT hi hp
      have hc : c ∈ M.chain i := by simp [hi]
      have hi' : M'.chain i = pre ++ rest := by rw [hchain, Threads.setChain_self]
      refine ⟨hframe t c, M', hR, hi', ⟨hsize.trans hI.1.1, fun j hj d hd => ?_⟩, fun d hd => ?_⟩
      · rw [hchain, Threads.setChain_of_ne M (Nat.ne_of_lt hj)] at hd
        rw [hcrec d]
        · exact hI.1.2 j hj d hd
        · rintro rfl
          exact Nat.ne_of_lt hj (hT.chain_unique hd hc)
      rw [hcrec d]
      · exact hI.2 d hd
      rintro rfl
      have hnodup := (hT.hash i).nodup
      rw [hi] at hnodup
      exact (nodup_append.mp hnodup).2.2 d hd d mem_cons_self rfl
    · cases hb
  obtain ⟨s', acc, L', hs', hR, hJ⟩ :=
    sweepTable_rule (J := J) hrule (fun i s acc L hJ => ⟨hJ, nofun⟩)
    (fun {i t acc M pre rest} hT hi hI hstop => by
      refine ⟨hI.1.1, fun j hj d hd => ?_⟩
      rcases Nat.lt_succ_iff_lt_or_eq.mp hj with hj | rfl
      · exact hI.1.2 j hj d hd
      -- the b never stops the loop
      cases rest with
      | nil => exact hI.2 d (by simpa [hi] using hd)
      | cons c rest =>
        have hb := hstop c rfl
        rw [hbody] at hb
        split at hb <;> cases hb) h ⟨rfl, nofun⟩
  refine ⟨s', L', hs', hR, fun d hd => ?_⟩
  obtain ⟨i, hi⟩ := hd
  refine hJ.2 i ?_ d hi
  rw [← (hR.threads.place i d hi).1, ← hJ.1]
  exact hashBucket_lt cfg hR.threads.size _

end Rule

end Dnsmasq.Cache
