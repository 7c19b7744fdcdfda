import Dnsmasq.Cache.NonTerminals
import Dnsmasq.Cache.Order

/-!
All answers of `cache_find_by_name`, which is called again with the last one until there are no
more. The search itself frees records, and with them the targets of CNAMEs.
-/
namespace Dnsmasq.Cache

open List Option Lib Function

variable {cfg : Config} {s s' : State} {L L' : Lists} {c d : CrecId} {v w : View}
  {a : Action} {now : ℤ} {l pre post : List CrecId}

def Crec.Aimed (r : Crec) : Prop := r.flags.cname = true → r.target ≠ none → r.targetUid ≠ uidNone

def View.Aimed (cfg : Config) (v : View) : Prop := ∀ c < cfg.cachesize, (v.crec c).Aimed

theorem View.Aimed.setCrec {r : Crec} (h : v.Aimed cfg) (hr : c < cfg.cachesize → r.Aimed) :
    (v.setCrec c r).Aimed cfg := by
  intro d hd
  by_cases e : d = c
  · subst e
    rw [View.setCrec_self]
    exact hr hd
  · rw [View.setCrec_of_ne _ e]
    exact h d hd

theorem View.nextUid_uid (v : View) (c : CrecId) : ((v.nextUid c).crec c).uid ≠ uidNone := by
  unfold View.nextUid
  split
  · simp only [View.setCrec_self]
    split
    · exact Nat.succ_ne_zero _
    · assumption
  · assumption

theorem View.Aimed.nextUid (h : v.Aimed cfg) (c : CrecId) : (v.nextUid c).Aimed cfg := by
  unfold View.nextUid
  split
  · exact View.Aimed.setCrec (v := { v with lastUid := _ }) h fun hc => h c hc
  · exact h

theorem Move.aimed (hm : Move cfg v a w) (h : v.Aimed cfg) (ha : ∀ c r, a = .grab c r → r.Aimed) :
    w.Aimed cfg := by
  cases hm with
  | @release i c | @dropNew c => exact h.setCrec fun hc => h c hc
  | grab => exact h.setCrec fun _ => ha _ _ rfl
  | link cpp newc => exact (h.nextUid newc).setCrec fun _ _ _ => v.nextUid_uid newc
  | alloc | clear => exact h.setCrec fun _ hcn => nomatch hcn
  | reuse _ _ _ hle | add hle | extend _ hle | immortalise _ hle =>
    exact h.setCrec fun hc => absurd hc (not_lt.mpr hle)
  | _ => exact h

theorem Moves.aimed {P : Action → View → Prop} (hm : Moves cfg P v w) (h : v.Aimed cfg)
    (hP : ∀ c r v, ¬P (.grab c r) v) : w.Aimed cfg := by
  refine hm.invariant h fun a u u' ha hm hI => hm.aimed hI fun c r hc => ?_
  subst hc
  exact absurd ha (hP c r u)

theorem Insert.entry_aimed (ins : Insert) (ttl : ℕ) (big : Bool) (uid : ℕ) (r : Crec) :
    (ins.entry ttl big uid r).Aimed := by
  intro hcn htarget
  rw [Insert.entry_flags] at hcn
  rw [Insert.entry, if_pos hcn] at htarget
  exact absurd rfl htarget

theorem Stating.not_grab {S : Crec → Prop} {q : CString → Prop} {n : CrecId} (c : CrecId)
    (r : Crec) (v : View) : ¬Stating S q n (.grab c r) v := by
  intro h
  obtain ⟨_, -, hmake⟩ := h.making id nofun nofun
  exact hmake

theorem Effect.aimed {op : Op} (h : (s.view L).Aimed cfg) (heff : Effect cfg op s L s' L') :
    (s'.view L').Aimed cfg := by
  cases op with
  | startInsert =>
    refine heff.1.moves.aimed h fun c r v hP => ?_
    obtain ⟨d, hd⟩ | hd := hP <;> cases hd
  | insert ins =>
    obtain ⟨new, hins⟩ := heff
    cases hins with
    | fail hR _ | found hR _ _ _ _ => exact hR.moves.aimed h fun _ _ _ => id
    | new _ hR _ _ _ hmove =>
      refine hmove.aimed (hR.moves.aimed h fun _ _ _ => id) fun c r hc => ?_
      cases hc
      exact ins.entry_aimed _ _ _ _
  | linkCname cpp newc => exact (Reaches.moves heff).aimed h fun c r v hP => by cases hP
  | endInsert | findByAddr => exact heff.1.moves.aimed h fun _ _ _ => id
  | findByName => exact (Reaches.moves heff).aimed h fun _ _ _ => id
  | unhashDhcp =>
    refine heff.1.moves.aimed h fun c r v hP => ?_
    obtain ⟨d, hd⟩ := hP
    cases hd
  | addDhcpEntry l =>
    obtain ⟨s1, L1, hR1, -, hR2⟩ := heff
    exact hR2.reaches.moves.aimed (hR1.moves.aimed h fun _ _ _ => id) Stating.not_grab
  | hostsFile file => exact (Staged.reaches heff).moves.aimed h Stating.not_grab
  | reload d =>
    obtain ⟨s1, L1, hR1, -, -, hR2⟩ := heff
    exact hR2.reaches.moves.aimed (hR1.moves.aimed h fun _ _ _ => id) Stating.not_grab

/-- The record is a CNAME that points at `t`. -/
def Crec.cnameTo (r : Crec) (t : CrecId) : Bool :=
    r.flags.cname && !r.isNamePtr && r.target == some t

theorem discard_crec (s : State) (c : CrecId) :
    (discard s c).crec = if (s.crec c).flags.isStatic then s.crec
    else update s.crec c (s.crec c).free := by
  unfold discard
  split <;> rfl

theorem discard_crec_of_ne (s : State) (h : d ≠ c) : (discard s c).crec d = s.crec d := by
  rw [discard_crec]
  split
  · rfl
  · exact update_of_ne h _ _

theorem isOutdatedCnamePointer_discard (hd : d ≠ c) (haim : (s.crec d).isNamePtr = false →
    (s.crec d).Aimed) : isOutdatedCnamePointer (discard s c) d = false ↔
      isOutdatedCnamePointer s d = false ∧
      ((s.crec c).flags.isStatic = false → (s.crec d).cnameTo c = false) := by
  have hsame := discard_crec_of_ne s hd
  unfold isOutdatedCnamePointer Crec.cnameTo
  rw [hsame]
  cases hcn : (s.crec d).flags.cname with
  | false => simp [hcn]
  | true =>
    cases hptr : (s.crec d).isNamePtr with
    | true => simp [hptr]
    | false =>
      cases htarget : (s.crec d).target with
      | none => simp [hcn, hptr, htarget]
      | some t =>
        by_cases ht : t = c
        · subst ht
          cases hst : (s.crec t).flags.isStatic with
          | true => simp [discard_crec, hst, hcn, hptr, htarget]
          | false =>
            have huid := haim hptr hcn (by simp [htarget])
            have hfree : (discard s t).crec t = (s.crec t).free := by simp [discard_crec, hst]
            simp [hfree, Crec.free, huid, hcn, hptr, htarget]
        · simp [discard_crec_of_ne s ht, ht, hcn, hptr, htarget]

theorem sift_sublist (now : ℤ) (s : State) (l : List CrecId) : (sift now s l).Sublist l := by
  induction l generalizing s with
  | nil => exact .refl _
  | cons c l ih =>
    rw [sift]
    split
    · exact (ih s).cons_cons c
    · exact (ih _).cons c

/-- The search keeps what is neither expired nor out of date, except for CNAMEs that point at a
record which it has freed before. -/
theorem mem_sift_iff (hl : (pre ++ d :: post).Nodup)
    (haim : ∀ e ∈ pre ++ d :: post, (s.crec e).isNamePtr = false → (s.crec e).Aimed) :
    d ∈ sift now s (pre ++ d :: post) ↔ isExpired now (s.crec d) = false ∧
    isOutdatedCnamePointer s d = false ∧
      ∀ t ∈ pre, t ∉ sift now s (pre ++ d :: post) → (s.crec t).flags.isStatic = false →
        (s.crec d).cnameTo t = false := by
  induction pre generalizing s with
  | nil =>
    have hpost : ∀ t : State, d ∉ sift now t post := fun t hm =>
      (nodup_cons.mp hl).1 ((sift_sublist now t post).subset hm)
    rw [nil_append, sift]
    split
    · rename_i hfresh
      simpa using hfresh
    · rename_i hstale
      simp only [not_mem_nil, false_imp_iff, implies_true, and_true, hpost, false_iff]
      simpa using hstale
  | cons c pre ih =>
    obtain ⟨hc, hl⟩ := nodup_cons.mp hl
    have hne : ∀ e ∈ pre ++ d :: post, e ≠ c := fun e he e' => hc (e' ▸ he)
    have hdc : d ≠ c := hne d (by simp)
    have hgone : ∀ t : State, c ∉ sift now t (pre ++ d :: post) :=
      fun t hm => hc ((sift_sublist now t _).subset hm)
    rw [cons_append, sift]
    split
    · rw [mem_cons, or_iff_right hdc, ih hl fun e he => haim e (mem_cons_of_mem c he)]
      refine and_congr_right fun _ => and_congr_right fun _ => ?_
      constructor
      · intro h t ht hkept
        rcases mem_cons.mp ht with rfl | ht
        · exact absurd mem_cons_self hkept
        · exact h t ht fun hm => hkept (mem_cons_of_mem c hm)
      intro h t ht hkept
      apply h t (mem_cons_of_mem c ht)
      rw [mem_cons, not_or]
      exact ⟨hne t (mem_append_left _ ht), hkept⟩
    have hsame : ∀ e ∈ pre ++ d :: post, (discard s c).crec e = s.crec e :=
      fun e he => discard_crec_of_ne s (hne e he)
    rw [ih hl fun e he => by
        rw [hsame e he]
        exact haim e (mem_cons_of_mem c he),
      hsame d (by simp), isOutdatedCnamePointer_discard hdc (haim d (by simp)), and_assoc]
    refine and_congr_right fun _ => and_congr_right fun _ => ?_
    constructor
    · rintro ⟨hcname, h⟩ t ht hkept
      rcases mem_cons.mp ht with rfl | ht
      · exact hcname
      · rw [← hsame t (mem_append_left _ ht)]
        exact h t ht hkept
    intro h
    refine ⟨h c mem_cons_self (hgone _), fun t ht hkept => ?_⟩
    rw [hsame t (mem_append_left _ ht)]
    exact h t (mem_cons_of_mem c ht) hkept

def nameAnswers (cfg : Config) (name : CString) (now : ℤ) (prot : Flags) (noRr : Bool) :
    ℕ → State → Option CrecId → Option (State × List CrecId)
  | 0, _, _ => none
  | k + 1, s, crecp => do
      let (s, found) ← cacheFindByName cfg s crecp name now prot noRr
      match found with
      | none => some (s, [])
      | some c => (nameAnswers cfg name now prot noRr k s (some c)).map fun r => (r.1, c :: r.2)

theorem nameAnswers_some (cfg : Config) (name : CString) (now : ℤ) (prot : Flags) (noRr : Bool)
    (s : State) (k : ℕ) (c : CrecId) : nameAnswers cfg name now prot noRr k s (some c) =
      (hitsFrom s.next (fun d => (s.crec d).answers name prot) k (s.next c)).map fun l =>
      (s, l) := by
  induction k generalizing c with
  | zero => rfl
  | succ k ih =>
    have hfind : cacheFindByName cfg s (some c) name now prot noRr =
        some (s, (s.next c).filter fun c => (s.crec c).answers name prot) := rfl
    rw [nameAnswers, hitsFrom, hfind]
    cases (s.next c).filter fun c => (s.crec c).answers name prot with
    | none => rfl
    | some d => simp [ih, comp_def]

theorem Threads.bucket_of_answers
    (h : Threads cfg s L ∅) {name : CString} {prot : Flags} {i : ℕ} (hd : d ∈ L.chain i)
    (hans : (s.crec d).answers name prot = true) : i = hashBucket cfg s.hashSize name := by
  simp only [Crec.answers, Bool.and_eq_true] at hans
  rw [← (h.place i d hd).1]
  exact hashBucket_congr cfg s.hashSize hans.2

theorem Threads.nameAnswers (h : Threads cfg s L ∅) (name : CString) (now : ℤ) (prot : Flags)
    (noRr : Bool) :
    ∃ s' L' stats front, nameAnswers cfg name now prot noRr (s.nextCrec + 2) s none =
      some (s', stats ++ front) ∧ Threads cfg s' L' ∅ ∧ (stats ++ front).Nodup ∧
      (∀ d, d ∈ stats ++ front ↔
        d ∈ sift now s (L.chain (hashBucket cfg s.hashSize name)) ∧
        (s.crec d).answers name prot = true) ∧
      (∀ d ∈ stats, (s.crec d).flags.isStatic = true) ∧
        (∀ d ∈ front, (s.crec d).flags.isStatic = false) ∧
      L'.chain (hashBucket cfg s.hashSize name) =
        arrange name prot s.crec noRr (sift now s (L.chain (hashBucket cfg s.hashSize name))) := by
  obtain ⟨s', L', ans, stats, front, back, hs', hR, hfound, hchain⟩ :=
    h.cacheFindByName name now prot noRr
  have hsheds := hR.sheds
  have hT := hR.threads
  have hnext : s'.nextCrec = s.nextCrec := hsheds.nextCrec
  have hsize : s'.hashSize = s.hashSize := hsheds.hashSize
  rw [hsize] at hfound
  have hcrec : ∀ d ∈ L'.chain (hashBucket cfg s.hashSize name), s'.crec d = s.crec d := fun d hd =>
    (hsheds.hashed d ⟨_, hd⟩).2
  have hkept : ∀ d, d ∈ L'.chain (hashBucket cfg s.hashSize name) ↔
      d ∈ sift now s (L.chain (hashBucket cfg s.hashSize name)) := by
    intro d
    rw [hchain, arrange]
    split
    · exact Iff.rfl
    · exact (moveUp_perm _ _ _).mem_iff
  have hlru : ∀ d ∈ L'.lru, (s'.crec d).answers name prot = true →
      d ∈ L'.chain (hashBucket cfg s.hashSize name) := by
    intro d hd hhit
    have huse : (s'.crec d).flags.inUse = true := by
      simp only [Crec.answers, Bool.and_eq_true] at hhit
      simp [Flags.inUse, hhit.1.1]
    have hm := hT.hashed d hd (Set.notMem_empty d) huse
    rw [← hsize, ← hT.bucket_of_answers hm hhit]
    exact hm
  obtain ⟨hall, hnodup⟩ := hfound.hitsFrom hT (fun d hd => ⟨_, hd⟩) hlru (k := s.nextCrec + 2)
    (hnext ▸ Nat.lt_add_of_pos_right Nat.two_pos)
  have hstatic : ∀ d ∈ L'.chain (hashBucket cfg s.hashSize name),
      ((s.crec d).flags.isStatic = true ↔ cfg.cachesize ≤ d) := by
    intro d hd
    rw [← hcrec d hd]
    exact (hT.place _ d hd).2.2.1.static_iff
  refine ⟨s', L', stats, front, ?_, hT, hnodup, fun d => ?_, fun d hd => ?_, fun d hd => ?_, hchain⟩
  · rw [hitsFrom] at hall
    rw [Cache.nameAnswers, hs']
    simp only [bind_eq_bind, bind_some, nameAnswers_some]
    cases hf : ans.filter fun c => (s'.crec c).answers name prot with
    | none =>
      rw [hf] at hall
      simp [← Option.some.inj hall]
    | some c =>
      rw [hf] at hall
      obtain ⟨l, hl, hcons⟩ := map_eq_some_iff.mp hall
      simp [hl, hcons]
  · rw [mem_append, hfound.mem_stats, hfound.mem_front, ← and_or_left, ← hkept]
    refine and_congr_right fun hd => ?_
    rw [hcrec d hd]
    rcases lt_or_ge d cfg.cachesize with hlt | hge
    · simp [hlt, not_le.mpr hlt]
    · simp [hge, not_lt.mpr hge]
  · obtain ⟨hd, hle, -⟩ := (hfound.mem_stats d).mp hd
    exact (hstatic d hd).mpr hle
  · obtain ⟨hd, hlt, -⟩ := (hfound.mem_front d).mp hd
    exact eq_false_of_ne_true fun hst => absurd hlt (not_lt.mpr ((hstatic d hd).mp hst))

section

variable (name : CString) (prot : Flags) (crec : CrecId → Crec) (noRr : Bool)

theorem arrange_perm (l : List CrecId) : (arrange name prot crec noRr l).Perm l := by
  unfold arrange
  split
  · exact .refl _
  · exact moveUp_perm _ _ _

theorem arrange_filter {x : CrecId} (hx : l.find? (fun d => (crec d).answers name prot) = some x) :
    (arrange name prot crec noRr l).filter (fun d => !goesUp name prot crec x d) =
      l.filter fun d => !goesUp name prot crec x d := by
  unfold arrange
  split
  · rfl
  · exact moveUp_filter _ _ hx

end

theorem foldl_cacheLink_frame (l : List CrecId) (s : State) :
    (l.foldl cacheLink s).crec = s.crec ∧ (l.foldl cacheLink s).hashSize = s.hashSize := by
  induction l generalizing s with
  | nil => exact ⟨rfl, rfl⟩
  | cons c l ih => exact ih (cacheLink s c)

theorem cacheInit_crec (h : cacheInit cfg = some s) (c : CrecId) : s.crec c = {} := by
  obtain ⟨hcrec, hsize⟩ := foldl_cacheLink_frame (List.range cfg.cachesize)
    { next := fun _ => none, prev := fun _ => none, head := none, tail := none
      bignamesLeft := cfg.cachesize / 10, nextCrec := cfg.cachesize }
  unfold cacheInit rehash at h
  rw [if_pos hsize] at h
  rw [← Option.some.inj h]
  exact congrFun hcrec c

/-- In every reachable state: the calls return each entry for the name that the search keeps, once,
and nothing else, those that are not from upstream first. The search keeps what is neither expired
nor out of date, except for a CNAME that points at a record it has freed on its way. It leaves a
permutation of what it keeps, in which only answers of the class of the first one have moved;
without an answer none has. -/
theorem run_nameAnswers (cfg : Config) (ops : List Op) (name : CString) (now : ℤ) (prot : Flags)
    (noRr : Bool) : ∃ (s s' : State) (kept stats front : List CrecId),
    (cacheInit cfg).bind (run cfg · ops) = some s ∧
      nameAnswers cfg name now prot noRr (s.nextCrec + 2) s none = some (s', stats ++ front) ∧
      (∀ i d, d ∈ s.chain i → (s.crec d).answers name prot = true →
        i = hashBucket cfg s.hashSize name) ∧
      kept.Sublist (s.chain (hashBucket cfg s.hashSize name)) ∧
      (∀ pre d post, s.chain (hashBucket cfg s.hashSize name) = pre ++ d :: post →
        (d ∈ kept ↔ isExpired now (s.crec d) = false ∧ isOutdatedCnamePointer s d = false ∧
          ∀ t ∈ pre, t ∉ kept → (s.crec t).flags.isStatic = false → (s.crec d).cnameTo t = false)) ∧
      (stats ++ front).Nodup ∧ (∀ d, d ∈ stats ++ front ↔
        d ∈ kept ∧ (s.crec d).answers name prot = true) ∧
      (∀ d ∈ stats, (s.crec d).flags.isStatic = true) ∧
        (∀ d ∈ front, (s.crec d).flags.isStatic = false) ∧
      (s'.chain (hashBucket cfg s.hashSize name)).Perm kept ∧
      (kept.find? (fun d => (s.crec d).answers name prot) = none →
        s'.chain (hashBucket cfg s.hashSize name) = kept) ∧
      ∀ x, kept.find? (fun d => (s.crec d).answers name prot) = some x →
        (s'.chain (hashBucket cfg s.hashSize name)).filter (fun d => !goesUp name prot s.crec x d) =
          kept.filter fun d => !goesUp name prot s.crec x d := by
  obtain ⟨s₀, L₀, hinit, hT₀, -⟩ := cacheInit_threads cfg
  have haim₀ : (s₀.view L₀).Aimed cfg := by
    intro c _ hcn
    rw [State.crec_view, cacheInit_crec hinit] at hcn
    cases hcn
  obtain ⟨s, L, hs, hT, haim⟩ :=
    hT₀.run_invariant (I := fun s L => (s.view L).Aimed cfg) (K := fun _ _ => True) haim₀
    (fun _ hI _ heff => heff.aimed hI) ops (meets_true cfg s₀ ops)
  obtain ⟨s', L', stats, front, hans, hT', hnodup, hmem, hstats, hfront, hchain⟩ :=
    hT.nameAnswers name now prot noRr
  refine ⟨s, s', sift now s (s.chain (hashBucket cfg s.hashSize name)), stats,
    front, by rw [hinit]; exact hs, hans,
    fun i d hd hhit => ?_, sift_sublist _ _ _, fun pre d post hsplit => ?_, hnodup, ?_,
    hstats, hfront, ?_, fun hx => ?_, fun x hx => ?_⟩
  · rw [hT.chain_eq] at hd
    exact hT.bucket_of_answers hd hhit
  · rw [hsplit]
    rw [hT.chain_eq] at hsplit
    apply mem_sift_iff
    · rw [← hsplit]
      exact (hT.hash _).nodup
    intro e he hptr
    rw [← hsplit] at he
    rcases lt_or_ge e cfg.cachesize with hlt | hge
    · exact haim e hlt
    intro hcn
    have := ((hT.place _ e he).2.2.1.other hge).2.2.2.2.1 hcn
    rw [hptr] at this
    cases this
  · rw [hT.chain_eq]
    exact hmem
  · rw [hT'.chain_eq, hchain, hT.chain_eq]
    exact arrange_perm _ _ _ _ _
  · rw [hT.chain_eq] at hx ⊢
    rw [hT'.chain_eq, hchain, arrange, moveUp_eq_self _ _ hx, ite_self]
  · rw [hT.chain_eq] at hx ⊢
    rw [hT'.chain_eq, hchain]
    exact arrange_filter _ _ _ _ hx

theorem upstream_forwardCname : ({ forward := true, cname := true } : Flags).upstream = true := rfl

/-- The alias `p` of `0`, which has an address for a shorter time; then the address comes again. The
names have the same hash value. -/
def aliasOfShortLived : List Op :=
  let cname : Insert :=
    { name := some [112], ttl := 3600, flags := { forward := true, cname := true }
      upstream := upstream_forwardCname }
  let addr : Insert :=
    { name := some [48], addr := some [1, 2, 3, 4], ttl := 60
      flags := { forward := true, ipv4 := true }, upstream := upstream_forward4 }
  [.startInsert, .insert cname, .insert addr, .linkCname 0 1, .endInsert, .startInsert,
    .insert addr, .endInsert]

/-- The address, which has expired, now stands in front of the CNAME, which has not and is not out
of date. It is not found, since the search frees the address first. -/
theorem run_aliasOfShortLived :
    ∃ s s', (cacheInit { cachesize := 4 }).bind (run { cachesize := 4 } · aliasOfShortLived) =
      some s ∧ 0 ∈ s.chain (hashBucket { cachesize := 4 } s.hashSize [112]) ∧
      isExpired 100 (s.crec 0) = false ∧
      isOutdatedCnamePointer s 0 = false ∧ (s.crec 0).answers [112] { cname := true } = true ∧
      nameAnswers { cachesize := 4 } [112] 100 { cname := true } false (s.nextCrec + 2) s none =
      some (s', []) ∧ s'.chain (hashBucket { cachesize := 4 } s.hashSize [112]) = [] := by
  have h :
      (((cacheInit { cachesize := 4 }).bind (run { cachesize := 4 } · aliasOfShortLived)).any
        fun s =>
      decide (0 ∈ s.chain (hashBucket { cachesize := 4 } s.hashSize [112])) &&
        !isExpired 100 (s.crec 0) && !isOutdatedCnamePointer s 0 &&
        (s.crec 0).answers [112] { cname := true } &&
        (nameAnswers { cachesize := 4 } [112] 100 { cname := true } false (s.nextCrec + 2)
          s none).any fun r =>
          decide (r.2 = []) && decide (r.1.chain (hashBucket { cachesize := 4 } s.hashSize [112]) =
            [])) = true := by
    decide +kernel
  obtain ⟨s, hs, hall⟩ := (Option.any_eq_true _ _).mp h
  simp only [Bool.and_eq_true, decide_eq_true_eq, Bool.not_eq_true'] at hall
  obtain ⟨⟨⟨⟨hmem, hexp⟩, hout⟩, hans⟩, hany⟩ := hall
  obtain ⟨⟨s', ans⟩, hr, hany⟩ := (Option.any_eq_true _ _).mp hany
  simp only [Bool.and_eq_true, decide_eq_true_eq] at hany
  obtain ⟨rfl, hchain⟩ := hany
  exact ⟨s, s', hs, hmem, hexp, hout, hans, hr, hchain⟩

theorem Effect.reload_static {d : LocalData} (h : Effect cfg (.reload d) s L s' L')
    (hc : L'.Hashed c) : cfg.cachesize ≤ c := by
  obtain ⟨s₁, L₁, hR₁, hdhcp, -, hR⟩ := h
  by_contra hlt
  obtain ⟨i, hi⟩ := (hR.pool (not_le.mp hlt) hc).1
  have hstatic : (s₁.crec c).flags.isStatic = true := by simp [Flags.isStatic, hdhcp c ⟨i, hi⟩]
  exact hlt ((hR₁.threads.place i c hi).2.2.1.static_iff.mp hstatic)

/-- Whatever was in the cache, after a reload the search for a name finds local data only. -/
theorem run_reload_local (cfg : Config) (ops : List Op) (d : LocalData) (name : CString) (now : ℤ)
    (prot : Flags) (noRr : Bool) :
    ∃ s s₁ s₂ answers, (cacheInit cfg).bind (run cfg · ops) = some s ∧
      step cfg s (.reload d) = some s₁ ∧
      nameAnswers cfg name now prot noRr (s₁.nextCrec + 2) s₁ none = some (s₂, answers) ∧
      ∀ c ∈ answers, (s₁.crec c).flags.isStatic = true := by
  obtain ⟨s, L, hs, hT⟩ := run_threads cfg ops
  obtain ⟨s₁, L₁, hs₁, heff⟩ := hT.step (.reload d)
  obtain ⟨s₂, L₂, stats, front, hans, -, -, hmem, -⟩ := heff.threads.nameAnswers name now prot noRr
  refine ⟨s, s₁, s₂, stats ++ front, hs, hs₁, hans, fun c hc => ?_⟩
  have hchain := (sift_sublist now s₁ _).subset ((hmem c).mp hc).1
  exact (heff.threads.place _ c hchain).2.2.1.static_iff.mpr (heff.reload_static ⟨_, hchain⟩)

end Dnsmasq.Cache
