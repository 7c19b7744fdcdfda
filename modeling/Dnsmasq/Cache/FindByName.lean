import Dnsmasq.Cache.Find
import Dnsmasq.Lib.Rotation

/-!
`cache_find_by_name`, which also rotates the answers within their chain.
-/
namespace Dnsmasq.Cache

open List Lib Function

variable {cfg : Config} {s s' t : State} {L L' M : Lists} {i : ℕ} {c d : CrecId}
  {pre rest : List CrecId} {q : CString → Prop}

variable {name : CString} {now : ℤ} {prot : Flags} {noRr : Bool} {rot : Rotation}

/-- The records a search along a chain leaves in it. What it frees may be the target of a CNAME
that it comes to later. -/
def sift (now : ℤ) : State → List CrecId → List CrecId
  | _, [] => []
  | s, c :: l =>
    if !isExpired now (s.crec c) && !isOutdatedCnamePointer s c then c :: sift now s l
    else sift now (discard s c) l

theorem discard_crec_congr (h : s'.crec = s.crec) (c : CrecId) :
    (discard s' c).crec = (discard s c).crec := by
  unfold discard
  rw [h]
  split
  · exact h
  · change update s'.crec c _ = update s.crec c _
    simp only [cacheUnlink, h]

theorem sift_congr (now : ℤ) (h : s'.crec = s.crec) (l : List CrecId) :
    sift now s' l = sift now s l := by
  induction l generalizing s s' with
  | nil => rfl
  | cons c l ih =>
    simp only [sift, isOutdatedCnamePointer, h, ih h, ih (discard_crec_congr h c)]
    rfl

section Arrangement

variable (name : CString) (prot : Flags) (crec : CrecId → Crec)

/-- Entries that may change places: `F_REVERSE` and `F_IMMORTAL` order a chain. -/
def sameClass (d x : CrecId) : Bool :=
  (crec d).flags.reverse == (crec x).flags.reverse && (crec d).flags.immortal ==
    (crec x).flags.immortal

/-- The answer `d` goes to the place in front of `x`, the first one. -/
def goesUp (x d : CrecId) : Bool := (crec d).answers name prot && sameClass crec d x

def arrange (noRr : Bool) (l : List CrecId) : List CrecId :=
  if noRr then l else moveUp (fun d => (crec d).answers name prot) (sameClass crec) l

/-- Behind `pre` in the chain, what is kept of the rest will be arranged by `arr`: there is no
answer yet to move others up to, or the next one goes in front of `x`. -/
inductive Rotation.Ok (noRr : Bool) (rot : Rotation) :
    List CrecId → (List CrecId → List CrecId) → Prop
  | start {pre : List CrecId} (hins : rot.insert = none) : Ok noRr rot pre fun l =>
    pre ++ arrange name prot crec noRr l
  | going {front mid : List CrecId} {x : CrecId} (hins : rot.insert = some front.getLast?)
      (hrev : rot.insReverse = (crec x).flags.reverse) (himm : rot.insImmortal =
        (crec x).flags.immortal) :
      Ok noRr rot (front ++ x :: mid) fun l =>
        front ++ l.filter (goesUp name prot crec x) ++ x :: mid ++ l.filter fun d =>
          !goesUp name prot crec x d

end Arrangement

section Ok

variable {crec : CrecId → Crec} {arr : List CrecId → List CrecId}

theorem arrange_cons_of_answers (hc : (crec c).answers name prot = true) (l : List CrecId) :
    arrange name prot crec false (c :: l) =
      l.filter (goesUp name prot crec c) ++ c :: l.filter fun d => !goesUp name prot crec c d := by
  rw [arrange, moveUp, if_pos hc]
  rfl

section

variable (h : rot.Ok name prot crec noRr pre arr)
include h

theorem Rotation.Ok.nil : arr [] = pre := by
  cases h with
  | start => cases noRr <;> simp [arrange, moveUp]
  | going => simp

theorem Rotation.Ok.answers (a : Answers) :
    Rotation.Ok name prot crec noRr { rot with answers := a } pre arr := by
  cases h with
  | start hins => exact .start hins
  | going hins hrev himm => exact .going hins hrev himm

theorem Rotation.Ok.pass
    (hc : (crec c).answers name prot = false ∨ noRr = true ∧ rot.insert = none ∨
      ∃ p, rot.insert = some p ∧ ((crec c).flags.reverse = rot.insReverse ∧
        (crec c).flags.immortal = rot.insImmortal → False)) :
    ∃ arr', rot.Ok name prot crec noRr (pre ++ [c]) arr' ∧ ∀ l, arr' l = arr (c :: l) := by
  cases h with
  | start hins =>
    refine ⟨_, .start hins, fun l => ?_⟩
    rcases hc with hc | ⟨rfl, -⟩ | ⟨p, hp, -⟩
    · cases noRr <;> simp [arrange, moveUp, hc]
    · simp [arrange]
    · rw [hins] at hp
      cases hp
  | @going front mid x hins hrev himm =>
    have hstay : goesUp name prot crec x c = false := by
      unfold goesUp sameClass
      rcases hc with hc | ⟨-, hnone⟩ | ⟨p, -, hne⟩
      · rw [hc, Bool.false_and]
      · rw [hins] at hnone
        cases hnone
      rw [← hrev, ← himm]
      simp only [Bool.and_eq_false_iff, beq_eq_false_iff_ne]
      by_cases hr : (crec c).flags.reverse = rot.insReverse
      · exact .inr (.inr fun hm => hne ⟨hr, hm⟩)
      · exact .inr (.inl hr)
    have hpre : front ++ x :: mid ++ [c] = front ++ x :: (mid ++ [c]) := by simp
    rw [hpre]
    refine ⟨_, .going hins hrev himm, fun l => ?_⟩
    simp [hstay]

end

end Ok

theorem Threads.rotate (now : ℤ) (h : Threads cfg s L ∅) {front mid : List CrecId} {x : CrecId}
    (hi : L.chain i = front ++ x :: mid ++ c :: rest) (hr : (s.crec c).flags.reverse =
      (s.crec x).flags.reverse)
    (hm : (s.crec c).flags.immortal = (s.crec x).flags.immortal) (hq : q (s.crec c).name)
    (ht : t = s.store i (front ++ x :: mid).getLast? rest.head?) : Reaches cfg (Searching now q) s L
      ({ t with hashNext := update t.hashNext c (t.load i front.getLast?) }.store i
        front.getLast? (some c))
      (L.setChain i (front ++ c :: x :: mid ++ rest)) := by
  have hc : c ∈ L.chain i := by simp [hi]
  obtain ⟨hbucket, hlt, hok, hlru⟩ := h.place i c hc
  have hord := h.order i
  rw [hi, append_assoc] at hord
  obtain ⟨-, hback, hfront⟩ := pairwise_append.mp hord
  have hsplit : (L.setChain i (front ++ x :: mid ++ rest)).chain i =
      front ++ (x :: mid ++ rest) := by
    rw [Threads.setChain_self, append_assoc]
  have hnext : s.hashNext c = rest.head? := by
    have hchain := h.hash i
    rw [hi] at hchain
    exact hchain.from_cell.2.head?.symm
  have h1 := h.unhash hi
  have hgone := h.not_hashed_of_unhash hi
  rw [hnext, ← ht] at h1
  have hcrec : t.crec = s.crec := by rw [ht]; rfl
  have hload := h1.load_eq hsplit
  have hbehind : ∀ b ∈ mid ++ rest, (s.crec b).flags.reverse = true →
      (s.crec x).flags.reverse = true := by
    intro b hb
    apply (pairwise_cons.mp hback).1 b
    rcases mem_append.mp hb with hb | hb
    · exact mem_append_left _ hb
    · exact mem_append_right _ (mem_cons_of_mem c hb)
  have h2 := h1.hashAt (c := c) rfl hgone (by rw [hcrec]; exact hok)
    (show bucketOf cfg t c = i by rw [ht]; exact hbucket) hsplit
    (fun hrev a ha => by
      rw [hcrec] at hrev ⊢
      rw [hr] at hrev
      exact hfront a ha x (mem_append_left _ mem_cons_self) hrev)
    (fun hrev b hb => by
      rw [hcrec] at hrev ⊢
      rcases mem_cons.mp hb with rfl | hb
      · rw [← hr, hrev]
      by_contra hne
      have := hbehind b hb (by simpa using hne)
      rw [← hr, hrev] at this
      cases this)
  have hlists : (L.setChain i (front ++ x :: mid ++ rest)).setChain i
      (front ++ c :: (x :: mid ++ rest)) = L.setChain i (front ++ c :: x :: mid ++ rest) := by
    unfold Lists.setChain
    simp
  rw [hload]
  rw [hlists] at h2
  constructor
  · refine h2.putDown (fun hp => hlru hp (Set.notMem_empty c)) fun _ _ => ?_
    have hb :
        bucketOf cfg ({ t with hashNext := update t.hashNext c (x :: mid ++ rest).head? }.store i
        front.getLast? (some c)) c = i := by
      rw [ht]
      exact hbucket
    rw [hb, Threads.setChain_self]
    simp
  have hview : ({ t with hashNext := update t.hashNext c (x :: mid ++ rest).head? }.store i
      front.getLast? (some c)).view (L.setChain i (front ++ c :: x :: mid ++ rest)) =
      (s.view L).setList i (front ++ c :: x :: mid ++ rest) := by
    rw [ht]
    rfl
  rw [hview]
  exact (Move.rotate (v := s.view L) hi hr hm).moves hq

section Finding

variable {crec : CrecId → Crec} {arr arr' : List CrecId → List CrecId} {rot' : Rotation}

/-- The search has come to `rest`, behind `pre`; what it keeps of that will be arranged by `arr`. -/
structure Finding (cfg : Config) (name : CString) (prot : Flags) (noRr : Bool) (crec : CrecId →
    Crec) (i : ℕ) (s : State)
    (L : Lists) (rot : Rotation) (pre rest : List CrecId) (arr : List CrecId → List CrecId) :
    Prop where
  threads : Threads cfg s L ∅
  chain : L.chain i = pre ++ rest
  same : ∀ d ∈ L.chain i, s.crec d = crec d
  answered : Answered cfg (Crec.answers · name prot) s rot.answers L (· ∈ pre)
  place : rot.Ok name prot crec noRr pre arr

section

variable (hF : Finding cfg name prot noRr crec i s L rot pre (c :: rest) arr)
include hF

theorem Finding.pass (hT : Threads cfg t M ∅) (hM : M.chain i = L.chain i) (ht : t.crec = s.crec)
    (hA : Answered cfg (Crec.answers · name prot) t rot'.answers M (· ∈ pre ++ [c]))
    (hrot : rot'.Ok name prot crec noRr (pre ++ [c]) arr') :
    Finding cfg name prot noRr crec i t M rot' (pre ++ [c]) rest arr' where
  threads := hT
  chain := by rw [hM, hF.chain]; simp
  same := by rw [hM, ht]; exact hF.same
  answered := hA
  place := hrot

theorem Finding.skip
    (hc : ¬(s.crec c).answers name prot = true)
    (hrot : rot.Ok name prot crec noRr (pre ++ [c]) arr') :
    Finding cfg name prot noRr crec i s L rot (pre ++ [c]) rest arr' := by
  refine hF.pass hF.threads rfl rfl ?_ hrot
  refine hF.answered.congr (fun _ _ _ => rfl) (fun _ _ => rfl) (fun front back hl _ => ⟨back, hl⟩)
    (fun d => ?_) fun d hd => ⟨i, ?_⟩
  · rw [mem_append, mem_singleton]
    constructor
    · rintro ⟨hd | rfl, hh⟩
      · exact ⟨hd, hh⟩
      · exact absurd hh hc
    · rintro ⟨hd, hh⟩
      exact ⟨.inl hd, hh⟩
  · rw [hF.chain, ← singleton_append, ← append_assoc]
    exact mem_append_left rest hd

end

theorem Finding.moveUp {front mid : List CrecId} {x : CrecId} {a : Answers} (hT : Threads cfg s L ∅)
    (hi : L.chain i = front ++ x :: mid ++ c :: rest) (hsame : ∀ d ∈ L.chain i, s.crec d = crec d)
    (hA : Answered cfg (Crec.answers · name prot) s a L (· ∈ front ++ x :: mid ++ [c]))
    (hans : (crec c).answers name prot = true)
    (hr : (crec c).flags.reverse = rot.insReverse) (hm : (crec c).flags.immortal = rot.insImmortal)
    (hrev : rot.insReverse = (crec x).flags.reverse) (himm : rot.insImmortal =
      (crec x).flags.immortal)
    (ht : t = s.store i (front ++ x :: mid).getLast? rest.head?)
    (ht' : s' = { t with hashNext := update t.hashNext c (t.load i front.getLast?) }.store i
      front.getLast? (some c)) :
    s'.crec = s.crec ∧ ∃ M, Reaches cfg (Searching now (hostnameIsequal · name = true)) s L s' M ∧
      Finding cfg name prot noRr crec i s' M { rot with answers := a, insert := some (some c) }
      (front ++ [c] ++ x :: mid) rest
        fun l => front ++ [c] ++ l.filter (goesUp name prot crec x) ++ x :: mid ++ l.filter fun d =>
        !goesUp name prot crec x d := by
  have hc : s.crec c = crec c := hsame c (by simp [hi])
  have hx : s.crec x = crec x := hsame x (by simp [hi])
  have hname : hostnameIsequal (s.crec c).name name = true := by
    rw [hc]
    simp only [Crec.answers, Bool.and_eq_true] at hans
    exact hans.2
  have hR := hT.rotate now hi (by rw [hc, hx, hr, hrev]) (by rw [hc, hx, hm, himm])
    (q := (hostnameIsequal · name = true)) hname ht
  rw [← ht'] at hR
  have hcrec : s'.crec = s.crec := by rw [ht', ht]; rfl
  have hpre : front ++ c :: x :: mid = front ++ [c] ++ x :: mid := by simp
  have hpos : ∀ d, d ∈ front ++ [c] ++ x :: mid ↔ d ∈ front ++ x :: mid ++ [c] := by
    simp only [mem_append, mem_cons]
    tauto
  have hself := Threads.setChain_self L i (front ++ c :: x :: mid ++ rest)
  refine ⟨hcrec, _, hR,
    hR.threads, by rw [hself, hpre], fun d hd => ?_, ?_, .going (by simp) hrev himm⟩
  · rw [hcrec]
    apply hsame d
    rw [hself, hpre, mem_append, hpos] at hd
    simpa [hi, or_assoc] using hd
  refine hA.congr (fun d _ _ => by rw [ht', ht]; rfl) (fun _ _ => by rw [hcrec])
    (fun front back hl _ => ⟨back, hl⟩) (fun d => and_congr_left fun _ => hpos d)
    fun d hd => ⟨i, ?_⟩
  rw [hself, hpre]
  exact mem_append_left rest hd

theorem Finding.step (hF : Finding cfg name prot noRr crec i s L rot pre (c :: rest) arr)
    (now : ℤ) (k : ℕ) : ∃ t M rot' pre' arr',
    findLoop name now prot noRr i (k + 1) s rot pre.getLast? (some c) =
        findLoop name now prot noRr i k t rot' pre'.getLast? rest.head? ∧
      Reaches cfg (Searching now (hostnameIsequal · name = true)) s L t M ∧
      Finding cfg name prot noRr crec i t M rot' pre' rest arr' ∧
        arr' (sift now t rest) = arr (sift now s (c :: rest)) := by
  obtain ⟨h, hi, hsame, hA, hrot⟩ := id hF
  have hc : c ∈ L.chain i := by simp [hi]
  have hnot : c ∉ pre := fun hp => h.not_passed hi (.inl hp)
  have hnext : s.hashNext c = rest.head? := by
    have hchain := h.hash i
    rw [hi] at hchain
    exact hchain.from_cell.2.head?.symm
  have hlast : (pre ++ [c]).getLast? = some c := by simp
  rw [findLoop]
  simp only [hnext]
  split
  · rename_i hfresh
    have hsift : sift now s (c :: rest) = c :: sift now s rest := by rw [sift, if_pos hfresh]
    split
    · -- an answer
      rename_i hhit
      have hans : (crec c).answers name prot = true := by rw [← hsame c hc]; exact hhit
      obtain ⟨L1, hR1, hchain, hframe, hA1⟩ := hA.add h hc hnot hhit
      have hR1 : Reaches cfg (Searching now (hostnameIsequal · name = true)) s L _ L1 := hR1
      have hA1' : Answered cfg (Crec.answers · name prot)
          (rot.answers.add s c).1 (rot.answers.add s c).2 L1 (· ∈ pre ++ [c]) := by
        rw [show (· ∈ pre ++ [c]) = fun d => d ∈ pre ∨ d = c from funext fun d => by simp]
        exact hA1
      have hs1 : (rot.answers.add s c).1.crec = s.crec := by rw [hframe]
      have hL1 : L1.chain i = L.chain i := by rw [hchain]
      have hsift1 := sift_congr now hs1 rest
      split
      · rename_i p hp
        split
        · rename_i hflags
          rw [hsame c hc] at hflags
          cases hrot with
          | start hins =>
            rw [show rot.insert = some p from hp] at hins
            cases hins
          | @going front mid x hins hrev himm =>
            obtain rfl : p = front.getLast? := Option.some.inj (hp.symm.trans hins)
            have hup : goesUp name prot crec x c = true := by
              simp only [goesUp, sameClass, hans, hflags.1, hflags.2, Bool.true_and,
                Bool.and_eq_true, beq_iff_eq]
              exact ⟨hrev, himm⟩
            obtain ⟨hs2, M, hR2, hF2⟩ := Finding.moveUp hR1.threads (hL1.trans hi)
              (by rw [hL1, hs1]; exact hsame) hA1' hans hflags.1 hflags.2 hrev himm rfl rfl
            refine ⟨_, M, _, _, _, ?_, hR1.trans hR2, hF2, ?_⟩
            · rw [show (front ++ [c] ++ x :: mid).getLast? = (front ++ x :: mid).getLast? by simp]
            · rw [hsift, sift_congr now (hs2.trans hs1)]
              simp [hup]
        rename_i hflags
        rw [hsame c hc] at hflags
        obtain ⟨arr', hrot', harr⟩ := hrot.pass (.inr (.inr ⟨p, hp, hflags⟩))
        exact ⟨_, _, _, _,
          arr', by rw [hlast], hR1, hF.pass hR1.threads hL1 hs1 hA1' (hrot'.answers _),
          by rw [harr, hsift, hsift1]⟩
      rename_i hp
      cases hno : noRr with
      | true =>
        subst hno
        obtain ⟨arr', hrot', harr⟩ := hrot.pass (c := c) (.inr (.inl ⟨rfl, hp⟩))
        exact ⟨_, _, _, _,
          arr', by rw [hlast]; rfl, hR1, hF.pass hR1.threads hL1 hs1 hA1' (hrot'.answers _),
          by rw [harr, hsift, hsift1]⟩
      | false =>
        subst hno
        cases hrot with
        | start hins =>
          rw [if_neg Bool.false_ne_true]
          refine ⟨_, _, _, _, _, by rw [hlast], hR1, hF.pass hR1.threads hL1 hs1 hA1'
            (.going rfl (by rw [hsame c hc]) (by rw [hsame c hc])), ?_⟩
          rw [hsift, hsift1]
          simp [arrange_cons_of_answers hans]
        | going hins =>
          rw [show rot.insert = none from hp] at hins
          cases hins
    rename_i hhit
    have hans : (crec c).answers name prot = false := by
      rw [← hsame c hc]
      exact eq_false_of_ne_true hhit
    obtain ⟨arr', hrot', harr⟩ := hrot.pass (c := c) (.inl hans)
    exact ⟨_, _, _, _, arr', by rw [hlast], .refl h, hF.skip hhit hrot', by rw [harr, hsift]⟩
  -- what is out of date leaves the chain
  rename_i hold
  have hexp : cfg.cachesize ≤ c → isExpired now (s.crec c) = true := by
    intro hle
    simpa [(h.place i c hc).2.2.1.not_outdated hle] using hold
  obtain ⟨L1, hR1, hchain, hA1⟩ := hA.discard (q := (hostnameIsequal · name = true)) h hi hnot hexp
  rw [hnext] at hR1 hA1
  have hi1 : L1.chain i = pre ++ rest := by rw [hchain, Threads.setChain_self]
  refine ⟨_, L1, rot, pre, arr, rfl, hR1, ⟨hR1.threads, hi1, fun d hd => ?_, hA1, hrot⟩, ?_⟩
  · refine ((hR1.sheds.hashed d ⟨i, hd⟩).2).trans (hsame d ?_)
    rw [hi1] at hd
    rw [hi]
    simp only [mem_append, mem_cons] at hd ⊢
    tauto
  rw [sift, if_neg hold]
  refine congrArg arr (sift_congr now ?_ rest)
  apply discard_crec_congr
  rfl

theorem Finding.findLoop {k : ℕ} (hk : rest.length ≤ k)
    (hF : Finding cfg name prot noRr crec i s L rot pre rest arr) :
    ∃ s' a L', findLoop name now prot noRr i k s rot pre.getLast? rest.head? = some (s', a) ∧
      Reaches cfg (Searching now (hostnameIsequal · name = true)) s L s' L' ∧
      Answered cfg (Crec.answers · name prot) s' a L' (· ∈ L'.chain i) ∧
      L'.chain i = arr (sift now s rest) := by
  induction k generalizing s L pre rest rot arr with
  | zero =>
    obtain rfl := length_eq_zero_iff.mp (Nat.le_zero.mp hk)
    have hi := hF.chain
    rw [append_nil] at hi
    exact ⟨s, rot.answers, L, rfl, .refl hF.threads, hi ▸ hF.answered, hi.trans hF.place.nil.symm⟩
  | succ k ih =>
    cases rest with
    | nil =>
      have hi := hF.chain
      rw [append_nil] at hi
      exact ⟨s, rot.answers, L, rfl, .refl hF.threads, hi ▸ hF.answered, hi.trans hF.place.nil.symm⟩
    | cons c rest =>
      obtain ⟨t, M, rot', pre', arr', hstep, hR, hF', harr⟩ := hF.step now k
      obtain ⟨s', a, L', hs', hR', hA', hL'⟩ := ih (by simpa using hk) hF'
      exact ⟨s', a, L', hstep.trans hs', hR.trans hR', hA', hL'.trans harr⟩

end Finding

/-- A new search by name finds every entry for it that is left. -/
theorem Threads.cacheFindByName
    (h : Threads cfg s L ∅) (name : CString) (now : ℤ) (prot : Flags) (noRr : Bool) :
    ∃ s' L' ans stats front back, cacheFindByName cfg s none name now prot noRr =
        some (s', ans.filter fun c => (s'.crec c).answers name prot) ∧
      Reaches cfg (Searching now (hostnameIsequal · name = true)) s L s' L' ∧
      Found cfg (Crec.answers · name prot) s' L' (· ∈ L'.chain (hashBucket cfg s'.hashSize name))
        ans stats front back ∧
      L'.chain (hashBucket cfg s.hashSize name) =
        arrange name prot s.crec noRr (sift now s (L.chain (hashBucket cfg s.hashSize name))) := by
  have hstart : Answered cfg (Crec.answers · name prot) s {} L (· ∈ ([] : List CrecId)) := by
    have hnone : (· ∈ ([] : List CrecId)) = fun _ => False := by
      simp
    rw [hnone]
    exact Answered.start cfg _ s L
  have hhead : s.table (hashBucket cfg s.hashSize name) =
      (L.chain (hashBucket cfg s.hashSize name)).head? :=
    (h.hash _).head?.symm
  obtain ⟨s1, a, L1, hs1, hR1, hA1, hchain⟩ :=
    @Finding.findLoop cfg s L (hashBucket cfg s.hashSize name) []
    (L.chain (hashBucket cfg s.hashSize name)) name now prot noRr {}
      s.crec _ s.nextCrec (h.chain_length _)
    ⟨h, rfl, fun _ _ => rfl, hstart, .start rfl⟩
  have hsize : s1.hashSize = s.hashSize := hR1.sheds.hashSize
  obtain ⟨hR2, stats, front, back, hF⟩ :=
    hA1.found (q := (hostnameIsequal · name = true)) hR1.threads
  have hsize2 : (a.put s1 s1.head).1.hashSize = s.hashSize := by
    rw [put_frame]
    exact hsize
  refine ⟨(a.put s1 s1.head).1, L1, (a.put s1 s1.head).2.ans, stats, front, back, ?_,
    hR1.trans hR2, ?_, hchain⟩
  · unfold Cache.cacheFindByName
    rw [← hhead] at hs1
    simp only [Option.bind_eq_bind]
    rw [getLast?_nil] at hs1
    rw [hs1]
    rfl
  · rw [hsize2]
    exact hF

end Dnsmasq.Cache
