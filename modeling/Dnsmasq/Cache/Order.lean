import Dnsmasq.Cache.Runs

/-!
The order of the chains: reverse entries, then other mortal ones, then immortal ones, and which
moves keep it.
-/
namespace Dnsmasq.Cache

open List Option Lib

variable {cfg : Config} {s s' : State} {L L' : Lists} {i : ℕ} {c : CrecId} {v w : View} {a : Action}

def State.chain (s : State) (i : ℕ) : List CrecId := follow s.hashNext s.nextCrec (s.table i)

theorem Threads.chain_eq {hand : Set CrecId} (h : Threads cfg s L hand) (i : ℕ) :
    s.chain i = L.chain i :=
  (h.hash i).follow_eq (h.chain_length i)

def State.Ordered (s : State) : Prop :=
  ∀ i, (s.chain i).Pairwise fun a b => View.rank (s.crec a).flags ≤ View.rank (s.crec b).flags

theorem Threads.ordered_iff (h : Threads cfg s L ∅) : s.Ordered ↔ (s.view L).Ordered := by
  unfold State.Ordered
  simp only [h.chain_eq]
  exact Iff.rfl

theorem View.Ordered.of_sublist (h : v.Ordered) (hsub : ∀ i, (w.chain i).Sublist (v.chain i))
    (hflags : ∀ c, w.Hashed c → (w.crec c).flags = (v.crec c).flags) : w.Ordered := by
  intro i
  refine ((h i).sublist (hsub i)).imp_of_mem fun ha hb hle => ?_
  rwa [hflags _ ⟨i, ha⟩, hflags _ ⟨i, hb⟩]

variable {pre rest : List CrecId}

theorem View.sublist_setList (h : v.chain i = pre ++ c :: rest) (j : ℕ) :
    ((v.setList i (pre ++ rest)).chain j).Sublist (v.chain j) := by
  by_cases hj : j = i
  · subst hj
    rw [View.setList_self, h]
    exact (sublist_cons_self c rest).append_left pre
  · rw [View.setList_of_ne _ hj]

theorem View.Ordered.setCrec (h : v.Ordered) (hc : ¬v.Hashed c) (r : Crec) :
    (v.setCrec c r).Ordered := by
  refine h.of_sublist (fun _ => List.Sublist.refl _) fun d hd => ?_
  rw [View.setCrec_of_ne]
  rintro rfl
  exact hc hd

variable {r : Crec}

theorem View.Ordered.setCrec_flags (h : v.Ordered) (hr : r.flags = (v.crec c).flags) :
    (v.setCrec c r).Ordered := by
  refine h.of_sublist (fun _ => List.Sublist.refl _) fun d _ => ?_
  by_cases hd : d = c
  · subst hd
    rw [View.setCrec_self, hr]
  · rw [View.setCrec_of_ne _ hd]

theorem View.nextUid_chain (v : View) (c : CrecId) : (v.nextUid c).chain = v.chain := by
  unfold View.nextUid
  split <;> rfl

theorem View.nextUid_flags (v : View) (c d : CrecId) :
    ((v.nextUid c).crec d).flags = (v.crec d).flags := by
  unfold View.nextUid
  split
  · by_cases hd : d = c
    · subst hd
      simp [View.setCrec]
    · simp [View.setCrec, Function.update_of_ne hd]
  · rfl

/-- Only immortal records stand behind the record, unless it is a reverse one. -/
def View.LastMortal (v : View) (c : CrecId) : Prop :=
  ∀ i pre rest, v.chain i = pre ++ c :: rest → (v.crec c).flags.reverse = true ∨
    ∀ d ∈ rest, (v.crec d).flags.immortal = true

theorem View.rank_immortal_le {f g : Flags} (h : View.rank f ≤ View.rank g)
    (hg : g.immortal = true) : View.rank { f with immortal := true } ≤ View.rank g := by
  unfold View.rank at h ⊢
  cases hf : f.reverse <;> cases hr : g.reverse <;> cases hi : f.immortal <;> simp_all

theorem View.Ordered.immortalise (h : v.Ordered) (hc : v.LastMortal c) :
    (v.setCrec c { v.crec c with flags := { (v.crec c).flags with immortal := true }
                                   }).Ordered := by
  intro i
  have hrank : ∀ d, View.rank (v.crec d).flags ≤
      View.rank
      ((v.setCrec c { v.crec c with flags := { (v.crec c).flags with immortal := true } }).crec
        d).flags := by
    intro d
    by_cases hd : d = c
    · subst hd
      rw [View.setCrec_self]
      unfold View.rank
      split_ifs <;> simp_all
    · rw [View.setCrec_of_ne _ hd]
  refine pairwise_iff_getElem.mpr fun m n hm hn hmn => ?_
  have hm : m < (v.chain i).length := hm
  have hn : n < (v.chain i).length := hn
  change View.rank ((v.setCrec c _).crec (v.chain i)[m]).flags ≤
    View.rank ((v.setCrec c _).crec (v.chain i)[n]).flags
  have hle := pairwise_iff_getElem.mp (h i) m n hm hn hmn
  by_cases hmc : (v.chain i)[m] = c
  · -- whatever stands behind it is immortal, if it is not a reverse entry
    have hsplit : v.chain i = (v.chain i).take m ++ c :: (v.chain i).drop (m + 1) := by
      rw [← hmc, cons_getElem_drop_succ, take_append_drop]
    rcases hc i _ _ hsplit with hr | himm
    · rw [hmc, View.setCrec_self]
      simp [View.rank, hr]
    refine le_trans ?_ (hrank _)
    have hmem : (v.chain i)[n] ∈ (v.chain i).drop (m + 1) := by
      rw [mem_drop_iff_getElem]
      exact ⟨n - (m + 1), by omega, by congr 1; omega⟩
    have hn' := himm _ hmem
    rw [hmc] at hle ⊢
    rw [View.setCrec_self]
    exact View.rank_immortal_le hle hn'
  · rw [View.setCrec_of_ne _ hmc]
    exact hle.trans (hrank _)

variable {x : CrecId} {mid : List CrecId}

/-- A record may move up to where it is in order with those it passes. -/
theorem View.pairwise_rotate {R : CrecId → CrecId → Prop}
    (h : ∀ i, (v.chain i).Pairwise R) (hi : v.chain i = pre ++ x :: mid ++ c :: rest)
    (hc : R c x ∧ ∀ b ∈ mid, R x b → R c b) (j : ℕ) :
    ((v.setList i (pre ++ c :: x :: mid ++ rest)).chain j).Pairwise R := by
  refine View.pairwise_setList h ?_ j
  have hold := h i
  rw [hi] at hold
  simp only [append_assoc, cons_append, pairwise_append, pairwise_cons, mem_append,
    mem_cons] at hold ⊢
  obtain ⟨hpre, ⟨hx, hmid, ⟨hrc, hrest⟩, hmc⟩, hpx⟩ := hold
  refine ⟨hpre, ⟨?_, ?_, hmid, hrest, fun a ha b hb => hmc a ha b (.inr hb)⟩, ?_⟩
  · rintro b (rfl | hb | hb)
    · exact hc.1
    · exact hc.2 b hb (hx b (.inl hb))
    · exact hrc b hb
  · rintro b (hb | hb)
    · exact hx b (.inl hb)
    · exact hx b (.inr (.inr hb))
  rintro a ha b (rfl | rfl | hb | hb)
  · exact hpx a ha b (.inr (.inr (.inl rfl)))
  · exact hpx a ha b (.inl rfl)
  · exact hpx a ha b (.inr (.inl hb))
  · exact hpx a ha b (.inr (.inr (.inr hb)))

theorem Move.ordered (hm : Move cfg v a w) (h : v.Ordered) (ha : ∀ c, a = .immortalise c →
    v.LastMortal c) : w.Ordered := by
  cases hm with
  | drop hi _ | spare hi _ _ _ => exact h.of_sublist (View.sublist_setList hi) fun _ _ => rfl
  | release hi _ _ hgone | clear hi _ _ hgone =>
    have h1 := h.of_sublist (w := v.setList _ _) (View.sublist_setList hi) fun _ _ => rfl
    exact h1.setCrec hgone _
  | touch => exact h
  | @rotate i c x pre mid rest hi hrev himm =>
    have hrank : View.rank (v.crec c).flags = View.rank (v.crec x).flags := by
      simp only [View.rank, hrev, himm]
    exact View.pairwise_rotate h hi ⟨hrank.le, fun b _ hb => hrank.le.trans hb⟩
  | grab _ hn _ _ => exact h.setCrec hn _
  | dropNew _ _ hn => exact h.setCrec hn _
  | commit => exact h.hash cfg _
  | link cpp newc =>
    have h1 : (v.nextUid newc).Ordered := by
      refine h.of_sublist (fun i => ?_) fun d _ => View.nextUid_flags v newc d
      rw [View.nextUid_chain]
    exact h1.setCrec_flags rfl
  | alloc hlt =>
    exact h.setCrec (fun hn => absurd (hlt _ (.inl hn)) (lt_irrefl _)) _
  | @reuse c r rest _ hn _ _ _ =>
    have h1 : View.Ordered { v.setCrec c r with spare := rest } := h.setCrec hn r
    exact h1.hash cfg c
  | add _ _ hn _ _ _ => exact (h.setCrec hn _).hash cfg _
  | extend => exact h.setCrec_flags rfl
  | immortalise => exact h.immortalise (ha _ rfl)
  | rehash _ hord => exact hord
  | fail | reset | warn => exact h

theorem Moves.ordered {P : Action → View → Prop} (hm : Moves cfg P v w) (h : v.Ordered)
    (hP : ∀ c v, ¬P (.immortalise c) v) : w.Ordered := by
  refine hm.invariant h fun a u u' ha hm hI => hm.ordered hI fun c hc => ?_
  subst hc
  exact absurd ha (hP c u)

/-- The entry is from DHCP, mortal and not a reverse one, and its name is a parent of `name`. -/
def Crec.parentOf (name : CString) (r : Crec) : Bool :=
  r.flags.dhcp && !r.flags.immortal && !r.flags.reverse &&
    (subnames name).any (hostnameIsequal · r.name)

/-- Behind mortal entries for parents of the name there are only immortal ones. -/
def View.Safe (v : View) (name : CString) : Prop :=
  ∀ i pre c rest, v.chain i = pre ++ c :: rest → (v.crec c).parentOf name = true →
    ∀ d ∈ rest, (v.crec d).flags.immortal = true

section

variable {name : CString}

theorem Crec.not_parentOf_of_isequal (h : hostnameIsequal r.name name = true) :
    r.parentOf name = false := by
  refine eq_false_of_ne_true fun hp => ?_
  simp only [Crec.parentOf, Bool.and_eq_true, List.any_eq_true] at hp
  obtain ⟨-, p, hp, heq⟩ := hp
  have h1 := length_lt_of_mem_subnames hp
  have h2 := length_eq_of_isequal heq
  have h3 := length_eq_of_isequal h
  omega

/-- In other words: of two records of a chain, the second is immortal if the first is such a parent.
-/
theorem View.safe_iff : v.Safe name ↔ ∀ i, (v.chain i).Pairwise fun c d =>
    (v.crec c).parentOf name = true → (v.crec d).flags.immortal = true := by
  constructor
  · intro h i
    refine pairwise_iff_getElem.mpr fun m n hm hn hmn hp => ?_
    refine h i ((v.chain i).take m) _ ((v.chain i).drop (m + 1)) ?_ hp _ ?_
    · rw [cons_getElem_drop_succ, take_append_drop]
    · rw [mem_drop_iff_getElem]
      exact ⟨n - (m + 1), by omega, by congr 1; omega⟩
  intro h i pre c rest hi hp d hd
  have := h i
  rw [hi, pairwise_append, pairwise_cons] at this
  exact this.2.1.1 d hd hp

theorem View.Safe.of_sublist (h : v.Safe name) (hsub : ∀ i, (w.chain i).Sublist (v.chain i))
    (hparent : ∀ c, w.Hashed c → (w.crec c).parentOf name = true → (v.crec c).parentOf name = true)
    (himm : ∀ c, w.Hashed c → (v.crec c).flags.immortal = true → (w.crec c).flags.immortal = true) :
    w.Safe name := by
  rw [View.safe_iff] at h ⊢
  intro i
  refine ((h i).sublist (hsub i)).imp_of_mem fun ha hb hR hp => ?_
  exact himm _ ⟨i, hb⟩ (hR (hparent _ ⟨i, ha⟩ hp))

theorem View.Safe.of_sublist_of_eq (h : v.Safe name) (hsub : ∀ i, (w.chain i).Sublist (v.chain i))
    (heq : ∀ c, w.Hashed c → w.crec c = v.crec c) : w.Safe name :=
  h.of_sublist hsub (fun c hc hp => heq c hc ▸ hp) fun c hc hi => (heq c hc).symm ▸ hi

end

theorem View.setCrec_of_not_hashed (hc : ¬v.Hashed c) (r : Crec) {d : CrecId} (hd : v.Hashed d) :
    (v.setCrec c r).crec d = v.crec d := by
  refine View.setCrec_of_ne _ ?_ _
  rintro rfl
  exact hc hd

theorem View.Safe.hash {name : CString} (h : v.Safe name) (hc : (v.crec c).flags.immortal = true) :
    (v.hash cfg c).Safe name := by
  rw [View.safe_iff] at h ⊢
  refine View.pairwise_hash h fun parts _ => ⟨fun a _ _ => hc, fun b _ hp => ?_⟩
  have hp : (v.crec c).parentOf name = true := hp
  simp [Crec.parentOf, hc] at hp

theorem View.Safe.rotate {name : CString} (h : v.Safe name)
    (hi : v.chain i = pre ++ x :: mid ++ c :: rest) (hc : (v.crec c).parentOf name = false) :
    (v.setList i (pre ++ c :: x :: mid ++ rest)).Safe name := by
  rw [View.safe_iff] at h ⊢
  have hnone (b : CrecId) : (v.crec c).parentOf name = true →
      (v.crec b).flags.immortal = true := by simp [hc]
  exact View.pairwise_rotate h hi ⟨hnone x, fun b _ _ => hnone b⟩

theorem Lease.Record.immortal {l : Lease} (h : l.Record r) :
    r.flags.immortal = decide (l.ttd = 0) := by
  obtain ⟨reverse, r₀, rfl⟩ := h
  rfl

theorem Lease.Record.name {l : Lease} (h : l.Record r) : r.name = l.name := by
  obtain ⟨reverse, r₀, rfl⟩ := h
  rfl

theorem not_isequal_all (name : CString) : ¬∀ name', hostnameIsequal name' name = true := by
  intro h
  have h1 := length_eq_of_isequal (h (0 :: name))
  simp at h1

theorem Move.safe {l : Lease} {n : ℕ} (hm : Move cfg v a w)
    (ha : Stating l.Record (hostnameIsequal · l.name = true) n a v) (hl : l.ttd = 0)
    (h : v.Safe l.name) : w.Safe l.name := by
  have himm : ∀ {r₀ r r' : Crec} {p : List CString}, l.Record r₀ →
      (r = r₀ ∨ ∃ p' ∈ p, r = r₀.emptyFor p' r') → r.flags.immortal = true := by
    intro r₀ r r' p hr₀ hr
    have h0 : r₀.flags.immortal = true := by simp [hr₀.immortal, hl]
    rcases hr with rfl | ⟨p', -, rfl⟩
    · exact h0
    · exact h0
  cases hm with
  | drop hi _ | spare hi _ _ _ => exact h.of_sublist_of_eq (View.sublist_setList hi) fun _ _ => rfl
  | release hi _ _ hgone =>
    exact h.of_sublist_of_eq (View.sublist_setList hi) fun d hd =>
      View.setCrec_of_not_hashed hgone _ hd
  | touch => exact h
  | rotate hi _ _ => exact h.rotate hi (Crec.not_parentOf_of_isequal ha.rotate)
  | alloc hlt =>
    exact h.of_sublist_of_eq (fun _ => List.Sublist.refl _) fun d hd =>
      View.setCrec_of_not_hashed (fun hn => absurd (hlt _ (.inl hn)) (lt_irrefl _)) _ hd
  | @reuse c r rest _ hn _ _ _ =>
    obtain ⟨r₀, hr₀, -, hr⟩ := ha.making id nofun nofun
    have h1 : View.Safe { v.setCrec c r with spare := rest } l.name :=
      h.of_sublist_of_eq (fun _ => List.Sublist.refl _) fun d hd =>
        View.setCrec_of_not_hashed hn _ hd
    refine h1.hash ?_
    rw [View.setCrec_self]
    exact himm hr₀ hr
  | @add c r _ _ hn _ _ _ =>
    obtain ⟨r₀, hr₀, -, hr⟩ := ha.making id nofun nofun
    have h1 : (v.setCrec c r).Safe l.name :=
      h.of_sublist_of_eq (fun _ => List.Sublist.refl _) fun d hd =>
        View.setCrec_of_not_hashed hn _ hd
    refine h1.hash ?_
    rw [View.setCrec_self]
    exact himm hr₀ hr
  | @extend c ttd =>
    refine h.of_sublist (fun _ => List.Sublist.refl _) (fun d _ hp => ?_) fun d _ hi => ?_
    · by_cases hd : d = c
      · subst hd
        rw [View.setCrec_self] at hp
        exact hp
      · rwa [View.setCrec_of_ne _ hd] at hp
    by_cases hd : d = c
    · subst hd
      rw [View.setCrec_self]
      exact hi
    · rwa [View.setCrec_of_ne _ hd]
  | @immortalise c =>
    refine h.of_sublist (fun _ => List.Sublist.refl _) (fun d _ hp => ?_) fun d _ hi => ?_
    · by_cases hd : d = c
      · subst hd
        simp [View.setCrec_self, Crec.parentOf] at hp
      · rwa [View.setCrec_of_ne _ hd] at hp
    by_cases hd : d = c
    · subst hd
      rw [View.setCrec_self]
    · rwa [View.setCrec_of_ne _ hd]
  | rehash => exact absurd ha.rehash (not_isequal_all l.name)
  | _ =>
    obtain ⟨_, _, hmaking⟩ := ha.making id nofun nofun
    exact hmaking.elim

theorem View.Safe.lastMortal {name : CString} (h : v.Safe name) (hd : (v.crec c).flags.dhcp = true)
    (hm : (v.crec c).flags.immortal = false) (hn : ∃ p ∈ subnames name,
      hostnameIsequal p (v.crec c).name = true) :
    v.LastMortal c := by
  intro i pre rest hi
  cases hr : (v.crec c).flags.reverse with
  | true => exact .inl rfl
  | false =>
    refine .inr (h i pre c rest hi ?_)
    simp only [Crec.parentOf, hd, hm, hr, Bool.not_false, Bool.true_and, List.any_eq_true]
    exact hn

/-- The condition under which an operation keeps the order: if an infinite lease is added, no
mortal entry from DHCP for a parent of its name, other than a reverse one, stands in front of
another mortal entry. -/
def KeepsOrder (s : State) : Op → Prop
  | .addDhcpEntry l => l.ttd = 0 → ∀ i, (s.chain i).Pairwise fun c d =>
    (s.crec c).parentOf l.name = true → (s.crec d).flags.immortal = true
  | _ => True

theorem Effect.ordered {op : Op} (h : Threads cfg s L ∅) (hord : (s.view L).Ordered)
    (hok : KeepsOrder s op) (heff : Effect cfg op s L s' L') : (s'.view L').Ordered := by
  cases op with
  | startInsert =>
    refine heff.1.moves.ordered hord fun c v hP => ?_
    obtain ⟨d, hd⟩ | hd := hP <;> cases hd
  | insert ins =>
    obtain ⟨new, hins⟩ := heff
    cases hins with
    | fail hR _ | found hR _ _ _ _ => exact hR.moves.ordered hord fun _ _ => id
    | new _ hR _ _ _ hmove =>
      exact hmove.ordered (hR.moves.ordered hord fun _ _ => id) fun c hc => by cases hc
  | linkCname cpp newc => exact (Reaches.moves heff).ordered hord fun c v hP => by cases hP
  | endInsert => exact heff.1.moves.ordered hord fun _ _ => id
  | findByName => exact (Reaches.moves heff).ordered hord fun _ _ => id
  | findByAddr => exact heff.1.moves.ordered hord fun _ _ => id
  | unhashDhcp =>
    refine heff.1.moves.ordered hord fun c v hP => ?_
    obtain ⟨d, hd⟩ := hP
    cases hd
  | addDhcpEntry l =>
    obtain ⟨s1, L1, hR1, -, hR2⟩ := heff
    have hord1 := hR1.moves.ordered hord fun _ _ => id
    by_cases hl : l.ttd = 0
    · have hsafe : (s.view L).Safe l.name := by
        rw [View.safe_iff]
        intro i
        have := hok hl i
        rwa [h.chain_eq] at this
      have hsafe1 : (s1.view L1).Safe l.name := hR1.moves.invariant hsafe fun a u u' ha hm hI =>
        hm.safe (n := 0) ha.stating hl hI
      have hboth : (s'.view L').Ordered ∧ (s'.view L').Safe l.name := by
        refine hR2.reaches.moves.invariant (I := fun v => v.Ordered ∧ v.Safe l.name) ⟨hord1,
          hsafe1⟩ fun a u u' ha hm hI =>
          ⟨hm.ordered hI.1 fun c hc => ?_, hm.safe ha hl hI.2⟩
        subst hc
        obtain ⟨r₀, hr₀, -, -, hp⟩ := ha.making id nofun nofun
        rw [hr₀.name] at hp
        cases hm with
        | immortalise _ _ hd hmortal => exact hI.2.lastMortal hd hmortal hp
      exact hboth.1
    refine hR2.reaches.moves.ordered hord1 fun c v hP => ?_
    obtain ⟨r₀, hr₀, -, himm, -⟩ := hP.making id nofun nofun
    rw [hr₀.immortal] at himm
    simp [hl] at himm
  | hostsFile file =>
    refine (Staged.reaches heff).moves.ordered hord fun c v hP => ?_
    obtain ⟨r₀, ⟨_, _, _, _, _, rfl⟩, hd, -⟩ := hP.making id nofun nofun
    simp [HostsEntry.crec, HostsEntry.family] at hd
  | reload d =>
    obtain ⟨s1, L1, hR1, -, -, hR2⟩ := heff
    refine hR2.reaches.moves.ordered (hR1.moves.ordered hord fun _ _ => id) fun c v hP => ?_
    obtain ⟨r₀, hr₀, hd, -⟩ := hP.making id nofun nofun
    rcases hr₀ with ⟨_, _, rfl⟩ | ⟨_, _, rfl⟩ | ⟨_, _, _, rfl⟩ | ⟨_, _, _, _, _, _,
      _, rfl⟩ | ⟨_, _, rfl⟩ <;> simp [cnameCrec, dsCrec, localName, HostsEntry.crec,
      HostsEntry.family] at hd

theorem ScanArgs.Scanned.not_expired {args : ScanArgs} {l : List CrecId} (h : args.Scanned s l)
    (hl : l.Pairwise fun a b => View.rank (s.crec a).flags ≤ View.rank (s.crec b).flags)
    {c : CrecId} (hc : c ∈ l) : isExpired args.now (s.crec c) = false := by
  obtain ⟨pre, rest, rfl, hpre, hrest⟩ := h
  rcases mem_append.mp hc with hc | hc
  · exact (hpre c hc).1
  cases rest with
  | nil => cases hc
  | cons d rest =>
    obtain ⟨hr, hi⟩ := hrest d rfl
    have hrank : View.rank (s.crec d).flags = 2 := by simp [View.rank, hr, hi]
    have hle : 2 ≤ View.rank (s.crec c).flags := by
      rcases mem_cons.mp hc with rfl | hc
      · exact hrank.ge
      · rw [← hrank]
        exact (pairwise_cons.mp (pairwise_append.mp hl).2.1).1 c hc
    have himm : (s.crec c).flags.immortal = true := by
      unfold View.rank at hle
      split_ifs at hle <;> simp_all
    simp [isExpired, himm]

/-- All answers of `cache_find_by_addr`, which is called again with the last one until there are
no more. -/
def addrAnswers (addr : List UInt8) (now : ℤ) (prot : Flags) : ℕ → State → Option CrecId →
    Option (List CrecId)
  | 0, _, _ => none
  | k + 1, s, crecp => do
      let (s, found) ← cacheFindByAddr s crecp addr now prot
      match found with
      | none => some []
      | some c => (addrAnswers addr now prot k s (some c)).map (c :: ·)

theorem addrAnswers_some (addr : List UInt8) (now : ℤ) (prot : Flags) (s : State) (k : ℕ)
    (c : CrecId) :
    addrAnswers addr now prot k s (some c) =
    hitsFrom s.next (fun d => (s.crec d).pointsAt addr prot) k (s.next c) := by
  induction k generalizing c with
  | zero => rfl
  | succ k ih =>
    have hfind : Cache.cacheFindByAddr s (some c) addr now prot =
        some (s, (s.next c).filter fun c => (s.crec c).pointsAt addr prot) := rfl
    rw [addrAnswers, hitsFrom, hfind]
    simp only [bind_eq_bind, bind_some]
    cases (s.next c).filter fun c => (s.crec c).pointsAt addr prot with
    | none => rfl
    | some d => simp only [ih]

theorem Threads.addrAnswers (h : Threads cfg s L ∅) (addr : List UInt8) (now : ℤ) (prot : Flags) :
    ∃ ans, addrAnswers addr now prot (s.nextCrec + 2) s none = some ans ∧
      ∀ d, L.Hashed d → isExpired now (s.crec d) = false → (s.crec d).pointsAt addr prot = true →
        d ∈ ans := by
  obtain ⟨s', L', ans, stats, front, back, hs', hR, hsurv, hfound⟩ :=
    h.cacheFindByAddr (q := fun _ => False) addr now prot
  have hsheds := hR.sheds
  have hnext : s'.nextCrec = s.nextCrec := hsheds.nextCrec
  have hlru : ∀ d ∈ L'.lru, (s'.crec d).pointsAt addr prot = true → L'.Hashed d := by
    intro d hd hhit
    simp only [Crec.pointsAt, Bool.and_eq_true] at hhit
    exact ⟨_, hR.threads.hashed d hd (Set.notMem_empty d) (by simp [Flags.inUse, hhit.1.1])⟩
  obtain ⟨hall, -⟩ := hfound.hitsFrom hR.threads (fun _ hd => hd) hlru (k := s.nextCrec + 2)
    (hnext ▸ Nat.lt_add_of_pos_right Nat.two_pos)
  refine ⟨stats ++ front, ?_, fun d hd hexp hhit => ?_⟩
  · rw [Cache.addrAnswers, hs']
    simp only [bind_eq_bind, bind_some, addrAnswers_some]
    exact hall
  have hd' : L'.Hashed d := hsurv d hd hexp
  have heq : s'.crec d = s.crec d := (hsheds.hashed d hd').2
  rw [mem_append, hfound.mem_stats, hfound.mem_front, heq]
  rcases lt_or_ge d cfg.cachesize with hlt | hge
  · exact .inr ⟨hd', hlt, hhit⟩
  · exact .inl ⟨hd', hge, hhit⟩

/-- As long as no infinite lease makes an entry immortal in front of mortal ones, the chains are
in order, a scan of the table leaves nothing expired, and all unexpired entries for an address
are found. -/
theorem run_ordered (cfg : Config) (ops : List Op) (hok : ∀ s, cacheInit cfg = some s →
    Meets cfg KeepsOrder s ops) : ∃ s, (cacheInit cfg).bind (run cfg · ops) = some s ∧ s.Ordered ∧
      (∀ args : ScanArgs, args.flags.forward = false →
        ∃ s', cacheScanFree cfg s args = some (s', none, none) ∧
        ∀ i, ∀ c ∈ s'.chain i, isExpired args.now (s'.crec c) = false) ∧
      ∀ addr now prot, ∃ ans, addrAnswers addr now prot (s.nextCrec + 2) s none = some ans ∧
        ∀ i, ∀ c ∈ s.chain i, isExpired now (s.crec c) = false →
          (s.crec c).pointsAt addr prot = true → c ∈ ans := by
  obtain ⟨s₀, L₀, hinit, hT₀, hempty, -⟩ := cacheInit_threads cfg
  have hord₀ : (s₀.view L₀).Ordered := by
    intro i
    rw [show (s₀.view L₀).chain i = [] from eq_nil_iff_forall_not_mem.mpr fun c hc =>
      hempty c ⟨i, hc⟩]
    exact List.Pairwise.nil
  obtain ⟨s, L, hs, hT, hord⟩ :=
    hT₀.run_invariant (I := fun s L => (s.view L).Ordered) (K := KeepsOrder) hord₀
    (fun hT hI hok heff => heff.ordered hT hI hok) ops (hok s₀ hinit)
  refine ⟨s, by rw [hinit]; exact hs, hT.ordered_iff.mpr hord,
    fun args hf => ?_, fun addr now prot => ?_⟩
  · obtain ⟨s', L', hs', hR, hscan⟩ := hT.scanAll args hf
    refine ⟨s', hs', fun i c hc => ?_⟩
    rw [hR.threads.chain_eq] at hc
    exact (hscan i).not_expired (hR.moves.ordered hord (fun _ _ => id) i) hc
  · obtain ⟨ans, hans, hall⟩ := hT.addrAnswers addr now prot
    refine ⟨ans, hans, fun i c hc => hall c ⟨i, ?_⟩⟩
    rwa [hT.chain_eq] at hc

theorem run_ordered_lease :
    ∃ s, (cacheInit { cachesize := 1 }).bind (run { cachesize := 1 } · [.addDhcpEntry
        { name := [120, 46, 112], addr := [10, 0, 0, 2], ttd := 0 },
        .findByName [112] 5 { ipv4 := true } false]) = some s ∧
      s.Ordered := by
  obtain ⟨s, hs, hord, -⟩ := run_ordered { cachesize := 1 } [.addDhcpEntry
    { name := [120, 46, 112], addr := [10, 0, 0, 2], ttd := 0 },
    .findByName [112] 5 { ipv4 := true } false] (fun s hs => by
      cases hs
      exact ⟨fun _ i => List.Pairwise.nil, fun _ _ => ⟨trivial, fun _ _ => trivial⟩⟩)
  exact ⟨s, hs, hord⟩

theorem upstream_forward4 : ({ forward := true, ipv4 := true } : Flags).upstream = true := rfl

/-- The address of `p` comes from upstream; then there is a lease for `y.p`, and an infinite one
for `x.p`. -/
def infiniteBelow : List Op :=
  [.startInsert,
    .insert { name := some [112], addr := some [1, 2, 3, 4], ttl := 100,
              flags := { forward := true, ipv4 := true }
              upstream := upstream_forward4 },
    .endInsert,
    .addDhcpEntry { name := [121, 46, 112], addr := [10, 0, 0, 1], ttd := 50 },
    .addDhcpEntry { name := [120, 46, 112], addr := [10, 0, 0, 2], ttd := 0 }]

/-- The empty entry for `p` has become immortal, and the mortal one from upstream stands behind
it. -/
theorem run_infiniteBelow :
    ∃ s, (cacheInit { cachesize := 1 }).bind (run { cachesize := 1 } · infiniteBelow) = some s ∧
      ¬s.Ordered := by
  have h :
      (((cacheInit { cachesize := 1 }).bind (run { cachesize := 1 } · infiniteBelow)).any fun s =>
      !decide ((s.chain (hashBucket { cachesize := 1 } 64 [112])).Pairwise fun a b =>
        View.rank (s.crec a).flags ≤ View.rank (s.crec b).flags)) = true := by
    decide +kernel
  obtain ⟨s, hs, hi⟩ := (Option.any_eq_true _ _).mp h
  exact ⟨s, hs, fun hord => by simp [hord _] at hi⟩

end Dnsmasq.Cache
