import Dnsmasq.Cache.NoInternalError

/-!
The parents of local names: each has an entry that lasts as long as the names below it, and other
entries stay as they are.
-/
namespace Dnsmasq.Cache

open Lib

variable {cfg : Config} {s s' : State} {L L' : Lists} {i n : ℕ} {c d : CrecId}
  {v w : View} {a : Action} {S : Crec → Prop} {q : CString → Prop} {source : Crec} {T : ℤ}
  {dhcp : Bool}

theorem Crec.Outlasts.trans {r₁ r₂ r₃ : Crec} (h : r₁.Outlasts r₂) (h' : r₂.Outlasts r₃) :
    r₁.Outlasts r₃ := by
  rcases h with h | ⟨hm, hle⟩
  · exact .inl h
  rcases h' with h' | ⟨hm', hle'⟩
  · rw [h'] at hm
    cases hm
  · exact .inr ⟨hm', hle'.trans hle⟩

variable {r r' : Crec} {now : ℤ} {p : CString} {l : Lease}

theorem Crec.Outlasts.live (h : r.Outlasts r') (hl : isExpired T r' = false) :
    isExpired T r = false := by
  rcases h with h | ⟨hm, hle⟩
  · simp [isExpired, h]
  · simp only [isExpired, hm, Bool.not_false, Bool.true_and, Bool.not_eq_false',
      decide_eq_true_eq] at hl
    simp [isExpired, hl.trans_le hle]

theorem isExpired_mono (hT : now ≤ T) (h : isExpired now r = true) : isExpired T r = true := by
  simp only [isExpired, Bool.and_eq_true, Bool.not_eq_true', decide_eq_false_iff_not, not_lt] at h ⊢
  exact ⟨h.1, h.2.trans hT⟩

/-- The records differ in nothing that matters for a name and its lifetime. -/
structure Crec.Same (r r' : Crec) : Prop where
  flags : r'.flags = r.flags
  name : r'.name = r.name
  ttd : r'.ttd = r.ttd

theorem Crec.Same.of_eq (h : r' = r) : r.Same r' := by
  subst h
  exact ⟨rfl, rfl, rfl⟩

theorem Crec.Same.serves {d d' : Crec} {held : Bool} (hd : d.Same d') (hr : r.Same r')
    (h : d.Serves r p held) : d'.Serves r' p held := by
  constructor
  · rw [hd.flags]
    exact h.forward
  · rw [hd.flags, hr.flags]
    exact h.sort
  · rw [hd.flags, hr.flags]
    exact h.alone
  · rw [hd.name]
    exact h.name
  · have := h.outlasts
    unfold Crec.Outlasts at this ⊢
    rwa [hd.flags, hr.flags, hd.ttd, hr.ttd]
  · rw [hd.flags]
    exact h.held

/-- The parents of the names that are in the cache at time `T` have entries. -/
def View.Covered (cfg : Config) (T : ℤ) (dhcp : Bool) (v : View) : Prop :=
  ∀ c, cfg.cachesize ≤ c → v.Hashed c → (v.crec c).flags.held = true →
    (v.crec c).flags.dhcp = dhcp →
    isExpired T (v.crec c) = false → ∀ p ∈ subnames (v.crec c).name, v.Has cfg (v.crec c) p false

theorem View.Covered.of_same (h : v.Covered cfg T dhcp)
    (hback : ∀ c, cfg.cachesize ≤ c → w.Hashed c → v.Hashed c ∧ (v.crec c).Same (w.crec c))
    (hkeep : ∀ d, cfg.cachesize ≤ d → v.Hashed d → (v.crec d).flags.ofSort (!dhcp) = false →
      isExpired T (v.crec d) = false → w.Hashed d) : w.Covered cfg T dhcp := by
  intro c hc hch hheld hd hlive p hp
  obtain ⟨hcv, hsame⟩ := hback c hc hch
  have hlive' : isExpired T (v.crec c) = false := by
    unfold isExpired at hlive ⊢
    rwa [hsame.flags, hsame.ttd] at hlive
  rw [hsame.flags] at hheld hd
  rw [hsame.name] at hp
  obtain ⟨d, hdc, hdh, hserves⟩ := h c hc hcv hheld hd hlive' p hp
  have hdw : w.Hashed d := hkeep d hdc hdh (hd ▸ hserves.alone) (hserves.outlasts.live hlive')
  exact ⟨d, hdc, hdw, (hback d hdc hdw).2.serves hsame hserves⟩

/-- What leaves the entries of one sort alone, except those that have expired. -/
def Mild (T : ℤ) (dhcp : Bool) : Action → View → Prop
  | .drop c, v => isExpired T (v.crec c) = true ∨ (v.crec c).flags.ofSort (!dhcp) = true
  | .spare _, _ => dhcp = false
  | .reuse _ _, _ | .add _ _, _ | .extend _ _, _ | .immortalise _, _ => False
  | _, _ => True

theorem View.hashed_rotate {x : CrecId} {pre mid rest : List CrecId} (hi : v.chain i =
    pre ++ x :: mid ++ c :: rest) : (v.setList i (pre ++ c :: x :: mid ++ rest)).Hashed d ↔
    v.Hashed d := by
  refine exists_congr fun j => ?_
  by_cases e : j = i
  · subst e
    rw [View.setList_self, hi]
    simp only [List.mem_append, List.mem_cons]
    tauto
  · rw [View.setList_of_ne _ e]

theorem View.nextUid_same (v : View) (c d : CrecId) : (v.crec d).Same ((v.nextUid c).crec d) := by
  unfold View.nextUid
  split
  · by_cases e : d = c
    · subst e
      rw [show (View.setCrec _ d _).crec d = _ from View.setCrec_self _ _ _]
      exact ⟨rfl, rfl, rfl⟩
    · rw [show (View.setCrec _ c _).crec d = _ from View.setCrec_of_ne _ e _]
      exact .of_eq rfl
  · exact .of_eq rfl

theorem Move.covered (hm : Move cfg v a w) (ha : Mild T dhcp a v) (h : v.Covered cfg T dhcp) :
    w.Covered cfg T dhcp := by
  -- a record of the pool, or one that is in no chain, is changed
  have hset : ∀ {u : View} {c : CrecId} {r : Crec}, (c < cfg.cachesize ∨ ¬v.Hashed c) →
      (∀ d, u.Hashed d → v.Hashed d) → u.crec = (v.setCrec c r).crec →
      ∀ d, cfg.cachesize ≤ d → u.Hashed d → v.Hashed d ∧ (v.crec d).Same (u.crec d) := by
    intro u c r hc hhash hcrec d hd hdh
    refine ⟨hhash d hdh, .of_eq ?_⟩
    rw [hcrec]
    refine View.setCrec_of_ne _ ?_ _
    rintro rfl
    rcases hc with hc | hc
    · exact absurd hc (not_lt.mpr hd)
    · exact hc (hhash d hdh)
  -- a record leaves its chain
  have hgone : ∀ {i c pre rest}, v.chain i = pre ++ c :: rest → ∀ d, d ≠ c → v.Hashed d →
      (v.setList i (pre ++ rest)).Hashed d := fun hi d hd => View.hashed_setList hi hd
  cases hm with
  | @drop i c pre rest hi _ =>
    refine h.of_same (fun d _ hd =>
      ⟨View.hashed_of_setList (subset_of_eq_append_cons hi) hd, .of_eq rfl⟩)
      fun d _ hdh hsort hlive => hgone hi d ?_ hdh
    rintro rfl
    rcases ha with ha | ha
    · rw [ha] at hlive
      cases hlive
    · rw [ha] at hsort
      cases hsort
  | release hi hc _ _ | clear hi hc _ _ =>
    refine h.of_same (hset (.inl hc)
      (fun d hd => View.hashed_of_setList (subset_of_eq_append_cons hi) hd) rfl)
      fun d hd hdh _ _ => hgone hi d ?_ hdh
    rintro rfl
    exact absurd hc (not_lt.mpr hd)
  | @spare i c pre rest hi _ hd _ =>
    refine h.of_same (fun d _ hd =>
      ⟨View.hashed_of_setList (subset_of_eq_append_cons hi) hd, .of_eq rfl⟩)
      fun d _ hdh hsort _ => hgone hi d ?_ hdh
    rintro rfl
    subst ha
    have hsort : (v.crec d).flags.dhcp = false := hsort
    rw [hd] at hsort
    cases hsort
  | touch _ _ => exact h
  | rotate hi _ _ =>
    exact h.of_same (fun d _ hd => ⟨(View.hashed_rotate hi).mp hd, .of_eq rfl⟩) fun d _ hd _ _ =>
      (View.hashed_rotate hi).mpr hd
  | grab _ hn _ _ | dropNew _ _ hn =>
    exact h.of_same (hset (.inr hn) (fun _ => id) rfl) fun _ _ hd _ _ => hd
  | @commit c rest _ _ _ hlt =>
    refine h.of_same (fun d hd hdh => ⟨(View.hashed_hash.mp hdh).resolve_left ?_, .of_eq rfl⟩)
      fun d _ hdh _ _ => View.hashed_hash.mpr (.inr hdh)
    rintro rfl
    exact absurd hlt (not_lt.mpr hd)
  | link cpp newc =>
    have hhash : ∀ d, (v.nextUid newc).Hashed d ↔ v.Hashed d := by
      intro d
      unfold View.nextUid
      split <;> rfl
    refine h.of_same (fun d _ hd => ⟨(hhash d).mp hd, ?_⟩) fun d _ hd _ _ => (hhash d).mpr hd
    have hsame := View.nextUid_same v newc d
    by_cases e : d = cpp
    · subst e
      rw [View.setCrec_self]
      exact ⟨hsame.flags, hsame.name, hsame.ttd⟩
    · rwa [View.setCrec_of_ne _ e]
  | alloc hlt =>
    exact h.of_same (hset (.inr fun hn => absurd (hlt _ (.inl hn)) (lt_irrefl _)) (fun _ => id) rfl)
      fun _ _ hd _ _ => hd
  | rehash hh _ =>
    exact h.of_same (fun d _ hd => ⟨(hh d).mpr hd, .of_eq rfl⟩) fun d _ hd _ _ => (hh d).mp hd
  | fail => exact h
  | reset => exact h
  | warn _ _ _ _ => exact h
  | _ => exact absurd ha id

theorem Moves.covered {P : Action → View → Prop} (hm : Moves cfg P v w) (hP : ∀ a u, P a u →
    Mild T dhcp a u) (h : v.Covered cfg T dhcp) : w.Covered cfg T dhcp :=
  hm.invariant (I := fun u => u.Covered cfg T dhcp) h fun a u _ ha hm hI =>
    hm.covered (hP a u ha) hI

theorem Searching.mild (hT : now ≤ T) (ha : Searching now q a v) : Mild T dhcp a v := by
  cases a with
  | drop c => exact .inl (isExpired_mono hT ha)
  | release | touch | rotate => trivial
  | _ => exact absurd ha id

theorem Evicting.mild (hT : now ≤ T) (ha : Evicting now a v) : Mild T dhcp a v := by
  cases a with
  | drop c => exact .inl (isExpired_mono hT ha)
  | release | fail | warn => trivial
  | _ => exact absurd ha id

/-- Empty entries that have to go for the name are no loss. -/
def View.Ready (cfg : Config) (source : Crec) (v : View) : Prop :=
  ∀ d, cfg.cachesize ≤ d → v.Hashed d → source.EmptyOf (v.crec d) → source.Outlasts (v.crec d)

/-- The names above that of `source` last longer. -/
def View.Steady (cfg : Config) (source : Crec) (v : View) : Prop :=
  ∀ c, cfg.cachesize ≤ c → v.Hashed c → (v.crec c).flags.held = true →
    (v.crec c).flags.dhcp = true →
    (∃ p ∈ subnames source.name, hostnameIsequal p (v.crec c).name = true) →
    (v.crec c).Outlasts source

theorem View.hashed_hash_of {u : View} (h : v.chain = u.chain) : (v.hash cfg c).Hashed d ↔
    d = c ∨ u.Hashed d := by
  rw [View.hashed_hash]
  unfold Lists.Hashed
  rw [h]

def Crec.Lengthened (source r r' : Crec) : Prop :=
  source.flags.dhcp = true ∧ r.flags.dhcp = true ∧
    (∃ p ∈ subnames source.name, hostnameIsequal p r.name = true) ∧
    r.flags.immortal = false ∧ (source.flags.immortal = false ∧
      r' = { r with ttd := max r.ttd source.ttd } ∨
      source.flags.immortal = true ∧ r' = { r with flags := { r.flags with immortal := true } })

/-- What holds of each record, of the new ones and of those that are made to last longer. -/
theorem Moves.each {K : CrecId → Crec → Prop} (hm : Moves cfg (Making source n) v w)
    (hK : ∀ c, cfg.cachesize ≤ c → v.Hashed c → K c (v.crec c))
    (hnew : ∀ c r r', r = source ∨ (∃ p ∈ subnames source.name, r = source.emptyFor p r') → K c r)
    (hlong : ∀ c r r', cfg.cachesize ≤ c → K c r → source.Lengthened r r' → K c r') :
    ∀ c, cfg.cachesize ≤ c → w.Hashed c → K c (w.crec c) := by
  refine hm.invariant (I := fun u => ∀ c, cfg.cachesize ≤ c → u.Hashed c →
    K c (u.crec c)) hK fun a u u' ha hm hI d hd hdh => ?_
  have hset {x : CrecId} {r : Crec} (hx : d = x → K d r) (hne : d ≠ x → u.Hashed d) :
      K d ((u.setCrec x r).crec d) := by
    by_cases e : d = x
    · subst e
      rw [View.setCrec_self]
      exact hx rfl
    · rw [View.setCrec_of_ne _ e]
      exact hI d hd (hne e)
  cases hm with
  | drop hi _ | spare hi _ _ _ =>
    exact hI d hd (View.hashed_of_setList (subset_of_eq_append_cons hi) hdh)
  | alloc hlt =>
    have he : (u.setCrec u.nextCrec {}).crec d = u.crec d :=
      View.setCrec_of_not_hashed (fun hn => absurd (hlt _ (.inl hn)) (lt_irrefl _)) _ hdh
    rw [he]
    exact hI d hd hdh
  | @reuse x r rest _ _ _ _ _ =>
    have hdh' :=
      (View.hashed_hash_of (v := { u.setCrec x r with spare := rest }) (u := u) rfl).mp hdh
    exact @hset x r (fun _ => hnew d r _ ha.2) hdh'.resolve_left
  | @add x r _ _ _ _ _ _ =>
    have hdh' := (View.hashed_hash_of (v := u.setCrec x r) (u := u) rfl).mp hdh
    exact @hset x r (fun _ => hnew d r _ ha.2) hdh'.resolve_left
  | extend ttd hx =>
    obtain ⟨hsd, hsm, hm, rfl, hxd, hp⟩ := ha
    refine hset (fun e => ?_) fun _ => hdh
    subst e
    exact hlong d _ _ hd (hI d hd hdh) ⟨hsd, hxd, hp, hm, .inl ⟨hsm, rfl⟩⟩
  | immortalise hxh hx hxd hxm =>
    refine hset (fun e => ?_) fun _ => hdh
    subst e
    exact hlong d _ _ hd (hI d hd hdh) ⟨ha.1, hxd, ha.2.2, hxm, .inr ⟨ha.2.1, rfl⟩⟩
  | _ => exact absurd ha id

theorem Moves.back (hm : Moves cfg (Making source n) v w) (hsteady : source.flags.dhcp = true →
    v.Steady cfg source) (hc : cfg.cachesize ≤ c) (hch : w.Hashed c) (hheld :
    (w.crec c).flags.held = true) : v.Hashed c ∧ w.crec c = v.crec c ∨ w.crec c = source := by
  refine hm.each (K := fun c r => r.flags.held = true → v.Hashed c ∧ r = v.crec c ∨ r = source)
    (fun c _ hch _ => .inl ⟨hch, rfl⟩) ?_ ?_ c hc hch hheld
  · rintro c r r' (rfl | ⟨p, -, rfl⟩) hheld
    · exact .inr rfl
    · simp [Crec.emptyFor, Flags.empty, Flags.held, Flags.dnssec] at hheld
  -- a name that is made to last longer is no other
  rintro c r r' hc hK ⟨hsd, hrd, hp, hm, hr'⟩ hheld
  have hheld : r.flags.held = true := by obtain ⟨-, rfl⟩ | ⟨-, rfl⟩ := hr' <;> exact hheld
  have hlong : r.Outlasts source := by
    rcases hK hheld with ⟨hcv, rfl⟩ | rfl
    · exact hsteady hsd c hc hcv hheld hrd hp
    · obtain ⟨p, hp, heq⟩ := hp
      exact absurd heq (not_isequal_of_mem_subnames hp)
  obtain ⟨hmortal, httd⟩ := hlong.resolve_left (by simp [hm])
  rcases hr' with ⟨-, rfl⟩ | ⟨hsm, -⟩
  · rw [max_eq_left httd]
    exact hK hheld
  · rw [hsm] at hmortal
    cases hmortal

theorem Flags.ofSort_unique {f : Flags} {b b' : Bool} (h : f.ofSort b' = true)
    (halone : f.ofSort (!b) = false) : b' = b := by
  cases b <;> cases b' <;> simp_all

theorem Made.has (hm : Made cfg n source v w) (h : v.Has cfg r p false)
    (hempty : ∀ d, cfg.cachesize ≤ d → v.Hashed d → (v.crec d).Serves r p false →
      source.EmptyOf (v.crec d) → w.Has cfg r p false) : w.Has cfg r p false := by
  obtain ⟨d, hd, hdh, hserves⟩ := h
  by_cases he : source.EmptyOf (v.crec d)
  · exact hempty d hd hdh hserves he
  · exact hm.moves.has hd hdh hserves he

theorem Made.covered (hm : Made cfg n source v w) (hmal : ∀ k, cfg.malloc k = true)
    (h : v.Covered cfg T dhcp) (hsteady : source.flags.dhcp = true → v.Steady cfg source)
    (hempty : ∀ c, cfg.cachesize ≤ c → v.Hashed c → (v.crec c).flags.held = true →
      ∀ p ∈ subnames (v.crec c).name,
      ∀ d, cfg.cachesize ≤ d → v.Hashed d → (v.crec d).Serves (v.crec c) p false →
        source.EmptyOf (v.crec d) → w.Has cfg (v.crec c) p false) : w.Covered cfg T dhcp := by
  intro c hc hch hheld hd hlive p hp
  rcases hm.moves.back hsteady hc hch hheld with ⟨hcv, he⟩ | he
  · rw [he] at hheld hd hlive hp ⊢
    exact hm.has (h c hc hcv hheld hd hlive p hp) (hempty c hc hcv hheld p hp)
  · rw [he] at hp ⊢
    exact hm.parents hmal p hp

def View.NoneBelow (cfg : Config) (name : CString) (v : View) : Prop :=
  ∀ c, cfg.cachesize ≤ c → v.Hashed c → (v.crec c).flags.held = true →
    (v.crec c).flags.dhcp = false → ∀ p ∈ subnames (v.crec c).name, ¬hostnameIsequal p name = true

theorem Stage.covered (hs : Stage cfg S q n v w) (hT : 0 ≤ T) (hmal : ∀ k, cfg.malloc k = true)
    (h : v.Covered cfg T dhcp) (hready : ∀ source, S source → v.Ready cfg source)
    (hsteady : ∀ source, S source → source.flags.dhcp = true → v.Steady cfg source)
    (hnone : ∀ name, S (localName name) → v.NoneBelow cfg name) : w.Covered cfg T dhcp := by
  cases hs with
  | search ha hm => exact hm.covered (ha.mild hT) h
  | alloc hm => exact hm.covered trivial h
  | rehash _ hm => exact hm.covered trivial h
  | entry hS hheld hmade hself =>
    refine hmade.covered hmal h (hsteady _ hS) fun c hc hch hcheld p hp d hd hdh hserves hempty =>
      ?_
    -- the new entry stands in for the empty one
    obtain ⟨e, he, heh, hes⟩ := hself
    have hlong := (hready _ hS d hd hdh hempty).trans hserves.outlasts
    have hsort := Flags.ofSort_unique hempty.1 hserves.alone
    refine ⟨e, he, heh, hes.forward, hsort ▸ hes.sort, hsort ▸ hes.alone, ?_,
      hes.outlasts.trans hlong, nofun⟩
    exact hostnameIsequal_trans hserves.name
      (hostnameIsequal_trans (hostnameIsequal_symm hempty.2.2) hes.name)
  | @name name hS hmade =>
    refine hmade.covered hmal h nofun fun c hc hch hcheld p hp d hd hdh hserves hempty => ?_
    have hsort := Flags.ofSort_unique hempty.1 hserves.alone
    refine absurd ?_ (hnone name hS c hc hch hcheld hsort.symm p hp)
    exact hostnameIsequal_trans hserves.name (hostnameIsequal_symm hempty.2.2)

theorem Stage.back (hs : Stage cfg S q n v w) (hsteady : ∀ source, S source →
    source.flags.dhcp = true → v.Steady cfg source)
    (hc : cfg.cachesize ≤ c) (hch : w.Hashed c) (hheld : (w.crec c).flags.held = true) :
    v.Hashed c ∧ w.crec c = v.crec c ∨ S (w.crec c) := by
  cases hs with
  | search ha hm => exact .inl ((hm.sheds ha).hashed c hch)
  | alloc hm =>
    cases hm with
    | alloc hlt =>
      exact .inl ⟨hch, View.setCrec_of_not_hashed (fun hn => absurd (hlt _ (.inl hn)) (lt_irrefl _))
        _ hch⟩
  | rehash _ hm =>
    cases hm with
    | rehash hh _ => exact .inl ⟨(hh c).mpr hch, rfl⟩
  | entry hS _ hmade _ =>
    rcases hmade.moves.back (hsteady _ hS) hc hch hheld with h | h
    · exact .inl h
    · exact .inr (h ▸ hS)
  | name hS hmade =>
    rcases hmade.moves.back nofun hc hch hheld with h | h
    · exact .inl h
    · exact .inr (h ▸ hS)

theorem Moves.ready (hm : Moves cfg (Making source n) v w) (hname : source.name = r.name)
    (hlong : r.Outlasts source) (h : v.Ready cfg r) : w.Ready cfg r := by
  have hother : ∀ {x : CString}, (∃ p ∈ subnames source.name, hostnameIsequal p x = true) →
      ¬hostnameIsequal r.name x = true := by
    rintro x ⟨p, hp, heq⟩ hx
    refine not_isequal_of_mem_subnames hp ?_
    rw [hname]
    exact hostnameIsequal_trans heq (hostnameIsequal_symm hx)
  refine hm.each (K := fun _ r' => r.EmptyOf r' → r.Outlasts r') h ?_ ?_
  · rintro c r₁ r' (rfl | ⟨p, hp, rfl⟩) hempty
    · exact hlong
    · exact absurd hempty.2.2 (hother ⟨p, hp, hostnameIsequal_self p⟩)
  · rintro c r₁ r' - - ⟨-, -, hp, -, ⟨-, rfl⟩ | ⟨-, rfl⟩⟩ hempty <;>
      exact absurd hempty.2.2 (hother hp)

/-- The condition on the state in which a lease is added. -/
def Lease.Fits (cfg : Config) (l : Lease) (v : View) : Prop :=
  ∀ r, l.Record r → v.Ready cfg r ∧ v.Steady cfg r

theorem Lease.Record.outlasts (h : l.Record r) (h' : l.Record r') : r.Outlasts r' := by
  obtain ⟨_, _, rfl⟩ := h
  obtain ⟨_, _, rfl⟩ := h'
  by_cases hl : l.ttd = 0
  · exact .inl (by simp [Lease.crec, hl])
  · exact .inr ⟨by simp [Lease.crec, hl], by simp [Lease.crec, hl]⟩

theorem Stage.fits (hs : Stage cfg l.Record q n v w) (h : l.Fits cfg v) : l.Fits cfg w := by
  intro r hr
  constructor
  · have hback : (∀ c, w.Hashed c → v.Hashed c ∧ w.crec c = v.crec c) → w.Ready cfg r := by
      intro hback d hd hdh hempty
      obtain ⟨hdv, he⟩ := hback d hdh
      rw [he] at hempty ⊢
      exact (h r hr).1 d hd hdv hempty
    cases hs with
    | search ha hm => exact hback (hm.sheds ha).hashed
    | alloc hm =>
      cases hm with
      | alloc hlt =>
        exact hback fun c hch =>
          ⟨hch, View.setCrec_of_not_hashed (fun hn => absurd (hlt _ (.inl hn)) (lt_irrefl _)) _ hch⟩
    | rehash _ hm =>
      cases hm with
      | rehash hh _ => exact hback fun c hch => ⟨(hh c).mpr hch, rfl⟩
    | entry hS _ hmade _ | name hS hmade =>
      exact hmade.moves.ready (hS.name.trans hr.name.symm) (hr.outlasts hS) (h r hr).1
  intro c hc hch hheld hd hp
  rcases hs.back (fun source hS _ => (h source hS).2) hc hch hheld with ⟨hcv, he⟩ | hS
  · rw [he] at hheld hd hp ⊢
    exact (h r hr).2 c hc hcv hheld hd hp
  · obtain ⟨p, hp, heq⟩ := hp
    rw [hS.name, ← hr.name] at heq
    exact absurd heq (not_isequal_of_mem_subnames hp)

theorem not_record_localName (l : Lease) (name : CString) : ¬l.Record (localName name) := by
  rintro ⟨reverse, r₀, h⟩
  have := congrArg (fun r : Crec => r.flags.dhcp) h
  simp [localName, Lease.crec] at this

theorem Staged.lease_covered (h : Staged cfg l.Record q n s L s' L') (hT : 0 ≤ T)
    (hmal : ∀ k, cfg.malloc k = true) (hfits : l.Fits cfg (s.view L))
    (hcov : (s.view L).Covered cfg T dhcp) : (s'.view L').Covered cfg T dhcp := by
  have hstages := h.stages
  generalize s'.view L' = w at hstages
  suffices w.Covered cfg T dhcp ∧ l.Fits cfg w from this.1
  induction hstages with
  | refl => exact ⟨hcov, hfits⟩
  | tail _ hs ih =>
    obtain ⟨hcov, hfits⟩ := ih
    refine ⟨hs.covered hT hmal hcov (fun r hr => (hfits r hr).1) (fun r hr _ => (hfits r hr).2)
      fun name hS => ?_, hs.fits hfits⟩
    exact absurd hS (not_record_localName l name)

/-- The records are of a hosts file or the configuration, and none is for a name below one that is
only mentioned. -/
structure Fixed (S : Crec → Prop) : Prop where
  immortal : ∀ r, S r → r.flags.immortal = true
  dhcp : ∀ r, S r → r.flags.dhcp = false
  none : ∀ name, S (localName name) → ∀ r, S r → r.flags.held = true → ∀ p ∈ subnames r.name,
    ¬hostnameIsequal p name = true

theorem Staged.covered (h : Staged cfg S q n s L s' L') (hS : Fixed S) (hT : 0 ≤ T) (hmal : ∀ k,
    cfg.malloc k = true)
    (hnone : ∀ name, S (localName name) → (s.view L).NoneBelow cfg name)
    (hcov : (s.view L).Covered cfg T dhcp) : (s'.view L').Covered cfg T dhcp := by
  have hstages := h.stages
  generalize s'.view L' = w at hstages
  have hsteady : ∀ (v : View) source, S source → source.flags.dhcp = true →
      v.Steady cfg source := by
    intro v source hsource hd
    rw [hS.dhcp source hsource] at hd
    cases hd
  suffices w.Covered cfg T dhcp ∧ ∀ name, S (localName name) → w.NoneBelow cfg name from this.1
  induction hstages with
  | refl => exact ⟨hcov, hnone⟩
  | @tail u w _ hs ih =>
    obtain ⟨hcov, hnone⟩ := ih
    refine ⟨hs.covered hT hmal hcov (fun r hr _ _ _ _ => .inl (hS.immortal r hr)) (hsteady u) hnone,
      fun name hname c hc hch hheld hd p hp => ?_⟩
    rcases hs.back (hsteady u) hc hch hheld with ⟨hcu, he⟩ | hnew
    · rw [he] at hheld hd hp
      exact hnone name hname c hc hcu hheld hd p hp
    · exact hS.none name hname _ hnew hheld p hp

end Dnsmasq.Cache
