import Dnsmasq.Cache.FindByName

/-!
Records that are not of the pool, and the empty entries that `make_non_terminals` keeps for the
parents of their names.
-/
namespace Dnsmasq.Cache

open List hiding Chain
open Option Lib

variable {cfg : Config} {s s' t : State} {L L' M : Lists} {i n : ℕ} {c d : CrecId}
  {q : CString → Prop} {S : Crec → Prop} {source : Crec} {name : CString} {u : Crec → Crec}

/-- The empty entry for a parent `p` of the name of `source`, in the record `r`. -/
def Crec.emptyFor (source : Crec) (p : CString) (r : Crec) : Crec :=
  { r with
    flags := source.flags.empty
    ttd := if source.flags.immortal then r.ttd else source.ttd
    name := p }

/-- The entry is an empty one of the same sort and for the name of `source`. -/
def Crec.EmptyOf (source r : Crec) : Prop :=
  r.flags.ofSort source.flags.dhcp = true ∧ r.flags.held = false ∧
    hostnameIsequal source.name r.name = true

/-- The first entry lasts at least as long as the second. -/
def Crec.Outlasts (r r' : Crec) : Prop := r.flags.immortal = true ∨ r'.flags.immortal = false ∧
    r'.ttd ≤ r.ttd

/-- The entry `source` is put into the cache, and empty ones for the parents of its name. The
records at `n` and above are new. -/
def Making (source : Crec) (n : CrecId) : Action → View → Prop
  | .alloc, _ => True
  | .drop c, v => source.flags.dhcp = false ∧ source.EmptyOf (v.crec c)
  | .spare c, v => source.flags.dhcp = true ∧ source.EmptyOf (v.crec c)
  | .reuse c r, v => source.flags.dhcp = true ∧
      (r = source ∨ ∃ p ∈ subnames source.name, r = source.emptyFor p (v.crec c))
  | .add c r, _ => n ≤ c ∧ (r = source ∨ ∃ p ∈ subnames source.name, r = source.emptyFor p {})
  | .extend c ttd, v => source.flags.dhcp = true ∧ source.flags.immortal = false ∧
      (v.crec c).flags.immortal = false ∧ ttd = max (v.crec c).ttd source.ttd ∧
      (v.crec c).flags.dhcp = true ∧ ∃ p ∈ subnames source.name,
      hostnameIsequal p (v.crec c).name = true
  | .immortalise c, v => source.flags.dhcp = true ∧ source.flags.immortal = true ∧
      ∃ p ∈ subnames source.name, hostnameIsequal p (v.crec c).name = true
  | _, _ => False

/-- The entries of `S` are put into the cache, after searches. Chains are rearranged for names
that satisfy `q` only. -/
def Stating (S : Crec → Prop) (q : CString → Prop) (n : CrecId) (a : Action) (v : View) : Prop :=
  Searching 0 q a v ∨ a = .alloc ∨ (a = .rehash ∧ ∀ name, q name) ∨ ∃ source, S source ∧
    Making source n a v

variable {a : Action} {v w : View} {f : Flags} {r : Crec} {dhcp : Bool} {p name : CString}

theorem Searching.stating (h : Searching 0 q a v) : Stating S q n a v := .inl h

theorem Making.stating (h : Making source n a v) (hS : S source) : Stating S q n a v :=
  .inr (.inr (.inr ⟨source, hS, h⟩))

/-- What no search does is done to put an entry into the cache. -/
theorem Stating.making (h : Stating S q n a v) (hs : ¬Searching 0 q a v) (ha : a ≠ .alloc)
    (hr : a ≠ .rehash) : ∃ source, S source ∧ Making source n a v :=
    ((h.resolve_left hs).resolve_left ha).resolve_left fun h => hr h.1

theorem Stating.rotate {v : View} (h : Stating S q n (.rotate c) v) : q (v.crec c).name := by
  obtain h | h | ⟨h, -⟩ | ⟨_, _, h⟩ := h
  · exact h
  · cases h
  · cases h
  · exact h.elim

theorem Stating.rehash (h : Stating S q n .rehash v) (name : CString) : q name := by
  obtain h | h | ⟨-, h⟩ | ⟨_, _, h⟩ := h
  · exact h.elim
  · cases h
  · exact h name
  · exact h.elim

theorem Moves.nextCrec_le {P : Action → View → Prop} (h : Moves cfg P v w) :
    v.nextCrec ≤ w.nextCrec := by
  refine h.invariant (I := fun u => v.nextCrec ≤ u.nextCrec) le_rfl fun a u u' _ hm hI => ?_
  cases hm with
  | alloc => exact hI.trans (Nat.le_succ _)
  | link =>
    refine hI.trans_eq ?_
    unfold View.nextUid
    split <;> rfl
  | _ => exact hI

/-- What a record must be like to be put into a chain, except that the type is left out. -/
structure Statable (f : Flags) : Prop where
  forward : f.forward = true
  static : f.isStatic = true
  immortal : f.hosts = true ∨ f.config = true → f.immortal = true
  alone : f.dhcp = true → (f.hosts || f.config) = false

theorem Statable.empty (h : Statable f) (hc : cfg.cachesize ≤ c) (hr : r.flags = f.empty) :
    Hashable cfg r c := by
  constructor
  · exact fun hlt => absurd hlt (not_lt.mpr hc)
  intro _
  rw [hr]
  refine ⟨h.forward, h.static, fun hd => ?_, h.immortal, fun hc => ?_, h.alone⟩
  · simp [Flags.dnssec, Flags.empty] at hd
  · simp [Flags.empty] at hc

theorem Threads.placeStatic (h : Threads cfg s L {c}) (hc : cfg.cachesize ≤ c) (hn : ¬L.Hashed c)
    (u : Crec → Crec) (hok : Hashable cfg (u (s.crec c)) c) :
    ∃ s' L', Cache.cacheHash cfg (s.modify c u) c = some s' ∧ Threads cfg s' L' ∅ ∧
      s'.view L' = ((s.view L).setCrec c (u (s.crec c))).hash cfg c := by
  have h1 := h.modify hn u
  obtain ⟨s', L', hs', hT, hview, -⟩ := h1.cacheHash rfl hn (by rw [State.modify_self]; exact hok)
  refine ⟨s', L', hs', ?_, hview⟩
  exact hT.putDown (fun hlt => absurd hlt (not_lt.mpr hc)) fun hlt => absurd hlt (not_lt.mpr hc)

theorem Threads.putStatic (h : Threads cfg s L ∅) (hn : n ≤ s.nextCrec) (dhcp : Bool)
    (u src : Crec → Crec) (hok : ∀ r c, cfg.cachesize ≤ c → Hashable cfg (u r) c)
    (hsrc : ∀ r, u r = src r ∨ ∃ p ∈ subnames (src r).name, u r = (src r).emptyFor p r)
    (hdhcp : dhcp = true → ∀ r, (src r).flags.dhcp = true) :
    (∃ s', takeStatic cfg s dhcp = (s', none) ∧ s'.view L = s.view L ∧ Threads cfg s' L ∅ ∧
      cfg.malloc s.allocs = false) ∨
      ∃ s1 c s' L', takeStatic cfg s dhcp = (s1, some c) ∧
        Cache.cacheHash cfg (s1.modify c u) c = some s' ∧
        Reaches cfg (Making (src (s1.crec c)) n) s L s' L' ∧ s'.crec c = u (s1.crec c) ∧
        cfg.cachesize ≤ c ∧ L'.Hashed c := by
  have hcrec : ∀ {t : State} {M : Lists} {v : View} {c : CrecId} {r : Crec},
      t.view M = (v.setCrec c r).hash cfg c → t.crec c = r ∧ M.Hashed c := by
    intro t M v c r hv
    constructor
    · have := congrArg (fun w : View => w.crec c) hv
      exact this.trans (View.setCrec_self _ _ _)
    · change (t.view M).Hashed c
      rw [hv]
      exact View.hashed_hash.mpr (.inl rfl)
  by_cases hspare : dhcp = true ∧ L.spare ≠ []
  · obtain ⟨hd, hne⟩ := hspare
    obtain ⟨c, rest, hl⟩ := exists_cons_of_ne_nil hne
    have hptr : s.dhcpSpare = some c := by
      have := h.spare
      rw [hl] at this
      exact this.1
    obtain ⟨hle, -, -, hhash⟩ := h.sparePlace c (by simp [hl])
    obtain ⟨s', L', hs', hT, hview⟩ := (h.popSpare hl).placeStatic hle hhash u (hok _ c hle)
    refine .inr ⟨{ s with dhcpSpare := s.next c }, c, s',
      L', by simp [takeStatic, hd, hptr], hs', ⟨hT, ?_⟩, (hcrec hview).1, hle, (hcrec hview).2⟩
    rw [hview]
    refine (Move.reuse (v := s.view L) hl hhash (fun hm => ?_) hle ?_).moves ⟨hdhcp hd _, hsrc _⟩
    · exact absurd (h.newPool c hm).1 (not_lt.mpr hle)
    · exact ((hok _ c hle).other hle).2.1
  have htake : takeStatic cfg s dhcp = s.allocate cfg := by
    unfold takeStatic
    split
    · rename_i c hd hptr
      refine absurd ⟨rfl, fun hnil => ?_⟩ hspare
      have := h.spare
      rw [hnil, hptr] at this
      cases this
    · rfl
  rw [htake]
  unfold State.allocate
  split
  · right
    have hle := h.bound
    have hT := h.allocate (s.allocs + 1)
    have hhash : ¬L.Hashed s.nextCrec := fun ⟨_, hi⟩ => absurd (h.unhashed_lt hi) (lt_irrefl _)
    have hself : ({ s.modify s.nextCrec fun _ => {} with
        nextCrec := s.nextCrec + 1, allocs := s.allocs + 1 } : State).crec s.nextCrec =
          {} := Function.update_self _ _ _
    obtain ⟨s', L', hs', hT', hview⟩ := hT.placeStatic hle hhash u (hok _ _ hle)
    refine ⟨_, s.nextCrec, s', L', rfl, hs', ⟨hT', ?_⟩, (hcrec hview).1, hle, (hcrec hview).2⟩
    rw [hview]
    refine ((Move.alloc (v := s.view L) h.lt_nextCrec).moves trivial).trans
      (Move.moves (a := .add s.nextCrec (u {})) ?_ ?_)
    · rw [hself]
      refine Move.add hle (Nat.lt_succ_self _) hhash (fun hm => ?_) (fun hm => ?_)
        ((hok _ _ hle).other hle).2.1
      · exact absurd ((h.newPool _ hm).1.trans_le h.bound) (lt_irrefl _)
      · exact absurd (h.sparePlace _ hm).2.1 (lt_irrefl _)
    · rw [hself]
      exact ⟨hn, hsrc {}⟩
  · rename_i hm
    exact .inl ⟨_, rfl, rfl, h.congr rfl rfl rfl rfl rfl rfl rfl rfl, eq_false_of_ne_true hm⟩

theorem chainFind_eq (p : CrecId → Bool) (k : ℕ) (l : List CrecId) (hk : l.length ≤ k)
    {ptr : Option CrecId} (h : Chain s.hashNext ptr l) :
    chainFind s p k ptr = some (l.find? p) := by
  induction l generalizing k ptr with
  | nil =>
    cases h
    cases k <;> rfl
  | cons a l ih =>
    obtain ⟨rfl, h⟩ := h
    obtain ⟨k, rfl⟩ : ∃ k', k = k' + 1 := ⟨k - 1, by simp at hk; omega⟩
    rw [chainFind, find?_cons]
    cases hp : p a with
    | true => simp
    | false => simpa using ih k (by simpa using hk) h

theorem Flags.static_of_ofSort (h : f.ofSort dhcp = true) : f.isStatic = true := by
  unfold Flags.ofSort at h
  unfold Flags.isStatic
  cases dhcp with
  | true => simp_all
  | false =>
    simp only [Bool.false_eq_true, if_false, Bool.or_eq_true] at h ⊢
    tauto

theorem dropEmpty_rule (cfg : Config) (source : Crec) (n i : ℕ) :
    SweepRule cfg (Making source n) (dropEmpty source) i fun _ _ _ _ => True where
  keep {s acc L pre c rest s' acc'} h hi _ hb := by
    simp only [dropEmpty] at hb
    split at hb
    · cases hb
    split at hb
    · cases hb
    · cases hb
      exact ⟨L, .refl h, rfl, trivial⟩
  drop {s acc L pre c rest after acc'} h hi _ hb := by
    have hc : c ∈ L.chain i := by simp [hi]
    have hplace := (h.place i c hc).2.2.1
    have h1 := h.unhash hi
    have hgone := h.not_hashed_of_unhash hi
    simp only [dropEmpty] at hb
    split at hb
    · cases hb
    split at hb
    · rename_i hcond
      simp only [Bool.and_eq_true, Bool.not_eq_true'] at hcond
      obtain ⟨⟨⟨-, hsort⟩, hheld⟩, heq⟩ := hcond
      have hempty : source.EmptyOf (s.crec c) := ⟨hsort, hheld, heq⟩
      have hle := hplace.static_iff.mp (Flags.static_of_ofSort hsort)
      cases hb
      by_cases hd : source.flags.dhcp = true
      · simp only [if_pos hd]
        refine ⟨fun t => rfl, _, ⟨h1.pushSpare hle hgone, ?_⟩, Threads.setChain_self .., trivial⟩
        have hdhcp : (s.crec c).flags.dhcp = true := by
          rw [hd] at hsort
          exact hsort
        exact (Move.spare (v := s.view L) hi hle hdhcp hgone).moves ⟨hd, hempty⟩
      simp only [if_neg hd]
      refine ⟨fun _ => trivial, _, ⟨h1.putDown (fun hlt => absurd hlt (not_lt.mpr hle))
        fun hlt => absurd hlt (not_lt.mpr hle), ?_⟩, Threads.setChain_self .., trivial⟩
      exact (Move.drop (v := s.view L) hi hle).moves ⟨eq_false_of_ne_true hd, hempty⟩
    · cases hb

/-- The record `d` is an entry of the sort of `r` for the name `p`, and lasts as long as `r`; if
wanted, it is not an empty one. -/
structure Crec.Serves (d r : Crec) (p : CString) (held : Bool) : Prop where
  forward : d.flags.forward = true
  sort : d.flags.ofSort r.flags.dhcp = true
  alone : d.flags.ofSort (!r.flags.dhcp) = false
  name : hostnameIsequal p d.name = true
  outlasts : d.Outlasts r
  held : held = true → d.flags.held = true

def View.Has (cfg : Config) (v : View) (r : Crec) (p : CString) (held : Bool) : Prop :=
  ∃ d, cfg.cachesize ≤ d ∧ v.Hashed d ∧ (v.crec d).Serves r p held

theorem View.hashed_setList {pre rest : List CrecId} (hi : v.chain i =
    pre ++ c :: rest) (hd : d ≠ c) (h : v.Hashed d) : (v.setList i (pre ++ rest)).Hashed d := by
  obtain ⟨j, hj⟩ := h
  refine ⟨j, ?_⟩
  by_cases e : j = i
  · subst e
    rw [View.setList_self]
    rw [hi] at hj
    simpa [hd] using hj
  · rwa [View.setList_of_ne _ e]

/-- Whatever is not an empty entry for the name of the source stays, and lasts no shorter. -/
theorem Moves.has {held : Bool} (hm : Moves cfg (Making source n) v w)
    (hd : cfg.cachesize ≤ d) (hdh : v.Hashed d) (hserves : (v.crec d).Serves r p held)
    (hne : ¬source.EmptyOf (v.crec d)) : w.Has cfg r p held := by
  have hI : w.Hashed d ∧ (w.crec d).Serves r p held ∧ ¬source.EmptyOf (w.crec d) := by
    refine hm.invariant (I := fun u => u.Hashed d ∧ (u.crec d).Serves r p held ∧
      ¬source.EmptyOf (u.crec d)) ⟨hdh, hserves, hne⟩ fun a u u' ha hm hI => ?_
    obtain ⟨hdh, hserves⟩ := hI
    have hother : ∀ {c}, source.EmptyOf (u.crec c) → d ≠ c := by
      rintro c hempty rfl
      exact hserves.2 hempty
    have hsame : ∀ {c r'}, ¬u.Hashed c → ((u.setCrec c r').crec d).Serves r p held ∧
        ¬source.EmptyOf ((u.setCrec c r').crec d) := by
      intro c r' hc
      rw [View.setCrec_of_ne]
      · exact hserves
      · rintro rfl
        exact hc hdh
    cases hm with
    | alloc hlt => exact ⟨hdh, hsame fun hn => absurd (hlt _ (.inl hn)) (lt_irrefl _)⟩
    | drop hi _ | spare hi _ _ _ => exact ⟨View.hashed_setList hi (hother ha.2) hdh, hserves⟩
    | reuse _ hn _ _ _ | add _ _ hn _ _ => exact ⟨View.hashed_hash.mpr (.inr hdh), hsame hn⟩
    | @extend c ttd _ =>
      refine ⟨hdh, ?_⟩
      by_cases e : d = c
      · subst e
        rw [View.setCrec_self]
        refine ⟨{ hserves.1 with outlasts := hserves.1.outlasts.imp_right fun ho =>
                                   ⟨ho.1, ho.2.trans ?_⟩ }, hserves.2⟩
        rw [ha.2.2.2.1]
        exact le_max_left _ _
      · rw [View.setCrec_of_ne _ e]
        exact hserves
    | @immortalise c _ _ _ _ =>
      refine ⟨hdh, ?_⟩
      by_cases e : d = c
      · subst e
        rw [View.setCrec_self]
        exact ⟨{ hserves.1 with outlasts := .inl rfl }, hserves.2⟩
      · rw [View.setCrec_of_ne _ e]
        exact hserves
    | _ => exact absurd ha id
  exact ⟨d, hd, hI.1, hI.2.1⟩

theorem Flags.not_ofSort (h : f.dhcp = true → (f.hosts || f.config) = false)
    (hs : f.ofSort dhcp = true) : f.ofSort (!dhcp) = false := by
  cases dhcp with
  | true => exact h hs
  | false =>
    refine eq_false_of_ne_true fun hd => ?_
    have hs : (f.hosts || f.config) = true := hs
    rw [h hd] at hs
    cases hs

theorem Flags.ofSort_empty (h : f.isStatic = true) : f.empty.ofSort f.dhcp = true := by
  unfold Flags.ofSort Flags.empty
  unfold Flags.isStatic at h
  cases hd : f.dhcp with
  | true => simp
  | false => simpa [hd] using h

theorem hostnameIsequal_self (a : CString) : hostnameIsequal a a = true := by
  simp [hostnameIsequal]

/-- The entry of the same sort for a parent lasts as long as the new name; without one, an empty
entry is made. -/
theorem Threads.addNonTerminal (h : Threads cfg s L ∅) (hst : Statable source.flags)
    (hn : n ≤ s.nextCrec) (hname : name ∈ subnames source.name) :
    ∃ s' L', addNonTerminal cfg source s name = some s' ∧ Reaches cfg (Making source n) s L s' L' ∧
      ((∀ k, cfg.malloc k = true) → (s'.view L').Has cfg source name false) := by
  have hfind := chainFind_eq (fun c =>
    let r := s.crec c
    !isOutdatedCnamePointer s c && r.flags.forward && r.flags.ofSort source.flags.dhcp &&
      hostnameIsequal name r.name) s.nextCrec _ (h.chain_length (hashBucket cfg s.hashSize name))
      (h.hash _)
  unfold Cache.addNonTerminal
  rw [hfind]
  cases hf : (L.chain (hashBucket cfg s.hashSize name)).find? _ with
  | some c =>
    have hc : c ∈ L.chain (hashBucket cfg s.hashSize name) := mem_of_find?_eq_some hf
    have hcond := find?_some hf
    simp only [Bool.and_eq_true] at hcond
    obtain ⟨⟨⟨-, hfwd⟩, hsort⟩, heq⟩ := hcond
    have hplace := (h.place _ c hc).2.2.1
    have hle := hplace.static_iff.mp (Flags.static_of_ofSort hsort)
    have halone := Flags.not_ofSort (hplace.other hle).2.2.2.2.2 hsort
    by_cases hm : (s.crec c).flags.immortal = true
    · exact ⟨s, L, congrArg some (s.modify_eq_self (if_pos hm)), .refl h,
        fun _ => ⟨c, hle, ⟨_, hc⟩, hfwd, hsort, halone, heq, .inl hm, nofun⟩⟩
    -- only entries from DHCP are mortal
    have hdhcp : source.flags.dhcp = true ∧ (s.crec c).flags.dhcp = true := by
      unfold Flags.ofSort at hsort
      split at hsort
      · rename_i hd
        exact ⟨hd, hsort⟩
      · exact absurd ((hplace.other hle).2.2.2.1 (by simpa using hsort)) hm
    have hm := eq_false_of_ne_true hm
    by_cases hi : source.flags.immortal = true
    · refine ⟨s.modify c fun r => { r with flags := { r.flags with immortal := true } }, L,
        congrArg some (s.modify_congr ((if_neg (by simp [hm])).trans (if_pos hi))),
        ⟨?_, ?_⟩, fun _ => ?_⟩
      · exact h.modify_inert rfl (.inr ⟨hle, rfl⟩) fun _ => rfl
      · exact (Move.immortalise (v := s.view L) ⟨_, hc⟩ hle hdhcp.2 hm).moves
          ⟨hdhcp.1, hi, name, hname, heq⟩
      · refine ⟨c, hle, ⟨_, hc⟩, ?_⟩
        rw [State.crec_view, State.modify_self]
        exact ⟨hfwd, hsort, halone, heq, .inl rfl, nofun⟩
    have hi := eq_false_of_ne_true hi
    refine ⟨s.modify c fun r => { r with ttd := max r.ttd source.ttd }, L,
      congrArg some (s.modify_congr ((if_neg (by simp [hm])).trans (if_neg (by simp [hi])))),
      ⟨?_, ?_⟩, fun _ => ?_⟩
    · exact h.modify_inert rfl (.inl rfl) fun _ => rfl
    · exact (Move.extend (v := s.view L) _ hle).moves ⟨hdhcp.1, hi, hm, rfl, hdhcp.2,
        name, hname, heq⟩
    · refine ⟨c, hle, ⟨_, hc⟩, ?_⟩
      rw [State.crec_view, State.modify_self]
      exact ⟨hfwd, hsort, halone, heq, .inr ⟨hi, le_max_right _ _⟩, nofun⟩
  | none =>
    obtain ⟨s', hs', hview, hT, hmem⟩ | ⟨s1, c, s', L', hs1, hs', hR, hcrec, hle, hch⟩ :=
      h.putStatic (n := n) hn source.flags.dhcp (source.emptyFor name) (fun _ => source)
        (fun r c hle => hst.empty hle rfl)
      (fun r => .inr ⟨name, hname, rfl⟩) (fun hd _ => hd)
    · rw [hs']
      refine ⟨s', L, rfl, .of_view hT hview, fun hmal => ?_⟩
      rw [hmal] at hmem
      cases hmem
    rw [hs1]
    refine ⟨s', L', hs', hR, fun _ => ⟨c, hle, hch, ?_⟩⟩
    change (s'.crec c).Serves source name false
    rw [hcrec]
    have hsort := Flags.ofSort_empty hst.static
    refine ⟨hst.forward, hsort, Flags.not_ofSort hst.alone hsort,
      hostnameIsequal_self name, ?_, nofun⟩
    cases hi : source.flags.immortal with
    | true => exact .inl hi
    | false => exact .inr ⟨hi, by simp [Crec.emptyFor, hi]⟩

theorem length_lt_of_mem_subnames (h : p ∈ subnames name) : p.length < name.length := by
  induction name with
  | nil => cases h
  | cons c name ih =>
    rw [subnames] at h
    split at h
    · rcases mem_cons.mp h with rfl | h
      · exact Nat.lt_succ_self _
      · exact (ih h).trans (Nat.lt_succ_self _)
    · exact (ih h).trans (Nat.lt_succ_self _)

theorem length_eq_of_isequal {a b : CString} (h : hostnameIsequal a b = true) :
    a.length = b.length := by
  simp only [hostnameIsequal, decide_eq_true_eq, hostnameOrder_eq_zero_iff] at h
  simpa [foldCase] using congrArg List.length h

theorem not_isequal_of_mem_subnames (h : p ∈ subnames name) : ¬hostnameIsequal p name = true := by
  intro heq
  have h1 := length_lt_of_mem_subnames h
  have h2 := length_eq_of_isequal heq
  omega

/-- What becomes of the cache when `source` is put into it: if no memory is missing, the parents
of its name have entries that last as long. -/
structure Made (cfg : Config) (n : CrecId) (source : Crec) (v w : View) : Prop where
  moves : Moves cfg (Making source n) v w
  parents : (∀ k, cfg.malloc k = true) → ∀ p ∈ subnames source.name, w.Has cfg source p false

/-- First an empty entry for the name itself goes, then the parents get theirs. -/
theorem Threads.makeNonTerminals
    (h : Threads cfg s L ∅) (hst : Statable source.flags) (hn : n ≤ s.nextCrec) :
    ∃ s' L', makeNonTerminals cfg s source = some s' ∧ Threads cfg s' L' ∅ ∧
      Made cfg n source (s.view L) (s'.view L') := by
  obtain ⟨s1, acc, L1, pre, rest, hs1, hR1, -⟩ :=
    @SweepRule.sweepChain cfg s L _ (Making source n) Bool _ _ false
    (dropEmpty_rule cfg source n (hashBucket cfg s.hashSize source.name)) h trivial
  have hfold : ∀ (l : List CString) {t : State} {M : Lists}, (∀ p ∈ l, p ∈ subnames source.name) →
      Reaches cfg (Making source n) s L t M →
      ∃ s' L', l.foldlM (Cache.addNonTerminal cfg source) t = some s' ∧
        Reaches cfg (Making source n) t M s' L' ∧
        ((∀ k, cfg.malloc k = true) → ∀ p ∈ l, (s'.view L').Has cfg source p false) := by
    intro l
    induction l with
    | nil => exact fun {t M} _ hM => ⟨t, M, rfl, .refl hM.threads, fun _ => nofun⟩
    | cons p l ih =>
      intro t M hl hM
      have hp := hl p mem_cons_self
      obtain ⟨t1, M1, ht1, hR, hhas⟩ :=
        hM.threads.addNonTerminal hst (hn.trans hM.moves.nextCrec_le) hp
      obtain ⟨s', L', hs', hR', hrest⟩ :=
        ih (fun p' hp' => hl p' (mem_cons_of_mem p hp')) (hM.trans hR)
      refine ⟨s', L', by simp [foldlM_cons, ht1, hs'], hR.trans hR', fun hmal p' hp' => ?_⟩
      rcases mem_cons.mp hp' with rfl | hp'
      · obtain ⟨d, hd, hdh, hserves⟩ := hhas hmal
        refine hR'.moves.has hd hdh hserves fun hempty => ?_
        exact not_isequal_of_mem_subnames hp
          (hostnameIsequal_trans hserves.name (hostnameIsequal_symm hempty.2.2))
      · exact hrest hmal p' hp'
  obtain ⟨s', L', hs', hR', hhas⟩ := hfold (subnames source.name) (fun _ => id) hR1
  refine ⟨s', L', ?_, hR'.threads, (hR1.trans hR').moves, hhas⟩
  unfold Cache.makeNonTerminals
  simp only [hs1, bind_eq_bind, bind_some]
  exact hs'

/-- After a record that is not of the pool has been hashed, the parents of its name are made. -/
theorem hashStatic_made (hR : Reaches cfg (Making source n) s L t M)
    (hhash : Cache.cacheHash cfg (s'.modify c u) c = some t) (hcrec : t.crec c = source)
    (hle : cfg.cachesize ≤ c)
    (hch : M.Hashed c) (hst : Statable source.flags) (hheld : source.flags.held = true)
    (hn : n ≤ s.nextCrec) :
    ∃ t' M', hashStatic cfg s' c u = some t' ∧ Threads cfg t' M' ∅ ∧
      Made cfg n source (s.view L) (t'.view M') ∧ (t'.view M').Has cfg source source.name true := by
  obtain ⟨t', M', ht', hT', hmade⟩ :=
    hR.threads.makeNonTerminals (n := n) hst (hn.trans hR.moves.nextCrec_le)
  refine ⟨t', M', ?_, hT', ⟨hR.moves.trans hmade.moves, hmade.parents⟩, ?_⟩
  · unfold hashStatic
    simp only [hhash, bind_eq_bind, bind_some, hcrec]
    exact ht'
  have hsort : source.flags.ofSort source.flags.dhcp = true := by
    have := hst.static
    unfold Flags.isStatic at this
    unfold Flags.ofSort
    cases hd : source.flags.dhcp with
    | true => simp
    | false => simpa [hd] using this
  have hserves : ((t.view M).crec c).Serves source source.name true := by
    rw [State.crec_view, hcrec]
    refine ⟨hst.forward, hsort, Flags.not_ofSort hst.alone hsort, hostnameIsequal_self _, ?_,
      fun _ => hheld⟩
    cases hi : source.flags.immortal with
    | true => exact .inl hi
    | false => exact .inr ⟨hi, le_rfl⟩
  refine hmade.moves.has hle hch hserves fun hempty => ?_
  rw [State.crec_view, hcrec] at hempty
  rw [hempty.2.1] at hheld
  cases hheld

/-- One thing done to the cache while local names are put into it. -/
inductive Stage (cfg : Config) (S : Crec → Prop) (q : CString → Prop) (n : CrecId) (v w : View) :
    Prop
  | search {a : Action} : Searching 0 q a v → Move cfg v a w → Stage cfg S q n v w
  | alloc : Move cfg v .alloc w → Stage cfg S q n v w
  | rehash : (∀ name, q name) → Move cfg v .rehash w → Stage cfg S q n v w
  | entry {source : Crec} : S source → source.flags.held = true → Made cfg n source v w →
      w.Has cfg source source.name true → Stage cfg S q n v w
  /-- Only the parents of a name get entries. -/
  | name {name : CString} : S (localName name) → Made cfg n (localName name) v w →
      Stage cfg S q n v w

structure Staged (cfg : Config) (S : Crec → Prop) (q : CString → Prop) (n : CrecId) (s : State)
    (L : Lists) (s' : State) (L' : Lists) : Prop where
  threads : Threads cfg s' L' ∅
  stages : Relation.ReflTransGen (Stage cfg S q n) (s.view L) (s'.view L')

theorem Staged.refl (h : Threads cfg s L ∅) : Staged cfg S q n s L s L :=
    ⟨h, Relation.ReflTransGen.refl⟩

theorem Staged.trans (h : Staged cfg S q n s L t M) (h' : Staged cfg S q n t M s' L') :
    Staged cfg S q n s L s' L' :=
  ⟨h'.threads, h.stages.trans h'.stages⟩

theorem Staged.of_stage (h : Threads cfg s' L' ∅) (hs : Stage cfg S q n (s.view L) (s'.view L')) :
    Staged cfg S q n s L s' L' := ⟨h, Relation.ReflTransGen.single hs⟩

theorem Staged.of_view (h : Threads cfg s' L' ∅) (hv : s'.view L' = s.view L) :
    Staged cfg S q n s L s' L' :=
  ⟨h, hv ▸ Relation.ReflTransGen.refl⟩

theorem Reaches.staged (h : Reaches cfg (Searching 0 q) s L s' L') : Staged cfg S q n s L s' L' :=
  ⟨h.threads, Relation.ReflTransGen.mono (fun _ _ ⟨_, ha, hm⟩ => .search ha hm) _ _ h.moves⟩

theorem Stage.moves (h : Stage cfg S q n v w) : Moves cfg (Stating S q n) v w := by
  cases h with
  | search ha hm => exact hm.moves ha.stating
  | alloc hm => exact hm.moves (.inr (.inl rfl))
  | rehash hq hm => exact hm.moves (.inr (.inr (.inl ⟨rfl, hq⟩)))
  | entry hS _ hmade _ | name hS hmade => exact hmade.moves.mono fun _ _ ha => ha.stating hS

theorem Staged.reaches (h : Staged cfg S q n s L s' L') :
    Reaches cfg (Stating S q n) s L s' L' := by
  refine ⟨h.threads, ?_⟩
  have hstages := h.stages
  generalize s'.view L' = w at hstages
  induction hstages with
  | refl => exact Moves.refl _
  | tail _ hs ih => exact ih.trans hs.moves

theorem Staged.nextCrec_le (h : Staged cfg S q n s L s' L') : s.nextCrec ≤ s'.nextCrec :=
    h.reaches.moves.nextCrec_le

end Dnsmasq.Cache
