import Dnsmasq.Cache.Conflict

/-!
"Internal error in cache." is not reached as long as local names are not added over upstream
entries that they clash with.
-/
namespace Dnsmasq.Cache

open List Lib

variable {cfg : Config} {s s' t : State} {L L' M : Lists} {c d : CrecId} {v w : View} {a : Action}
  {S : Crec → Prop} {q : CString → Prop} {n : ℕ}

theorem View.Quiet.restart (h : v.Quiet cfg v.Hashed)
    (hm : Moves cfg (fun a _ => (∃ c, a = .dropNew c) ∨ a = .reset) v w) :
    w.Quiet cfg w.Hashed := by
  refine hm.invariant (I := fun u => u.Quiet cfg u.Hashed) h fun a u u' ha hm hI => ?_
  cases hm with
  | @dropNew c rest _ _ hh =>
    have hsame : ∀ d, u.Hashed d → (u.setCrec c (u.crec c).free).crec d = u.crec d := fun d hd =>
      View.setCrec_of_not_hashed hh _ hd
    exact hI.of_alike (fun _ _ => id) (fun d _ hd => .of_eq (hsame d hd))
      (fun d _ hd => ⟨hd, .of_eq (hsame d hd)⟩) rfl
  | reset =>
    exact hI.of_alike (fun _ _ => id) (fun _ _ _ => .of_eq rfl) (fun _ _ hd => ⟨hd, .of_eq rfl⟩) rfl
  | _ => obtain ⟨d, hd⟩ | hd := ha <;> cases hd

theorem View.Quiet.hashed (h : v.Quiet cfg v.Live) : v.Quiet cfg v.Hashed :=
  h.of_alike (fun _ _ => .inl) (fun _ _ _ => .of_eq rfl) (fun _ _ hd => ⟨hd, .of_eq rfl⟩) rfl

theorem Threads.quiet_transaction
    (h : Threads cfg s L ∅) (hq : (s.view L).Quiet cfg (s.view L).Hashed) (t : Transaction) :
    ∃ s' L', t.run cfg s = some s' ∧ Threads cfg s' L' ∅ ∧
      (s'.view L').Quiet cfg (s'.view L').Hashed := by
  refine h.transaction (I := fun s L => (s.view L).Quiet cfg (s.view L).Hashed)
    (J := fun s L cpp rest =>
    (s.view L).Quiet cfg (s.view L).Live ∧ (cpp = none ∧ (∀ it ∈ rest, it.ins.flags.cname = false) ∨
      ∀ it ∈ rest, it.ins.flags.dnssec = false)) t ?_ ?_ ?_ ?_
  · rintro s1 L1 ⟨hR, hnew, -⟩
    refine ⟨?_, t.shape.imp (fun h => ⟨rfl, h⟩) And.left⟩
    refine (hq.restart hR.moves).of_alike (fun c _ hl => ?_) (fun _ _ _ => .of_eq rfl)
      (fun _ _ hd => ⟨hd, .of_eq rfl⟩) rfl
    refine hl.resolve_right fun hm => ?_
    have hnew : (s1.view L1).new = [] := hnew
    rw [hnew] at hm
    cases hm
  · rintro s L it rest cpp s' L' cpp' - ⟨hJ, hshape⟩ ⟨s1, L1, new, hins, hlink, rfl⟩
    have h1 : (s1.view L1).Quiet cfg (s1.view L1).Live := hJ.inserted hins
    refine ⟨?_, ?_⟩
    · cases new with
      | none =>
        obtain ⟨rfl, rfl⟩ := hlink
        exact h1
      | some c =>
        cases cpp with
        | none =>
          obtain ⟨rfl, rfl⟩ := hlink
          exact h1
        | some p =>
          -- a CNAME is waiting, so that this is no DNSSEC record
          have hd := (hshape.resolve_left fun h => by cases h.1) it mem_cons_self
          have hc : ((s1.view L1).crec c).flags.dnssec = false := hins.not_dnssec hd
          have hR : Reaches cfg (fun a _ => a = .link p c) s1 L1 s' L' := hlink
          have hboth : (s'.view L').Quiet cfg (s'.view L').Live ∧
              ((s'.view L').crec c).flags.dnssec = false := by
            refine hR.moves.invariant (I := fun u => u.Quiet cfg u.Live ∧
              (u.crec c).flags.dnssec = false) ⟨h1, hc⟩ ?_
            rintro a u u' rfl hm hI
            refine ⟨hI.1.link hI.2 hm, ?_⟩
            cases hm with
            | link =>
              have hflags : ∀ e, (((u.nextUid c).setCrec p { (u.nextUid c).crec p with
                  target := some c, targetUid := ((u.nextUid c).crec c).uid }).crec e).flags =
                    (u.crec e).flags := by
                intro e
                by_cases he : e = p
                · subst he
                  rw [View.setCrec_self]
                  exact View.nextUid_flags u c e
                · rw [View.setCrec_of_ne _ he]
                  exact View.nextUid_flags u c e
              rw [hflags]
              exact hI.2
          exact hboth.1
    rcases hshape with ⟨-, hcn⟩ | hds
    · refine .inl ⟨?_, fun it' hit => hcn it' (mem_cons_of_mem it hit)⟩
      rw [if_neg (by simp [hcn it mem_cons_self])]
    · exact .inr fun it' hit => hds it' (mem_cons_of_mem it hit)
  · rintro s L cpp s' L' - ⟨hJ, -⟩ ⟨hR, -⟩
    exact (hJ.committing hR.moves).hashed
  · rintro s L cpp - ⟨hJ, -⟩
    exact hJ.hashed

/-- A record with the flags and the name of `r` would be in the way of no upstream entry. -/
def View.Free (cfg : Config) (v : View) (r : Crec) : Prop :=
  ∀ c < cfg.cachesize, v.Hashed c → (v.crec c).flags.forward = true → ¬(v.crec c).Hits r

/-- What the moves for local names do: upstream entries may only go, and those from elsewhere
stay as they are or are made for the names of `S`. -/
structure Adds (cfg : Config) (S : Crec → Prop) (v w : View) : Prop where
  pool : ∀ c < cfg.cachesize, w.Hashed c → v.Hashed c ∧ w.crec c = v.crec c
  other : ∀ d, cfg.cachesize ≤ d → w.Hashed d → v.Hashed d ∧ (v.crec d).Alike (w.crec d) ∨
    ∃ r₀, S r₀ ∧ (w.crec d = r₀ ∨ ∃ p ∈ subnames r₀.name, ∃ r, w.crec d = r₀.emptyFor p r)
  warned : w.warned = v.warned

theorem Adds.of_sheds (hs : Sheds v w) : Adds cfg S v w :=
  ⟨fun c _ hc => hs.hashed c hc, fun d _ hd => .inl ⟨(hs.hashed d hd).1, .of_eq (hs.hashed d hd).2⟩,
    hs.warned⟩

variable {r : Crec}

theorem Adds.hash {u : View} (hc : cfg.cachesize ≤ c) (hcrec : u.crec = (v.setCrec c r).crec)
    (hchain : u.chain = v.chain) (hwarned : u.warned = v.warned)
    (hr : ∃ r₀, S r₀ ∧ (r = r₀ ∨ ∃ p ∈ subnames r₀.name, ∃ r', r = r₀.emptyFor p r')) :
    Adds cfg S v (u.hash cfg c) := by
  have hself : (u.hash cfg c).crec c = r := by
    change u.crec c = r
    rw [hcrec, View.setCrec_self]
  have hne : ∀ d, d ≠ c → (u.hash cfg c).crec d = v.crec d := by
    intro d hd
    change u.crec d = v.crec d
    rw [hcrec, View.setCrec_of_ne _ hd]
  have hhash : ∀ d, (u.hash cfg c).Hashed d → d ≠ c → v.Hashed d := by
    intro d hd hdc
    obtain ⟨i, hi⟩ := (View.hashed_hash.mp hd).resolve_left hdc
    rw [hchain] at hi
    exact ⟨i, hi⟩
  refine ⟨fun d hd hdh => ?_, fun d hd hdh => ?_, hwarned⟩
  · have hdc : d ≠ c := fun e => absurd hd (not_lt.mpr (e ▸ hc))
    exact ⟨hhash d hdh hdc, hne d hdc⟩
  by_cases hdc : d = c
  · subst hdc
    rw [hself]
    exact .inr hr
  · exact .inl ⟨hhash d hdh hdc, .of_eq (hne d hdc)⟩

theorem Adds.setCrec (hc : cfg.cachesize ≤ c) (hr : (v.crec c).Alike r) :
    Adds cfg S v (v.setCrec c r) := by
  refine ⟨fun e he hh =>
    ⟨hh, View.setCrec_of_ne _ (fun h : e = c => absurd he (not_lt.mpr (h ▸ hc))) _⟩,
    fun d _ hh => .inl ⟨hh, ?_⟩, rfl⟩
  by_cases hd : d = c
  · subst hd
    rwa [View.setCrec_self]
  · exact .of_eq (View.setCrec_of_ne _ hd _)

theorem Move.adds (hm : Move cfg v a w) (ha : Stating S q n a v) : Adds cfg S v w := by
  cases hm with
  | drop hi _ | spare hi _ _ _ =>
    exact ⟨fun c _ hc => ⟨View.hashed_of_setList (subset_of_eq_append_cons hi) hc, rfl⟩,
      fun d _ hd => .inl ⟨View.hashed_of_setList (subset_of_eq_append_cons hi) hd, .of_eq rfl⟩, rfl⟩
  | release hi hc hn hg =>
    exact .of_sheds (@Move.sheds _ _ _ _ (fun _ => True) 0 (Move.release hi hc hn hg) trivial)
  | touch hi hc =>
    exact .of_sheds (@Move.sheds _ _ _ _ (fun _ => True) 0 (Move.touch hi hc) trivial)
  | rotate hi h1 h2 =>
    exact .of_sheds (@Move.sheds _ _ _ _ (fun _ => True) 0
      (show Move cfg _ _ _ from .rotate hi h1 h2) trivial)
  | alloc hlt =>
    have hsame : ∀ d, v.Hashed d → (v.setCrec v.nextCrec {}).crec d = v.crec d := fun d hd =>
      View.setCrec_of_not_hashed (fun hn => absurd (hlt _ (.inl hn)) (lt_irrefl _)) _ hd
    exact ⟨fun c _ hc => ⟨hc, hsame c hc⟩, fun d _ hd => .inl ⟨hd, .of_eq (hsame d hd)⟩, rfl⟩
  | @reuse c r rest _ _ _ hc _ =>
    obtain ⟨r₀, hr₀, -, hr⟩ := ha.making id nofun nofun
    exact .hash (u := { v.setCrec c r with spare := rest }) hc rfl rfl rfl
      ⟨r₀, hr₀, hr.imp_right fun ⟨p, hp, h⟩ => ⟨p, hp, _, h⟩⟩
  | @add c r hc _ _ _ _ _ =>
    obtain ⟨r₀, hr₀, -, hr⟩ := ha.making id nofun nofun
    exact .hash (u := v.setCrec c r) hc rfl rfl rfl ⟨r₀, hr₀,
      hr.imp_right fun ⟨p, hp, h⟩ => ⟨p, hp, _, h⟩⟩
  | extend _ hc | immortalise _ hc _ _ => exact .setCrec hc ⟨rfl, rfl, fun _ => rfl⟩
  | rehash hh _ =>
    exact ⟨fun c _ hc => ⟨(hh c).mpr hc, rfl⟩, fun d _ hd => .inl ⟨(hh d).mpr hd, .of_eq rfl⟩, rfl⟩
  | _ =>
    obtain ⟨_, _, hmaking⟩ := ha.making id nofun nofun
    exact hmaking.elim

theorem View.Quiet.stating (hm : Moves cfg (Stating S q n) v w) (h : v.Quiet cfg v.Hashed)
    (hfree : ∀ r₀, S r₀ → v.Free cfg r₀ ∧ ∀ p ∈ subnames r₀.name, ∀ r,
      v.Free cfg (r₀.emptyFor p r)) :
    w.Quiet cfg w.Hashed := by
  have hboth : w.Quiet cfg w.Hashed ∧ ∀ r, v.Free cfg r → w.Free cfg r := by
    refine hm.invariant (I := fun u => u.Quiet cfg u.Hashed ∧ ∀ r, v.Free cfg r → u.Free cfg r) ⟨h,
      fun _ => id⟩ ?_
    intro a u u' ha hm hI
    obtain ⟨hpool, hother, hwarned⟩ := hm.adds ha
    refine ⟨⟨fun c hc hch hf d hd hdh hhit => ?_, fun c hc hch hf => ?_, fun c hc hch hd => ?_,
      hwarned.trans hI.1.quiet⟩, fun r hr c hc hch hf => ?_⟩
    · obtain ⟨hcu, hce⟩ := hpool c hc hch
      rw [hce] at hf hhit
      rcases hother d hd hdh with ⟨hdu, hal⟩ | ⟨r₀, hr₀, hnew⟩
      · exact hI.1.free c hc hcu hf d hd hdu (hhit.of_alike (.of_eq rfl) hal)
      obtain ⟨h1, h2⟩ := hfree r₀ hr₀
      rcases hnew with hnew | ⟨p, hp, r, hnew⟩
      · rw [hnew] at hhit
        exact hI.2 _ h1 c hc hcu hf hhit
      · rw [hnew] at hhit
        exact hI.2 _ (h2 p hp r) c hc hcu hf hhit
    · obtain ⟨hcu, hce⟩ := hpool c hc hch
      rw [hce] at hf ⊢
      exact hI.1.typed c hc hcu hf
    · obtain ⟨hcu, hce⟩ := hpool c hc hch
      rw [hce] at hd ⊢
      exact hI.1.cls c hc hcu hd
    · obtain ⟨hcu, hce⟩ := hpool c hc hch
      rw [hce] at hf ⊢
      exact hI.2 r hr c hc hcu hf
  exact hboth.1

/-- Of the types of an upstream entry, an address entry from elsewhere is in the way of the same
family, and of a CNAME. -/
theorem Flags.clashes_address {f g : Flags} (hs : g.srv = false) (hn : g.nxdomain = false)
    (hc : g.cname = false) (hd : g.dnssec = false) : f.clashes g = (f.sameFamily g || f.cname) := by
  simp [Flags.clashes, hs, hn, hc, hd]

theorem Crec.Hits.clashes {d : Crec} (h : r.Hits d) (hd : d.flags.dnssec = false) :
    r.flags.clashes d.flags = true := by
  refine h.2.2.resolve_right fun hs => ?_
  rw [Flags.dnssec_of_sameDnssec hs.1] at hd
  cases hd

variable {r₀ : Crec} {p : CString}

theorem Crec.Hits.cname_of_empty {r' : Crec} (h : r.Hits (r₀.emptyFor p r'))
    (hn : r₀.flags.nxdomain = false) : r.flags.cname = true ∧ hostnameIsequal r.name p = true := by
  have hcl := h.clashes rfl
  rw [Flags.clashes_address (g := (r₀.emptyFor p r').flags) rfl hn rfl rfl] at hcl
  refine ⟨?_, hostnameIsequal_symm h.2.1⟩
  simpa [Flags.sameFamily, Crec.emptyFor, Flags.empty] using hcl

/-- No upstream entry for the name is a CNAME or has an address of the family. -/
def State.ClearOf (s : State) (name : CString) (family : Flags) : Prop :=
  ∀ i, ∀ c ∈ s.chain i, (s.crec c).flags.isStatic = false → (s.crec c).flags.forward = true →
    hostnameIsequal (s.crec c).name name = true →
    ((s.crec c).flags.sameFamily family || (s.crec c).flags.cname) = false

def State.NoAliasAbove (s : State) (name : CString) : Prop :=
  ∀ i, ∀ c ∈ s.chain i, (s.crec c).flags.isStatic = false → (s.crec c).flags.forward = true →
    ∀ p ∈ subnames name, hostnameIsequal (s.crec c).name p = true → (s.crec c).flags.cname = false

/-- Local names are added only where no upstream entry is that they would be in the way of. For a
lease, the entries for its own name are freed anyway. -/
def KeepsApart (s : State) : Event → Prop
  | .other (.hostsFile file) _ =>
    ∀ line ∈ file.lines, ∀ e ∈ line, s.ClearOf e.name e.family ∧ s.NoAliasAbove e.name
  | .other (.addDhcpEntry l) _ => s.NoAliasAbove l.name
  | _ => True

variable {name : CString}

theorem Threads.free_empty (h : Threads cfg s L ∅) (hn : r₀.flags.nxdomain = false)
    (hname : r₀.name = name) (hok : s.NoAliasAbove name) (hp : p ∈ subnames r₀.name) (r : Crec) :
    (s.view L).Free cfg (r₀.emptyFor p r) := by
  rintro c hc ⟨i, hi⟩ hf hhit
  obtain ⟨hcn, heq⟩ := hhit.cname_of_empty hn
  have := hok i c (by rwa [h.chain_eq]) (Flags.upstream_not_static ((h.place i c hi).2.2.1.pool hc))
    hf p (hname ▸ hp) heq
  have hcn : (s.crec c).flags.cname = true := hcn
  rw [this] at hcn
  cases hcn

theorem Threads.free_entry (h : Threads cfg s L ∅) {e : HostsEntry}
    (hok : s.ClearOf e.name e.family) (ttd : ℤ)
    (index : ℕ) (reverse : Bool) : (s.view L).Free cfg (e.crec false ttd index reverse {}) := by
  rintro c hc ⟨i, hi⟩ hf hhit
  have hcl := hhit.clashes (by simp [HostsEntry.crec, HostsEntry.family, Flags.dnssec])
  rw [Flags.clashes_address rfl rfl rfl
    (by simp [HostsEntry.crec, HostsEntry.family, Flags.dnssec])] at hcl
  have :=
    hok i c (by rwa [h.chain_eq]) (Flags.upstream_not_static ((h.place i c hi).2.2.1.pool hc)) hf
    (hostnameIsequal_symm hhit.2.1)
  have hcl : ((s.crec c).flags.sameFamily e.family || (s.crec c).flags.cname) = true := hcl
  rw [this] at hcl
  cases hcl

theorem Lease.Clear.free {l : Lease} (h : l.Clear cfg v) (hr : l.Record r) : v.Free cfg r := by
  obtain ⟨reverse, r₀, rfl⟩ := hr
  intro c hc hch hf hhit
  have hans := h c hc hch
  have hcl := hhit.clashes (by simp [Lease.crec, Lease.family, Flags.dnssec])
  rw [Flags.clashes_address rfl rfl rfl (by simp [Lease.crec, Lease.family, Flags.dnssec])] at hcl
  have hname : hostnameIsequal (v.crec c).name l.name = true := hostnameIsequal_symm hhit.2.1
  simp only [Crec.answers, hf, hname, Bool.true_and, Bool.and_true, Lease.meets_prot] at hans
  have hcl : ((v.crec c).flags.sameFamily l.family || (v.crec c).flags.cname) = true := hcl
  unfold Flags.sameFamily Lease.family at hcl
  cases hl : l.ipv6 <;> simp_all

theorem State.NoAliasAbove.sheds
    (h : Threads cfg s L ∅) (h' : Threads cfg s' L' ∅) (hok : s.NoAliasAbove name)
    (hs : Sheds (s.view L) (s'.view L')) : s'.NoAliasAbove name := by
  intro i c hc
  rw [h'.chain_eq] at hc
  obtain ⟨⟨j, hj⟩, he⟩ := hs.hashed c ⟨i, hc⟩
  have he : s'.crec c = s.crec c := he
  rw [he]
  exact hok j c (by rw [h.chain_eq]; exact hj)

theorem Effect.quiet {op : Op} (hout : op.outside = true) (h : Threads cfg s L ∅)
    (hq : (s.view L).Quiet cfg (s.view L).Hashed) (hok : KeepsApart s (.other op hout))
    (heff : Effect cfg op s L s' L') : (s'.view L').Quiet cfg (s'.view L').Hashed := by
  cases op with
  | startInsert | insert | linkCname | endInsert => cases hout
  | findByName => exact hq.sheds (Reaches.sheds heff)
  | findByAddr => exact hq.sheds heff.1.sheds
  | unhashDhcp =>
    refine heff.1.moves.invariant (I := fun u => u.Quiet cfg u.Hashed) hq fun a u u' ha hm hI => ?_
    obtain ⟨c, rfl⟩ := ha
    cases hm with
    | spare hi _ _ _ =>
      have hsub : ∀ d, Lists.Hashed (View.toLists (u.setList _ _)) d → u.Hashed d := fun d =>
        View.hashed_of_setList (subset_of_eq_append_cons hi)
      exact hI.of_alike (fun d _ => hsub d) (fun _ _ _ => .of_eq rfl)
        (fun d _ hd => ⟨hsub d hd, .of_eq rfl⟩) rfl
  | addDhcpEntry l =>
    obtain ⟨s1, L1, hR1, hclear, hR2⟩ := heff
    have hnot : ¬(s.view L).Conflict cfg :=
      fun ⟨c, d, hc, hch, hd, hdh, hf, hhit⟩ => hq.free c hc hch hf d hd hdh hhit
    have hclear := hclear.resolve_left hnot
    have halias : s1.NoAliasAbove l.name := State.NoAliasAbove.sheds h hR1.threads hok hR1.sheds
    refine (hq.sheds hR1.sheds).stating hR2.reaches.moves fun r₀ hr₀ => ⟨hclear.free hr₀,
      fun p hp r => ?_⟩
    refine hR1.threads.free_empty ?_ hr₀.name halias hp r
    obtain ⟨reverse, r', rfl⟩ := hr₀
    rfl
  | hostsFile file =>
    refine hq.stating (Staged.reaches heff).moves fun r₀ hr₀ => ?_
    obtain ⟨line, hline, e, he, reverse, rfl⟩ := hr₀
    obtain ⟨hclear, halias⟩ := hok line hline e he
    exact ⟨h.free_entry hclear _ _ _, fun p hp r => h.free_empty rfl rfl halias hp r⟩
  | reload d =>
    -- no upstream entry is left before the names are read again
    obtain ⟨s1, L1, hR1, hdhcp, -, hR2⟩ := heff
    have hnone : ∀ c < cfg.cachesize, ¬(s1.view L1).Hashed c := by
      rintro c hc ⟨i, hi⟩
      have hstatic := Flags.upstream_not_static ((hR1.threads.place i c hi).2.2.1.pool hc)
      simp [Flags.isStatic, hdhcp c ⟨i, hi⟩] at hstatic
    have hwarned : (s1.view L1).warned = (s.view L).warned := by
      refine hR1.moves.invariant (I := fun u => u.warned =
        (s.view L).warned) rfl fun a u u' ha hm hI => ?_
      cases hm <;> first | exact hI | exact absurd ha id
    have hq1 : (s1.view L1).Quiet cfg (s1.view L1).Hashed :=
      ⟨fun c hc hch => absurd hch (hnone c hc), fun c hc hch => absurd hch (hnone c hc),
        fun c hc hch => absurd hch (hnone c hc), hwarned.trans hq.quiet⟩
    exact hq1.stating hR2.reaches.moves fun r₀ _ =>
      ⟨fun c hc hch => absurd hch (hnone c hc), fun p _ r c hc hch => absurd hch (hnone c hc)⟩

/-- Where local names are added only apart from what they would clash with, the error is never
met, and whenever the least recently used entry is in use, the scan for it frees it. -/
theorem runEvents_never_warned (cfg : Config) (events : List Event)
    (hok : ∀ s, cacheInit cfg = some s → MeetsAll cfg KeepsApart s events) :
    ∃ s, (cacheInit cfg).bind (runEvents cfg · events) = some s ∧ s.warned = false ∧
      ∀ c, s.tail = some c → (s.crec c).flags.inUse = true → ∀ now garbled, ∃ s' found target,
        cacheScanFree cfg s ((s.crec c).scanArgs c now garbled) = some (s', found, target) ∧
        (s'.crec c).flags.inUse = false := by
  obtain ⟨s₀, L₀, hinit, hT₀, hempty, -, -, hwarned₀⟩ := cacheInit_threads cfg
  have hq₀ : (s₀.view L₀).Quiet cfg (s₀.view L₀).Hashed :=
    ⟨fun c _ hch => absurd hch (hempty c), fun c _ hch => absurd hch (hempty c),
      fun c _ hch => absurd hch (hempty c), hwarned₀⟩
  obtain ⟨s, L, hs, hT, hq⟩ :=
    hT₀.runEvents_invariant (I := fun s L => (s.view L).Quiet cfg (s.view L).Hashed)
    (K := KeepsApart) hq₀ (fun hT hI t _ => hT.quiet_transaction hI t)
    (fun hout hT hI hok heff => heff.quiet hout hT hI hok) events (hok s₀ hinit)
  refine ⟨s, by rw [hinit]; exact hs, hq.quiet, fun c hc hu now garbled => ?_⟩
  have hlast : L.lru.getLast? = some c := by rw [← hT.lru.tail_eq]; exact hc
  have hlru : c ∈ L.lru := mem_of_getLast? hlast
  obtain ⟨s', L', found, target, hs', hR, hblocked⟩ := hT.scanOwn hlru hu now garbled
  refine ⟨s', found, target, hs', eq_false_of_ne_true fun hu' => ?_⟩
  -- if it were still in use, it would be in a chain
  have hpool := hT.lruPool c hlru
  have hlru' : c ∈ L'.lru := by
    refine (hR.threads.pool c hpool (Set.notMem_empty c)).resolve_right fun hn => hT.apart c hlru ?_
    rwa [← show L'.new = L.new from hR.shed.new]
  have hch' : L'.Hashed c := ⟨_, hR.threads.hashed c hlru' (Set.notMem_empty c) hu'⟩
  have hch : (s.view L).Hashed c := (hR.shed.hashed c hch').1
  obtain ⟨hf, hblocked⟩ := hblocked hch'
  obtain ⟨d, hd, hdh, hhit⟩ :=
    hblocked (Crec.hits_self (hq.typed c hpool hch hf) hf (hq.cls c hpool hch))
  obtain ⟨hdh', hde⟩ := hR.shed.hashed d hdh
  rw [show s'.crec d = s.crec d from hde] at hhit
  exact hq.free c hpool hch hf d hd hdh' hhit

def addressTransaction (name : CString) (addr : List UInt8) : Transaction where
  items :=
    [{ ins := { name := some name, addr := some addr, ttl := 100,
                flags := { forward := true, ipv4 := true }, upstream := rfl } }]
  shape := .inl (by simp)

theorem runEvents_never_warned_hosts :
    ∃ s, (cacheInit { cachesize := 1 }).bind (runEvents { cachesize := 1 } ·
        [.other (.hostsFile { lines := [[{ name := [112], addr := [1, 2, 3, 5] }]] }) rfl,
          .transaction (addressTransaction [112] [1, 2, 3, 4]),
          .transaction (addressTransaction [113] [1, 2, 3, 4])]) =
      some s ∧ s.warned = false := by
  obtain ⟨s, hs, hw, -⟩ := runEvents_never_warned { cachesize := 1 }
    [.other (.hostsFile { lines := [[{ name := [112], addr := [1, 2, 3, 5] }]] }) rfl,
      .transaction (addressTransaction [112] [1, 2, 3, 4]),
      .transaction (addressTransaction [113] [1, 2, 3, 4])]
    (fun s hs => by
      cases hs
      refine ⟨fun line _ e _ => ⟨fun i c hc => ?_, fun i c hc => ?_⟩,
        fun _ _ => ⟨trivial, fun _ _ => ⟨trivial, fun _ _ => trivial⟩⟩⟩ <;>
        exact absurd hc not_mem_nil)
  exact ⟨s, hs, hw⟩

/-- The address of `p` is cached; then a hosts file with another address for `p` appears; then
room is needed for the address of `q`. -/
theorem runEvents_hosts_later : ((cacheInit { cachesize := 1 }).bind (runEvents { cachesize := 1 } ·
      [.transaction (addressTransaction [112] [1, 2, 3, 4]),
        .other (.hostsFile { lines := [[{ name := [112], addr := [1, 2, 3, 5] }]] }) rfl,
        .transaction (addressTransaction [113] [1, 2, 3, 4])])).map State.warned = some true := by
  decide +kernel

end Dnsmasq.Cache
