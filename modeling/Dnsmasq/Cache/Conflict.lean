import Dnsmasq.Cache.Order

/-!
`really_insert` fails to free the least recently used entry only if an entry from elsewhere stops
the scan for it.
-/
namespace Dnsmasq.Cache

open List Lib

variable {cfg : Config} {s s' t : State} {L L' M : Lists} {c d : CrecId} {v w : View} {a : Action}
  {live live' : CrecId → Prop}

variable {r r' : Crec} {ins : Insert}

theorem Crec.hits_self (htyped : r.flags.typed = true) (hf : r.flags.forward = true)
    (hu : r.flags.dnssec = true → r.uid < 2 ^ 16) : r.Hits r := by
  refine ⟨hf, by simp [hostnameIsequal], ?_⟩
  cases hd : r.flags.dnssec with
  | true =>
    right
    refine ⟨?_, (Nat.mod_eq_of_lt (hu hd)).symm⟩
    simpa [Flags.dnssec, Flags.sameDnssec] using hd
  | false =>
    left
    have hd' := hd
    simp only [Flags.dnssec, Bool.or_eq_false_iff] at hd'
    simp only [Flags.typed, hd'.1, hd'.2, Bool.or_false, Bool.or_eq_true] at htyped
    simp only [Flags.clashes, Flags.sameFamily, Bool.and_self, Bool.or_self, hd, Bool.not_false,
      Bool.and_true, Bool.or_eq_true]
    tauto

/-- The records differ in nothing that decides whether one is in the way of the other. -/
structure Crec.Alike (r r' : Crec) : Prop where
  name : r'.name = r.name
  flags : ({ r'.flags with immortal := false } : Flags) = { r.flags with immortal := false }
  uid : r.flags.dnssec = true → r'.uid = r.uid

theorem Crec.Alike.of_eq (h : r' = r) : r.Alike r' := by
  subst h
  exact ⟨rfl, rfl, fun _ => rfl⟩

/-- What does not depend on `F_IMMORTAL` is the same. -/
theorem Crec.Alike.field {r r' : Crec} (h : r.Alike r') {α : Type} (π : Flags → α)
    (hπ : ∀ f : Flags, π { f with immortal := false } = π f) : π r'.flags = π r.flags := by
  rw [← hπ r'.flags, h.flags, hπ]

theorem Crec.Hits.of_alike {d d' : Crec} (h : r'.Hits d') (hr : r.Alike r') (hd : d.Alike d') :
    r.Hits d := by
  obtain ⟨h1, h2, h3⟩ := h
  have hclash : r'.flags.clashes d'.flags = r.flags.clashes d.flags :=
    (hr.field (Flags.clashes · d'.flags) fun _ => rfl).trans (hd.field (Flags.clashes r.flags)
      fun _ => rfl)
  have hsame : r'.flags.sameDnssec d'.flags = r.flags.sameDnssec d.flags :=
    (hr.field (Flags.sameDnssec · d'.flags) fun _ => rfl).trans (hd.field (Flags.sameDnssec r.flags)
      fun _ => rfl)
  refine ⟨?_, hr.name ▸ hd.name ▸ h2, ?_⟩
  · rw [← h1]
    exact (hd.field (·.forward) fun _ => rfl).symm
  rw [hclash, hsame] at h3
  refine h3.imp_right fun ⟨h3, h4⟩ => ⟨h3, ?_⟩
  have hboth : r.flags.dnssec = true ∧ d.flags.dnssec = true := by
    simp only [Flags.sameDnssec, Flags.dnssec, Bool.or_eq_true, Bool.and_eq_true] at h3 ⊢
    tauto
  rw [← hd.uid hboth.2, ← hr.uid hboth.1]
  exact h4

/-- No entry from elsewhere is in the way of an upstream entry that satisfies `live`. -/
structure View.Quiet (cfg : Config) (v : View) (live : CrecId → Prop) : Prop where
  free : ∀ c < cfg.cachesize, live c → (v.crec c).flags.forward = true →
    ∀ d, cfg.cachesize ≤ d → v.Hashed d → ¬(v.crec c).Hits (v.crec d)
  typed : ∀ c < cfg.cachesize, live c → (v.crec c).flags.forward = true →
    (v.crec c).flags.typed = true
  /-- In DNSSEC records the uid is the class. -/
  cls : ∀ c < cfg.cachesize, live c → (v.crec c).flags.dnssec = true → (v.crec c).uid < 2 ^ 16
  quiet : v.warned = false

/-- The new records of a transaction count as well as those in chains. -/
def View.Live (v : View) (c : CrecId) : Prop := v.Hashed c ∨ c ∈ v.new

theorem View.Quiet.of_alike (h : v.Quiet cfg live) (hlive : ∀ c < cfg.cachesize, live' c → live c)
    (hpool : ∀ c < cfg.cachesize, live' c → (v.crec c).Alike (w.crec c))
    (hother : ∀ d, cfg.cachesize ≤ d → w.Hashed d → v.Hashed d ∧ (v.crec d).Alike (w.crec d))
    (hq : w.warned = v.warned) : w.Quiet cfg live' := by
  constructor
  · intro c hc hl hf d hd hdh hhit
    obtain ⟨hdv, hda⟩ := hother d hd hdh
    have hca := hpool c hc hl
    rw [hca.field (·.forward) fun _ => rfl] at hf
    exact h.free c hc (hlive c hc hl) hf d hd hdv (hhit.of_alike hca hda)
  · intro c hc hl hf
    have hca := hpool c hc hl
    rw [hca.field (·.forward) fun _ => rfl] at hf
    rw [hca.field (·.typed) fun _ => rfl]
    exact h.typed c hc (hlive c hc hl) hf
  · intro c hc hl hd
    have hca := hpool c hc hl
    rw [hca.field (·.dnssec) fun _ => rfl] at hd
    rw [hca.uid hd]
    exact h.cls c hc (hlive c hc hl) hd
  · exact hq.trans h.quiet

theorem View.Quiet.sheds (h : v.Quiet cfg v.Hashed) (hs : Sheds v w) : w.Quiet cfg w.Hashed :=
  h.of_alike (fun c _ hc => (hs.hashed c hc).1) (fun c _ hc => .of_eq (hs.hashed c hc).2)
    (fun d _ hd => ⟨(hs.hashed d hd).1, .of_eq (hs.hashed d hd).2⟩) hs.warned

theorem View.Quiet.sheds_live (h : v.Quiet cfg v.Live) (hs : Sheds v w) : w.Quiet cfg w.Live := by
  have hkeep : ∀ c, w.Live c → v.Live c ∧ w.crec c = v.crec c := by
    intro c hc
    rcases hc with hc | hc
    · exact ⟨.inl (hs.hashed c hc).1, (hs.hashed c hc).2⟩
    · rw [hs.new] at hc
      exact ⟨.inr hc, hs.newSame c hc⟩
  exact h.of_alike (fun c _ hc => (hkeep c hc).1) (fun c _ hc => .of_eq (hkeep c hc).2)
    (fun d _ hd => ⟨(hs.hashed d hd).1, .of_eq (hs.hashed d hd).2⟩) hs.warned

theorem View.Quiet.not_warn (h : v.Quiet cfg v.Live) : ¬Move cfg v (.warn c) w := by
  intro hm
  cases hm with
  | warn hc hch hf hself =>
    obtain ⟨d, hd, hdh, hhit⟩ :=
      hself (Crec.hits_self (h.typed c hc (.inl hch) hf) hf (h.cls c hc (.inl hch)))
    exact h.free c hc (.inl hch) hf d hd hdh hhit

theorem View.Quiet.evicting (h : v.Quiet cfg v.Live) {now : ℤ} (hm : Moves cfg (Evicting now) v w) :
    w.Quiet cfg w.Live := by
  refine hm.invariant (I := fun u => u.Quiet cfg u.Live) h fun a u u' ha hm hI => ?_
  cases hm with
  | drop hi hc => exact hI.sheds_live (@Move.sheds _ _ _ _ (fun _ => True) now (Move.drop hi hc) ha)
  | release hi hc hn hg =>
    exact hI.sheds_live (@Move.sheds _ _ _ _ (fun _ => True) now (Move.release hi hc hn hg) ha)
  | fail =>
    exact hI.of_alike (fun _ _ => id) (fun _ _ _ => .of_eq rfl) (fun _ _ hd => ⟨hd, .of_eq rfl⟩) rfl
  | warn hc hch hf hself => exact absurd (Move.warn hc hch hf hself) hI.not_warn
  | _ => exact absurd ha id

section

variable (ins : Insert) (ttl : ℕ) (big : Bool) (uid : ℕ) (r : Crec)

theorem Insert.entry_name : (ins.entry ttl big uid r).name = ins.name.getD [] := by
  unfold Insert.entry
  split <;> rfl

theorem Insert.entry_uid :
    (ins.entry ttl big uid r).uid = if ins.flags.dnssec then ins.cls.toNat else uid := by
  unfold Insert.entry
  split <;> rfl

end

theorem Insert.hits_entry {ttl : ℕ} {big : Bool} {uid : ℕ} {d : Crec}
    (h : (ins.entry ttl big uid r).Hits d) : ins.scanArgs.Hits ins.scanArgs.name d := by
  obtain ⟨h1, h2, h3⟩ := h
  rw [ins.entry_name] at h2
  rw [ins.entry_flags, ins.entry_uid] at h3
  refine ⟨h1, h2, h3.imp_right fun ⟨h3, h4⟩ => ⟨h3, ?_⟩⟩
  have hd : ins.flags.dnssec = true := by
    simp only [Flags.sameDnssec, Flags.dnssec, Bool.or_eq_true, Bool.and_eq_true] at h3 ⊢
    tauto
  rw [if_pos hd, Nat.mod_eq_of_lt ins.cls.toNat_lt] at h4
  exact h4

theorem Flags.upstream_typed {f : Flags} (h : f.upstream = true) (hf : f.forward = true) :
    f.typed = true := by
  unfold Flags.upstream at h
  simp only [hf, if_true, Bool.and_eq_true] at h
  exact h.2

theorem View.Quiet.inserted {r : State × Option CrecId} (h : (s.view L).Quiet cfg (s.view L).Live)
    (hins : Inserted cfg ins (ins.entry (cfg.ttl ins.flags ins.ttl)) s L r L') :
    (r.1.view L').Quiet cfg (r.1.view L').Live := by
  cases hins with
  | fail hR _ => exact h.evicting hR.moves
  | found hR _ _ _ _ => exact h.sheds_live hR.shed
  | @new u t M N c big uid _ hR _ hfree hT hmove =>
    have hu := h.sheds_live hR.shed
    generalize t.view _ = w at hmove
    generalize huv : u.view M = v at hmove hu
    cases hmove with
    | grab hl hn hnew hr =>
      have hself := View.setCrec_self v c (ins.entry (cfg.ttl ins.flags ins.ttl) big uid (u.crec c))
      have hne : ∀ {d}, d ≠ c →
          (v.setCrec c (ins.entry (cfg.ttl ins.flags ins.ttl) big uid (u.crec c))).crec d =
          v.crec d :=
        fun hd => View.setCrec_of_ne v hd _
      have hlive : ∀ {d}, d ≠ c → v.Hashed d ∨ d ∈ c :: v.new → v.Live d := by
        intro d hd hl
        refine hl.imp_right fun hm => (mem_cons.mp hm).resolve_left hd
      constructor
      · intro e he hl hf d hd hdh hhit
        have hdc : d ≠ c := by
          rintro rfl
          exact hn hdh
        rw [hne hdc] at hhit
        by_cases hec : e = c
        · subst hec
          rw [hself] at hhit hf
          rw [ins.entry_flags] at hf
          have hd' : M.Hashed d := by
            have hdh' : v.Hashed d := hdh
            rwa [← huv] at hdh'
          refine hfree hf d hd' ?_
          have hcrec : v.crec d = u.crec d := by rw [← huv]; rfl
          rw [← hcrec]
          exact Insert.hits_entry hhit
        · rw [hne hec] at hhit hf
          exact hu.free e he (hlive hec hl) hf d hd hdh hhit
      · intro e he hl hf
        by_cases hec : e = c
        · subst hec
          rw [hself] at hf ⊢
          exact Flags.upstream_typed hr hf
        · rw [hne hec] at hf ⊢
          exact hu.typed e he (hlive hec hl) hf
      · intro e he hl hd
        by_cases hec : e = c
        · subst hec
          rw [hself] at hd ⊢
          have hd' : ins.flags.dnssec = true := by
            rw [ins.entry_flags] at hd
            exact hd
          rw [ins.entry_uid, if_pos hd']
          exact ins.cls.toNat_lt
        · rw [hne hec] at hd ⊢
          exact hu.cls e he (hlive hec hl) hd
      · exact hu.quiet

/-- A record that gets a uid to be pointed at is not a DNSSEC record. -/
theorem View.Quiet.link (h : v.Quiet cfg v.Live) {cpp newc : CrecId}
    (hn : (v.crec newc).flags.dnssec = false) (hm : Move cfg v (.link cpp newc) w) :
    w.Quiet cfg w.Live := by
  cases hm with
  | link =>
    have halike : ∀ d,
        (v.crec d).Alike (((v.nextUid newc).setCrec cpp { (v.nextUid newc).crec cpp with
        target := some newc, targetUid := ((v.nextUid newc).crec newc).uid }).crec d) := by
      intro d
      have h1 : (v.crec d).Alike ((v.nextUid newc).crec d) := by
        unfold View.nextUid
        split
        · by_cases hd : d = newc
          · subst hd
            rw [View.setCrec_self]
            exact ⟨rfl, rfl, fun h => by rw [hn] at h; cases h⟩
          · rw [View.setCrec_of_ne _ hd]
            exact .of_eq rfl
        · exact .of_eq rfl
      by_cases hd : d = cpp
      · subst hd
        rw [View.setCrec_self]
        exact ⟨h1.name, h1.flags, h1.uid⟩
      · rwa [View.setCrec_of_ne _ hd]
    have hchain : ((v.nextUid newc).setCrec cpp { (v.nextUid newc).crec cpp with
        target := some newc, targetUid := ((v.nextUid newc).crec newc).uid }).chain =
          v.chain := View.nextUid_chain v newc
    have hhashed : ∀ d,
        Lists.Hashed (View.toLists ((v.nextUid newc).setCrec cpp { (v.nextUid newc).crec cpp with
        target := some newc, targetUid := ((v.nextUid newc).crec newc).uid })) d → v.Hashed d := by
      rintro d ⟨i, hi⟩
      rw [hchain] at hi
      exact ⟨i, hi⟩
    have hnew : (v.nextUid newc).new = v.new := by
      unfold View.nextUid
      split <;> rfl
    have hwarned : (v.nextUid newc).warned = v.warned := by
      unfold View.nextUid
      split <;> rfl
    refine h.of_alike (fun c _ hl => ?_) (fun c _ _ => halike c)
      (fun d _ hd => ⟨hhashed d hd, halike d⟩) hwarned
    exact hl.imp (hhashed c) fun hm => by rwa [← hnew]

theorem not_dnssec_of_sameEntry (h : sameEntry r ins = true) (hr : Hashable cfg r c)
    (hc : cfg.cachesize ≤ c) : r.flags.dnssec = false := by
  refine eq_false_of_ne_true fun hd => ?_
  have hfam := ((hr.other hc).2.2.1 hd).2
  simp only [Bool.or_eq_false_iff] at hfam
  simp [sameEntry, hfam.1, hfam.2] at h

theorem Inserted.not_dnssec
    (h : Inserted cfg ins (ins.entry (cfg.ttl ins.flags ins.ttl)) s L (t, some c) L')
    (hd : ins.flags.dnssec = false) : (t.crec c).flags.dnssec = false := by
  cases h with
  | found hR hle hc _ hsame =>
    obtain ⟨i, hi⟩ := hc
    exact not_dnssec_of_sameEntry hsame (hR.threads.place i c hi).2.2.1 hle
  | @new u _ M _ _ big uid _ _ _ _ _ hmove =>
    have hcrec : t.crec c = ins.entry (cfg.ttl ins.flags ins.ttl) big uid (u.crec c) := by
      have : (t.view L').crec c = ins.entry (cfg.ttl ins.flags ins.ttl) big uid (u.crec c) := by
        generalize t.view L' = w at hmove
        cases hmove with
        | grab => exact View.setCrec_self _ _ _
      exact this
    rw [hcrec, ins.entry_flags]
    exact hd

theorem View.Quiet.committing (h : v.Quiet cfg v.Live) (hm : Moves cfg Committing v w) :
    w.Quiet cfg w.Live := by
  refine hm.invariant (I := fun u => u.Quiet cfg u.Live) h fun a u u' ha hm hI => ?_
  cases hm with
  | @dropNew c rest hn hc hh =>
    have hne : ∀ d, u.Hashed d ∨ d ∈ rest → d ≠ c := by
      rintro d hd rfl
      exact hd.elim hh hc
    refine hI.of_alike (fun d _ hl => ?_) (fun d _ hl => .of_eq (View.setCrec_of_ne _ (hne d hl) _))
      (fun d _ hd => ⟨hd, ?_⟩) rfl
    · exact hl.imp_right fun hm => hn ▸ mem_cons_of_mem c hm
    · exact .of_eq (View.setCrec_of_ne _ (hne d (.inl hd)) _)
  | @commit c rest hn hc hh hp =>
    have hhash : ∀ d, (u.hash cfg c).Hashed d → d = c ∨ u.Hashed d := fun d => View.hashed_hash.mp
    refine hI.of_alike (fun d _ hl => ?_) (fun d _ _ => .of_eq rfl)
      (fun d hd hdh => ⟨?_, .of_eq rfl⟩) rfl
    · rcases hl with hl | hl
      · rcases hhash d hl with rfl | hl
        · exact .inr (hn ▸ mem_cons_self)
        · exact .inl hl
      · exact .inr (hn ▸ mem_cons_of_mem c hl)
    · exact (hhash d hdh).resolve_left fun e => absurd hp (not_lt.mpr (e ▸ hd))
  | _ => exact absurd ha id

end Dnsmasq.Cache
