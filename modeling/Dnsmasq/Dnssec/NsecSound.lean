import Dnsmasq.Dnssec.NameOrder
import Dnsmasq.Dnssec.TypeMap
import Dnsmasq.Lib.Past

/-!
`prove_non_existence_nsec`: does an NSEC record in a message show that a name or type does not
exist?
-/
namespace Dnsmasq.Dnssec

open List Option Dns Lib ThreeWay

/-- The root has no labels, and an empty first label does not count. -/
def countLabels (name : CString) : ℕ :=
  if name = [] then 0
  else if name.head? = some dot then name.count dot else name.count dot + 1

/-- Moves over `k` labels and the dots between them. -/
def stripLabels : ℕ → CString → CString
  | 0, ws => ws
  | k + 1, ws =>
    let ws := ws.dropWhile (· ≠ dot)
    if k ≠ 0 ∧ ws.head? = some dot then stripLabels k ws.tail else stripLabels k ws

/-- If the record comes from wildcard expansion, the name of the wildcard: the last
character of the labels that were expanded becomes a star. -/
def wildcardText (ws : CString) (sigLabels : ℕ) : CString :=
  if sigLabels < countLabels ws then 42 :: stripLabels (countLabels ws - sigLabels) ws else ws

/-- Where an NSEC record starts, and the labels field of its signature. -/
structure NsecRef where
  pos : ℕ
  labels : ℕ

/-- An NSEC record taken apart. The type map is at `map` and `rdlen` bytes long. -/
structure Nsec where
  owner : Name
  next : Name
  map : ℕ
  rdlen : ℕ
  deriving DecidableEq, Repr

def readNsec (pkt : Packet) (r : NsecRef) : Option Nsec :=
  match pkt.extractName r.pos 10 with
  | none => none
  | some (owner, p) =>
    -- class, type, TTL
    let rdlen := pkt.getShort (p + 8)
    let psave := p + 10
    match pkt.extractName psave 10 with
    | none => none
    | some (next, p) => some { owner, next, map := p, rdlen := rdlen - (p - psave) }

/-- The interval test. Both ends of the second half are included. -/
def covers (owner next name : CString) : Bool :=
  if hostnameCmp owner name = -1 then
    0 ≤ hostnameCmp next name ∨ 0 ≤ hostnameCmp owner next
  else 0 ≤ hostnameCmp owner next ∧ 0 ≤ hostnameCmp next name

/-- The return value and what is stored through `nons`. -/
def proveNonExistenceNsec (pkt : Packet) (name : CString) (type : ℕ) :
    List NsecRef → Option (Bool × Bool)
  | [] => some (false, true)
  | r :: rest =>
    match readNsec pkt r with
    | none => some (false, true)
    | some v =>
      let owner := wildcardText (present v.owner) r.labels
      if hostnameCmp owner name = 0 then
        if type = tNsec ∨ type = tRrsig then some (true, true)
        else
          let nons := !startsWith pkt v.map v.rdlen tNs
          (typeAbsent pkt type v.map v.rdlen (countLabels (present v.owner))).map (·, nons)
      else if covers owner (present v.next) name then some (true, true)
      else proveNonExistenceNsec pkt name type rest

/-- The owner for computations: the wildcard, if the record was expanded from one. -/
def wildcardOwner (owner : Name) (sigLabels : ℕ) : Name :=
  if sigLabels < owner.length then [42] :: owner.drop (owner.length - sigLabels) else owner

section Circle

variable {α : Type} [LinearOrder α] {o x n : α}

/-- Strictly between in an order that is closed to a circle. -/
def Between (o x n : α) : Prop := (o < x ∧ x < n) ∨ (n ≤ o ∧ (o < x ∨ x < n))

/-- The interval with its end counted in. -/
def Spans (o x n : α) : Prop := (o < x ∧ x ≤ n) ∨ (n ≤ o ∧ (o < x ∨ x ≤ n))

instance : Decidable (Between o x n) := inferInstanceAs (Decidable (_ ∨ _))

instance : Decidable (Spans o x n) := inferInstanceAs (Decidable (_ ∨ _))

theorem Spans.between (h : Spans o x n) (hne : n ≠ x) : Between o x n := by
  have hlt : x ≤ n → x < n := fun hle => lt_of_le_of_ne hle hne.symm
  exact h.imp (And.imp_right hlt) (And.imp_right (Or.imp_right hlt))

theorem not_between_start : ¬ Between o o n := by
  rintro (⟨hlt, -⟩ | ⟨hle, hlt | hlt⟩)
  · exact lt_irrefl _ hlt
  · exact lt_irrefl _ hlt
  · exact hlt.not_ge hle

theorem not_between_end : ¬ Between o x x := by
  rintro (⟨-, hlt⟩ | ⟨hle, hlt | hlt⟩)
  · exact lt_irrefl _ hlt
  · exact hlt.not_ge hle
  · exact lt_irrefl _ hlt

/-- The three comparisons in the order in which the code makes them. -/
theorem spans_iff : Spans o x n ↔ if o < x then x ≤ n ∨ n ≤ o else n ≤ o ∧ x ≤ n := by
  unfold Spans
  split_ifs with h
  · simp [h]
  · simp [h]

end Circle

/-- The record really proves that there is no `type` at `name`. -/
def Nsec.Proves (pkt : Packet) (v : Nsec) (sigLabels : ℕ) (name : Name) (type : ℕ) : Prop :=
  (canonicalKey (wildcardOwner v.owner sigLabels) = canonicalKey name ∧
    (type = tNsec ∨ type = tRrsig ∨ (listed type (mapBlocks pkt v.map v.rdlen) = false ∧
      listed tCname (mapBlocks pkt v.map v.rdlen) = false))) ∨
  Between (canonicalKey (wildcardOwner v.owner sigLabels)) (canonicalKey name) (canonicalKey v.next)

/-!
When `prove_non_existence_nsec` is right. The record that decides is a false proof if its next name
is the name itself, if it lists the type in a later block that the walk does not see, or if a label
contains a dot, whose escape sorts before the characters from 2 to 45.
-/

theorem present_cons_cons (l l' : Label) (n : Name) :
    present (l :: l' :: n) = escape l ++ dot :: present (l' :: n) := by
  simp [present, intercalate_cons_cons]

theorem present_singleton (l : Label) : present [l] = escape l := by simp [present]

theorem escape_ne_nil {l : Label} (h : l ≠ []) : escape l ≠ [] := by
  obtain ⟨c, l, rfl⟩ := exists_cons_of_ne_nil h
  simp only [escape, flatMap_cons, escapeByte]
  split_ifs <;> simp

theorem count_dot_escape (l : Label) : (escape l).count dot = 0 :=
  count_eq_zero.mpr (dot_notMem_escape l)

variable {n : Name} {pkt : Packet} {v : Nsec} {type : ℕ}

theorem countLabels_present (hn : WellFormed n) : countLabels (present n) = n.length := by
  have hcount (l : Label) (n : Name) : (present (l :: n)).count dot = n.length := by
    induction n generalizing l with
    | nil => rw [present_singleton, count_dot_escape, length_nil]
    | cons l' n ih => simp [present_cons_cons, count_dot_escape, ih]
  cases n with
  | nil => rfl
  | cons l n =>
    obtain ⟨c, rest, hl⟩ := exists_cons_of_ne_nil (escape_ne_nil (hn l mem_cons_self))
    have hc : c ≠ dot := fun h => dot_notMem_escape l (by simp [hl, h])
    obtain ⟨rest', hp⟩ : ∃ rest', present (l :: n) = c :: rest' := by
      cases n with
      | nil => exact ⟨rest, by rw [present_singleton, hl]⟩
      | cons l' n => exact ⟨_, by rw [present_cons_cons, hl, cons_append]⟩
    rw [countLabels, if_neg (by simp [hp]), if_neg (by simp [hp, hc]), hcount]
    rfl

theorem dropWhile_present (l : Label) (n : Name) :
    (present (l :: n)).dropWhile (· ≠ dot) = if n = [] then [] else dot :: present n := by
  have hfree : ∀ c ∈ escape l, decide (c ≠ dot) = true := fun c hc =>
    decide_eq_true fun h => dot_notMem_escape l (h ▸ hc)
  cases n with
  | nil =>
    have := @List.dropWhile_append_of_pos _ _ _ [] hfree
    simpa [present_singleton] using this
  | cons l' n => rw [present_cons_cons, dropWhile_append_of_pos hfree]; simp

theorem stripLabels_present {k : ℕ} (hk : k < n.length) :
    stripLabels (k + 1) (present n) = if n.drop (k + 1) = [] then []
      else dot :: present (n.drop (k + 1)) := by
  induction k generalizing n with
  | zero =>
    obtain ⟨l, n, rfl⟩ := exists_cons_of_ne_nil (length_pos_iff.mp hk)
    simp only [stripLabels, dropWhile_present]
    simp
  | succ k ih =>
    obtain ⟨l, n, rfl⟩ := exists_cons_of_ne_nil (length_pos_iff.mp (by omega : 0 < n.length))
    have hn : n ≠ [] := fun h => by simp [h] at hk
    rw [stripLabels]
    simp only [dropWhile_present, hn, if_false, head?_cons, tail_cons, drop_succ_cons]
    exact ih (by simpa using hk)

theorem wildcardText_present (hn : WellFormed n) (sigLabels : ℕ) :
    wildcardText (present n) sigLabels = present (wildcardOwner n sigLabels) := by
  rw [wildcardText, wildcardOwner, countLabels_present hn]
  split_ifs with h
  · obtain ⟨k, hk⟩ := Nat.exists_eq_add_of_lt h
    rw [show n.length - sigLabels = k + 1 by omega, stripLabels_present (by omega)]
    split_ifs with hdrop
    · rw [hdrop]
      rfl
    · obtain ⟨l, rest, hcons⟩ := exists_cons_of_ne_nil hdrop
      rw [hcons]
      rfl
  · rfl

theorem wildcardOwner_wellFormed (hn : WellFormed n) (sigLabels : ℕ) :
    WellFormed (wildcardOwner n sigLabels) := by
  unfold wildcardOwner
  split_ifs
  · intro l hl
    rcases mem_cons.mp hl with rfl | hl
    · simp
    · exact hn l (mem_of_mem_drop hl)
  · exact hn

theorem readNsec_wellFormed {r : NsecRef}
    (h : readNsec pkt r = some v) : WellFormed v.owner ∧ WellFormed v.next := by
  unfold readNsec at h
  split at h
  · cases h
  rename_i howner
  dsimp only at h
  split at h
  · cases h
  · rename_i hnext
    cases h
    exact ⟨Packet.extractName_wellFormed howner, Packet.extractName_wellFormed hnext⟩

/-- The names that the code compares, for a record from `o` to `n`. -/
def compared (o n name : Name) : List (Name × Name) :=
  (o, name) ::
    if canonicalKey o = canonicalKey name then []
    else if canonicalKey o < canonicalKey name then
      (n, name) :: if canonicalKey name ≤ canonicalKey n then [] else [(o, n)]
    else (o, n) :: if canonicalKey n ≤ canonicalKey o then [(n, name)] else []

/-- No escaped dot puts names that are compared into another order than the canonical one. -/
def InOrder (o n name : Name) : Prop :=
  ∀ p ∈ compared o n name, nameClash (canonicalKey p.1) (canonicalKey p.2) = false

instance (o n name : Name) : Decidable (InOrder o n name) :=
  inferInstanceAs (Decidable (∀ p ∈ compared o n name, _))

theorem neg_one_le_hostnameOrder (a b : CString) : -1 ≤ hostnameOrder a b := by
  fun_induction hostnameOrder a b <;> simp_all

theorem neg_one_le_hostnameCmp (a b : CString) : -1 ≤ hostnameCmp a b := by
  unfold hostnameCmp
  generalize (a.splitOn dot).reverse = as
  generalize (b.splitOn dot).reverse = bs
  fun_induction cmpLabels as bs with
  | case1 la _ lb => exact neg_one_le_hostnameOrder la lb
  | _ => simp_all

theorem covers_iff {o name : Name} (ho : WellFormed o) (hname : WellFormed name) (hn : WellFormed n)
    (horder : InOrder o n name) (hne : canonicalKey o ≠ canonicalKey name) :
    covers (present o) (present n) (present name) = true ↔
      Spans (canonicalKey o) (canonicalKey name) (canonicalKey n) := by
  have hcmp {a b : Name} (ha : WellFormed a) (hb : WellFormed b) (h : (a, b) ∈ compared o n name) :=
    (hostnameCmp_reports_iff ha hb).mpr (horder _ h)
  have h1 := hcmp ho hname mem_cons_self
  have hrc : hostnameCmp (present o) (present name) = -1 ↔ canonicalKey o < canonicalKey name := by
    rw [← h1.1]
    have := neg_one_le_hostnameCmp (present o) (present name)
    omega
  rw [spans_iff, covers]
  simp only [hrc]
  split_ifs with hlt
  · have h2 := hcmp hn hname (by simp [compared, hne, hlt])
    simp only [decide_eq_true_eq, h2.nonneg]
    by_cases hle : canonicalKey name ≤ canonicalKey n
    · simp [hle]
    have h3 := hcmp ho hn (by simp [compared, hne, hlt, hle])
    rw [h3.nonneg]
  · have h3 := hcmp ho hn (by simp [compared, hne, hlt])
    simp only [decide_eq_true_eq, h3.nonneg]
    refine and_congr_right fun hle => ?_
    have h2 := hcmp hn hname (by simp [compared, hne, hlt, hle])
    rw [h2.nonneg]

section Decision

variable (pkt : Packet) (name : Name) (type : ℕ)

/-- The record is in order and has nothing to do with the name. -/
def Silent (r : NsecRef) : Prop :=
  ∃ v, readNsec pkt r = some v ∧ InOrder (wildcardOwner v.owner r.labels) v.next name ∧
    canonicalKey (wildcardOwner v.owner r.labels) ≠ canonicalKey name ∧
    ¬ Spans (canonicalKey (wildcardOwner v.owner r.labels)) (canonicalKey name)
    (canonicalKey v.next)

/-- All records before this one are silent. -/
def Reached (nsecs : List NsecRef) (r : NsecRef) (v : Nsec) : Prop :=
  Past (Silent pkt name) nsecs r ∧ readNsec pkt r = some v

/-- The names are in order; if the record is not about the name itself, its next name is another
one; and if it is, no block after the first is overlooked. -/
structure Nsec.Reliable (v : Nsec) (sigLabels : ℕ) : Prop where
  order : InOrder (wildcardOwner v.owner sigLabels) v.next name
  next : canonicalKey (wildcardOwner v.owner sigLabels) ≠ canonicalKey name →
    canonicalKey v.next ≠ canonicalKey name
  types : canonicalKey (wildcardOwner v.owner sigLabels) = canonicalKey name → type ≠ tNsec →
    type ≠ tRrsig → ¬ Overlooked pkt type v.map v.rdlen v.owner.length [type, tCname]

def SomeProves (nsecs : List NsecRef) : Prop :=
  ∃ r ∈ nsecs, ∃ v, readNsec pkt r = some v ∧ v.Proves pkt r.labels name type

end Decision

variable {name : Name} {rest nsecs : List NsecRef} {r : NsecRef} {nons : Bool}

section

variable (hname : WellFormed name) (hread : readNsec pkt r = some v)
include hname hread

theorem proveNonExistenceNsec_cons (horder : InOrder (wildcardOwner v.owner r.labels) v.next name) :
    proveNonExistenceNsec pkt (present name) type (r :: rest) =
      if canonicalKey (wildcardOwner v.owner r.labels) = canonicalKey name then
        if type = tNsec ∨ type = tRrsig then some (true, true)
        else (typeAbsent pkt type v.map v.rdlen v.owner.length).map
          (·, !startsWith pkt v.map v.rdlen tNs)
      else if Spans (canonicalKey (wildcardOwner v.owner r.labels)) (canonicalKey name)
        (canonicalKey v.next) then some (true, true)
      else proveNonExistenceNsec pkt (present name) type rest := by
  obtain ⟨howner, hnext⟩ := readNsec_wellFormed hread
  have howner' := wildcardOwner_wellFormed howner r.labels
  rw [proveNonExistenceNsec, hread]
  dsimp only
  rw [wildcardText_present howner, countLabels_present howner]
  simp only [hostnameCmp_eq_zero howner' hname]
  split_ifs with heq htype hcov hspans hspans
  · rfl
  · rfl
  · rfl
  · exact absurd ((covers_iff howner' hname hnext horder heq).mp hcov) hspans
  · exact absurd ((covers_iff howner' hname hnext horder heq).mpr hspans) hcov
  · rfl

/-- An acceptance by a reliable record that speaks about the name is a proof. -/
theorem Nsec.Reliable.proves (hrel : v.Reliable pkt name type r.labels)
    (hret : proveNonExistenceNsec pkt (present name) type (r :: rest) = some (true, nons)) :
    v.Proves pkt r.labels name type ∨ Silent pkt name r ∧
      proveNonExistenceNsec pkt (present name) type rest = some (true, nons) := by
  rw [proveNonExistenceNsec_cons hname hread hrel.order] at hret
  split_ifs at hret with heq htype hspans
  · exact .inl (.inl ⟨heq, htype.imp_right .inl⟩)
  · obtain ⟨absent, habsent, hresult⟩ := map_eq_some_iff.mp hret
    cases hresult
    have hfree := hrel.types heq (fun h => htype (.inl h)) fun h => htype (.inr h)
    have hunlisted : ∀ t ∈ [type, tCname], listed t (mapBlocks pkt v.map v.rdlen) = false :=
      fun t ht => Bool.eq_false_iff.mpr fun hlisted => hfree
        ((passes_of_typeAbsent habsent).overlooked (List.Subset.refl _) ht hlisted)
    exact .inl (.inl ⟨heq, .inr (.inr ⟨hunlisted type (by simp), hunlisted tCname (by simp)⟩)⟩)
  · exact .inl (.inr (hspans.between (hrel.next heq)))
  · exact .inr ⟨⟨v, hread, hrel.order, heq, hspans⟩, hret⟩

/-- A record in order that is not reliable is taken for a proof and is none, at least if its type
map starts with the window of the type. -/
theorem accepts_of_not_reliable (horder : InOrder (wildcardOwner v.owner r.labels) v.next name)
    (hrel : ¬ v.Reliable pkt name type r.labels)
    (hwindow : canonicalKey (wildcardOwner v.owner r.labels) = canonicalKey name →
      pkt.get v.map = type >>> 8) :
    (∃ nons, proveNonExistenceNsec pkt (present name) type (r :: rest) = some (true, nons)) ∧
      ¬ v.Proves pkt r.labels name type := by
  rw [proveNonExistenceNsec_cons hname hread horder]
  unfold Nsec.Proves
  by_cases heq : canonicalKey (wildcardOwner v.owner r.labels) = canonicalKey name
  · have hover : type ≠ tNsec ∧ type ≠ tRrsig ∧
        Overlooked pkt type v.map v.rdlen v.owner.length [type, tCname] := by
      by_contra hnot
      exact hrel ⟨horder, fun hne => absurd heq hne, fun _ h1 h2 h3 => hnot ⟨h1, h2, h3⟩⟩
    obtain ⟨hnsec, hrrsig, hover⟩ := hover
    refine ⟨⟨_, by rw [if_pos heq, if_neg (by simp [hnsec, hrrsig]),
      (hover.absent (hwindow heq)).1, map_some]⟩, ?_⟩
    obtain ⟨-, -, t, ht, hlater⟩ := hover
    have hlisted : listed t (mapBlocks pkt v.map v.rdlen) = true := by
      rw [listed_eq, hlater, Bool.or_true]
    rintro (⟨-, htypes⟩ | hbetween)
    · obtain ⟨htype, hcname⟩ := (htypes.resolve_left hnsec).resolve_left hrrsig
      rcases mem_cons.mp ht with rfl | ht
      · rw [htype] at hlisted
        cases hlisted
      · rw [mem_singleton.mp ht, hcname] at hlisted
        cases hlisted
    · rw [heq] at hbetween
      exact not_between_start hbetween
  have hnext : canonicalKey v.next = canonicalKey name := by
    by_contra hnext
    exact hrel ⟨horder, fun _ => hnext, fun h => absurd h heq⟩
  have hspans : Spans (canonicalKey (wildcardOwner v.owner r.labels)) (canonicalKey name)
      (canonicalKey v.next) := by
    rw [hnext]
    rcases lt_or_gt_of_ne heq with hlt | hgt
    · exact .inl ⟨hlt, le_refl _⟩
    · exact .inr ⟨hgt.le, .inr (le_refl _)⟩
  refine ⟨⟨_, by rw [if_neg heq, if_pos hspans]⟩, ?_⟩
  rw [hnext]
  rintro (⟨h, -⟩ | hbetween)
  · exact heq h
  · exact not_between_end hbetween

end

section

variable (hname : WellFormed name)
include hname

theorem proveNonExistenceNsec_append {before : List NsecRef}
    (hbefore : ∀ r' ∈ before, Silent pkt name r') :
    proveNonExistenceNsec pkt (present name) type (before ++ rest) =
      proveNonExistenceNsec pkt (present name) type rest := by
  induction before with
  | nil => rfl
  | cons r' before ih =>
    obtain ⟨v', hread, horder, hne, hspans⟩ := hbefore r' mem_cons_self
    rw [cons_append, proveNonExistenceNsec_cons hname hread horder, if_neg hne, if_neg hspans]
    exact ih fun r'' hr'' => hbefore r'' (mem_cons_of_mem _ hr'')

theorem someProves_of_reliable
    (hrel : ∀ r v, Reached pkt name nsecs r v → v.Reliable pkt name type r.labels)
    (hret : proveNonExistenceNsec pkt (present name) type nsecs = some (true, nons)) :
    SomeProves pkt name type nsecs := by
  induction nsecs with
  | nil => simp [proveNonExistenceNsec] at hret
  | cons r rest ih =>
    cases hread : readNsec pkt r with
    | none => simp [proveNonExistenceNsec, hread] at hret
    | some v =>
      have hrel' := hrel r v ⟨past_cons.mpr (.inl rfl), hread⟩
      rcases hrel'.proves hname hread hret with hproves | ⟨hsilent, hret⟩
      · exact ⟨r, mem_cons_self, v, hread, hproves⟩
      have hlater : SomeProves pkt name type rest := by
        refine ih (fun r' v' hreached => hrel r' v' ?_) hret
        exact hreached.imp_left fun hpast => past_cons.mpr (.inr ⟨hsilent, hpast⟩)
      obtain ⟨r', hr', hproves⟩ := hlater
      exact ⟨r', mem_cons_of_mem _ hr', hproves⟩

end

/-- A proof of non-existence is backed by a record that really proves it if the records that are
come to are reliable. One that is not, although its names are in order, is taken for a proof and is
none, at least if its type map starts with the window of the type. -/
theorem proveNonExistenceNsec_sound (pkt : Packet) (nsecs : List NsecRef) (name : Name) (type : ℕ)
    (hname : WellFormed name) :
    ((∀ r v, Reached pkt name nsecs r v → v.Reliable pkt name type r.labels) →
      (∃ nons, proveNonExistenceNsec pkt (present name) type nsecs = some (true, nons)) →
        SomeProves pkt name type nsecs) ∧
    ∀ r v, Reached pkt name nsecs r v → InOrder (wildcardOwner v.owner r.labels) v.next name →
      ¬ v.Reliable pkt name type r.labels →
      (canonicalKey (wildcardOwner v.owner r.labels) = canonicalKey name →
        pkt.get v.map = type >>> 8) →
      (∃ nons, proveNonExistenceNsec pkt (present name) type nsecs = some (true, nons)) ∧
        ¬ v.Proves pkt r.labels name type := by
  refine ⟨fun hrel ⟨nons, hret⟩ => someProves_of_reliable hname hrel hret, ?_⟩
  rintro r v ⟨⟨before, after, rfl, hbefore⟩, hread⟩ horder hrel hwindow
  rw [proveNonExistenceNsec_append hname hbefore]
  exact accepts_of_not_reliable hname hread horder hrel hwindow

instance (pkt : Packet) (v : Nsec) (sigLabels : ℕ) (name : Name) (type : ℕ) :
    Decidable (v.Proves pkt sigLabels name type) :=
  inferInstanceAs (Decidable ((_ ∧ (_ ∨ _ ∨ (_ ∧ _))) ∨ _))

/-- A message with two NSEC records, from `a` to `c` for types A and CAA and from `c` to `e` for
type A, behind the header and in front of the start of a signature. -/
def zonePacket : Packet :=
  .ofBytes (List.replicate 12 0 ++ [1, 97, 0, 0, 47, 0, 1, 0, 0, 0, 60, 0, 9] ++ [1, 99, 0] ++
    [0, 1, 0x40, 1, 1, 0x40] ++ [1, 99, 0, 0, 47, 0, 1, 0, 0, 0, 60, 0, 6] ++ [1, 101, 0] ++
    [0, 1, 0x40] ++ [192, 12, 0, 46, 0, 1, 0, 0, 0, 60, 0, 30])

def nsecA : NsecRef := { pos := 12, labels := 1 }

def nsecC : NsecRef := { pos := 34, labels := 1 }

theorem readNsec_zone :
    readNsec zonePacket nsecA = some { owner := [[97]], next := [[99]], map := 28, rdlen := 6 } ∧
      readNsec zonePacket nsecC = some { owner := [[99]], next := [[101]], map := 50,
                                         rdlen := 3 } := by
  decide +kernel

theorem not_someProves_zone
    (hA : ¬ Nsec.Proves zonePacket { owner := [[97]], next := [[99]], map := 28,
                                     rdlen := 6 } 1 name type)
    (hC : ¬ Nsec.Proves zonePacket { owner := [[99]], next := [[101]], map := 50,
                                     rdlen := 3 } 1 name type) :
    ¬ SomeProves zonePacket name type [nsecA, nsecC] := by
  rintro ⟨r, hr, v, hread, hproves⟩
  rcases mem_cons.mp hr with rfl | hr
  · rw [readNsec_zone.1] at hread
    cases hread
    exact hA hproves
  · rw [mem_singleton.mp hr, readNsec_zone.2] at hread
    cases hread
    rw [mem_singleton.mp hr] at hproves
    exact hC hproves

/-- The first record is taken for a proof that its own next name `c` does not exist, and that there
is no CAA record at `a`. -/
theorem proveNonExistenceNsec_unsound :
    (proveNonExistenceNsec zonePacket (present [[99]]) 1 [nsecA, nsecC] = some (true, true) ∧
      ¬ SomeProves zonePacket [[99]] 1 [nsecA, nsecC]) ∧
    (proveNonExistenceNsec zonePacket (present [[97]]) 257 [nsecA, nsecC] = some (true, true) ∧
      ¬ SomeProves zonePacket [[97]] 257 [nsecA, nsecC]) :=
  ⟨⟨by decide +kernel, not_someProves_zone (by decide +kernel) (by decide +kernel)⟩,
    by decide +kernel, not_someProves_zone (by decide +kernel) (by decide +kernel)⟩

/-- For the name `d` the first record is passed over, and the second is a real proof. -/
theorem proveNonExistenceNsec_sound_zone :
    (∃ nons, proveNonExistenceNsec zonePacket (present [[100]]) 1 [nsecA, nsecC] =
      some (true, nons)) ∧ SomeProves zonePacket [[100]] 1 [nsecA, nsecC] := by
  have hret : ∃ nons, proveNonExistenceNsec zonePacket (present [[100]]) 1 [nsecA, nsecC] =
      some (true, nons) := ⟨true, by decide +kernel⟩
  refine ⟨hret, (proveNonExistenceNsec_sound zonePacket [nsecA, nsecC] [[100]] 1
    (by decide)).1 ?_ hret⟩
  rintro r v ⟨hpast, hread⟩
  rcases mem_cons.mp hpast.mem with rfl | hr
  · rw [readNsec_zone.1] at hread
    cases hread
    exact ⟨by decide +kernel, by decide, fun h => absurd h (by decide)⟩
  · rw [mem_singleton.mp hr, readNsec_zone.2] at hread
    cases hread
    rw [mem_singleton.mp hr]
    exact ⟨by decide +kernel, by decide, fun h => absurd h (by decide)⟩

end Dnsmasq.Dnssec
