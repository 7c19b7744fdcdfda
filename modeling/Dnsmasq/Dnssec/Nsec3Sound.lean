import Dnsmasq.Dnssec.Nsec3
import Dnsmasq.Lib.Past

/-!
What the records that `prove_non_existence_nsec3` accepts really prove. The end of an interval
counts as inside it, and types in later blocks of a type map are not seen.
-/
namespace Dnsmasq.Dnssec.Nsec3

open List Option Dns Lib

def HasParams (pkt : Packet) (pos algo iterations : ℕ) (salt : List UInt8) : Prop :=
  ∃ hash p, ownerHash pkt pos = some (hash, p) ∧ (fields pkt p hash).algo = algo ∧
    (fields pkt p hash).iterations = iterations ∧ (fields pkt p hash).salt = salt

/-- The hash value is strictly inside the interval of the record, on the circle of hash values. -/
def StrictlyCovers (v : Nsec3) (digest : Digest) : Prop :=
  v.hash.length = digest.length ∧ v.next.length = digest.length ∧ Between v.hash digest v.next

def Lacks (pkt : Packet) (v : Nsec3) (type : ℕ) : Prop :=
  listed type (mapBlocks pkt v.map v.rdlen) = false

/-- The record covers the hash value strictly, or has it as its owner and none of the types. -/
def Denies (pkt : Packet) (v : Nsec3) (digest : Digest) (types : List ℕ) : Prop :=
  v.StrictlyCovers digest ∨ (v.hash = digest ∧ ∀ t ∈ types, v.Lacks pkt t)

section Spec

variable (pkt : Packet) (usable : ℕ → Prop) (hash : CString → Option Digest)

def Denied (types : List ℕ) (name : CString) : Prop :=
  ∃ digest pos v, hash name = some digest ∧ usable pos ∧ read pkt pos = some v ∧
    v.Denies pkt digest types

def Matched (name : CString) : Prop :=
  ∃ digest pos p, hash name = some digest ∧ usable pos ∧ ownerHash pkt pos = some (digest, p)

/-- `closer` is a suffix of the name with one label more than `ancestor`. -/
def NextCloser (name ancestor closer : CString) : Prop :=
  (∃ pre, name = pre ++ closer ∧ (pre = [] ∨ pre.getLast? = some dot)) ∧ ∃ l, dot ∉ l ∧
    closer = l ++ dot :: ancestor

def NonExistent (name : CString) (type : ℕ) (wildname : Option CString) : Prop :=
  Denied pkt usable hash [type, tCname] name ∨
    ∃ ancestor closer, NextCloser name ancestor closer ∧
      (Matched pkt usable hash ancestor ∨ ∃ w ∈ wildname, hostnameIsequal ancestor w) ∧
      Denied pkt usable hash [type] closer ∧
      (wildname = none → Denied pkt usable hash [type] (42 :: dot :: ancestor))

end Spec

def Proved (oracle : HashOracle) (pkt : Packet) (nsecs : List ℕ) (name : CString) (type : ℕ)
    (wildname : Option CString) : Prop :=
  ∃ algo iterations salt, NonExistent pkt
    (fun pos => pos ∈ nsecs ∧ HasParams pkt pos algo iterations salt)
    (oracle algo salt iterations) name type wildname

section Records

variable (pkt : Packet)

/-- The parameters are those of the first record whose algorithm is known. -/
def Chosen (nsecs : List ℕ) (algo iterations : ℕ) (salt : List UInt8) : Prop :=
  ∃ pos, Past (fun pos => ∃ p, skipName pkt pos 15 = some p ∧
      nsec3DigestName (fields pkt p []).algo = none) nsecs pos ∧
    ∃ p, skipName pkt pos 15 = some p ∧ (fields pkt p []).algo = algo ∧
    (fields pkt p []).iterations = iterations ∧ (fields pkt p []).salt = salt ∧
    nsec3DigestName algo ≠ none ∧ iterations ≤ 2500 ∧ pkt.checkLen (p + 15) salt.length = true

section

variable (algo iterations : ℕ) (salt : List UInt8) (pos : ℕ)

/-- The record has the parameters, as far as they can be told without reading the salt. -/
def fits (p : ℕ) : Bool :=
  let v := fields pkt p []
  v.algo == algo && (v.flags == 0 || v.flags == 1) && v.iterations == iterations &&
    v.salt.length == salt.length

/-- The fixed fields are in the message, and so is a salt that has to be read. -/
def Intact : Prop :=
  ∃ p, skipName pkt pos 15 = some p ∧
    (fits pkt algo iterations salt p = true → pkt.checkLen (p + 15) salt.length = true)

def usable : Bool :=
  (skipName pkt pos 15).any fun p =>
    fits pkt algo iterations salt p && (fields pkt p []).salt == salt

end

/-- The record matches the hash value, or it is inside the interval or at its end. -/
def Speaks (v : Nsec3) (digest : Digest) : Prop :=
  v.hash.length = digest.length ∧ v.next.length = digest.length ∧
    (v.hash = digest ∨ Spans v.hash digest v.next)

/-- The first record that speaks about the hash value. -/
def FirstSpeaker (kept : List ℕ) (digest : Digest) (v : Nsec3) : Prop :=
  ∃ pos, Past (fun pos => ∃ v, read pkt pos = some v ∧ ¬ v.Speaks digest) kept pos ∧
    read pkt pos = some v ∧ v.Speaks digest

/-- The end of the interval is not the hash value itself, and no block of the type map after the
first is overlooked. -/
structure Reliable (v : Nsec3) (digest : Digest) (nameLabels type : ℕ) (types : List ℕ) : Prop where
  next : v.hash ≠ digest → v.next ≠ digest
  types : v.hash = digest → ¬ Overlooked pkt type v.map v.rdlen nameLabels types

section

variable (hash : CString → Option Digest) (kept : List ℕ)

def ReliableAbout (nameLabels type : ℕ) (types : List ℕ) (name : CString) : Prop :=
  ∀ digest v, hash name = some digest → FirstSpeaker pkt kept digest v →
    v.Reliable pkt digest nameLabels type types

def FirstDenies (types : List ℕ) (name : CString) : Prop :=
  ∃ digest v, hash name = some digest ∧ FirstSpeaker pkt kept digest v ∧ v.Denies pkt digest types

/-- The first record to speak denies the name, and nothing at the start of its type map speaks
against that. -/
def FirstVouches (type : ℕ) (name : CString) : Prop :=
  ∃ digest v, hash name = some digest ∧ FirstSpeaker pkt kept digest v ∧
    v.Denies pkt digest [type] ∧ (v.hash = digest → Unopposed pkt type v.map v.rdlen 1)

variable (wildname : Option CString)

/-- The name is not the wildname, and no record has its hash as the owner. -/
def Unmatched (name : CString) : Prop :=
  wildname.any (hostnameIsequal name) = false ∧ ∃ digest, hash name = some digest ∧
    ∀ pos ∈ kept, ∃ h p, ownerHash pkt pos = some (h, p) ∧ h ≠ digest

def MatchedFirst (name : CString) : Prop :=
  ∃ digest, hash name = some digest ∧
    ∃ pos, Past (fun pos => ∃ h p, ownerHash pkt pos = some (h, p) ∧ h ≠ digest) kept pos ∧
      ∃ p, ownerHash pkt pos = some (digest, p)

/-- The name is the wildname, or a record matches it. -/
def Encloses (name : CString) : Prop :=
  wildname.any (hostnameIsequal name) = true ∨ MatchedFirst pkt hash kept name

/-- The name without a first dot, and everything behind one of its dots. -/
def ancestors : ℕ → CString → List CString
  | 0, _ => []
  | fuel + 1, s =>
    let name := if s.head? = some dot then s.tail else s
    name :: match strchr name with
      | none => []
      | some rest => ancestors fuel rest

/-- `ancestor` is the first on the way up that is the wildname or that a record matches, and
`closer` the one below it. -/
def ClosestEncloser (name ancestor closer : CString) : Prop :=
  ∃ before after, ancestors (name.length + 1) name = before ++ closer :: ancestor :: after ∧
    (∀ c ∈ before ++ [closer], Unmatched pkt hash kept wildname c) ∧
    Encloses pkt hash kept wildname ancestor

/-- Every record that a test comes to is reliable: for the name; if that does not settle it, for
the next closer name; and if that one is denied and there is no wildname, for the wildcard. -/
def ReliableOnTheWay (name : CString) (type : ℕ) : Prop :=
  ReliableAbout pkt hash kept (countLabels name) type [type, tCname] name ∧
    (¬ FirstDenies pkt hash kept [type, tCname] name → ∀ ancestor closer,
      ClosestEncloser pkt hash kept wildname name ancestor closer →
        ReliableAbout pkt hash kept 1 type [type] closer ∧
        (wildname = none → closer ≠ dot :: ancestor → FirstVouches pkt hash kept type closer →
          ReliableAbout pkt hash kept 1 type [type] (42 :: dot :: ancestor)))

end

end Records

variable {pkt : Packet} {extrabytes fuel p namelen hops q pos algo iterations nameLabels type : ℕ}
  {name name' : Name} {hash digest : Digest} {salt : List UInt8} {nsecs kept types : List ℕ}
  {v : Nsec3}

theorem extractLoop_jumped {a : ℕ}
    (h : pkt.extractLoop extrabytes fuel p (some a) namelen hops name = some (name', q)) :
    q = a := by
  induction fuel generalizing p namelen hops name with
  | zero => cases h
  | succ fuel ih =>
    rw [Packet.extractLoop] at h
    dsimp only [getD_some] at h
    split_ifs at h
    · cases h
      rfl
    · exact ih h
    · exact ih h

set_option maxRecDepth 20000 in
theorem label_mask : ∀ l < 256, l &&& 0xc0 = 0 → l &&& 0x3f = l := by decide

theorem skipLoop_eq {fuel' : ℕ} {r : ℕ}
    (h : pkt.extractLoop extrabytes fuel p none namelen hops name = some (name', q))
    (hskip : skipLoop pkt fuel' p = some r) : r = q := by
  induction fuel generalizing fuel' p namelen hops name with
  | zero => cases h
  | succ fuel ih =>
    cases fuel' with
    | zero => cases hskip
    | succ fuel' =>
      rw [Packet.extractLoop] at h
      rw [skipLoop] at hskip
      dsimp only [getD_none] at h hskip
      by_cases hlen : (!pkt.checkLen p 1) = true
      · rw [if_pos hlen] at h
        cases h
      rw [if_neg hlen] at h hskip
      by_cases hzero : pkt.get p = 0
      · rw [hzero] at hskip
        split_ifs at h with hroom
        cases h
        have hend : pkt.checkLen (p + 1) 0 = true ∧ p + 1 = r := by simpa using hskip
        exact hend.2.symm
      rw [if_neg hzero] at h
      by_cases hptr : pkt.get p &&& 0xc0 = 0xc0
      · rw [if_pos hptr] at h hskip
        cases hskip
        split_ifs at h
        exact (extractLoop_jumped h).symm
      rw [if_neg hptr] at h hskip
      by_cases hlabel : pkt.get p &&& 0xc0 = 0
      · have hmask : pkt.get p &&& 0x3f = pkt.get p := label_mask _ (pkt.get_lt p) hlabel
        rw [hlabel, if_neg (by decide), if_neg (by decide), hmask] at hskip
        split_ifs at h hskip
        exact ih h hskip
      · rw [if_neg hlabel] at h
        cases h

theorem skipName_eq (h : ownerHash pkt pos = some (hash, q))
    (hskip : skipName pkt pos extrabytes = some p) : p = q := by
  obtain ⟨⟨name, q'⟩, hname, h⟩ := bind_eq_some_iff.mp h
  obtain ⟨hash', -, h⟩ := map_eq_some_iff.mp h
  cases h
  exact skipLoop_eq hname (filter_eq_some_iff.mp hskip).1

theorem chooseParams_iff : chooseParams pkt nsecs = some (algo, iterations, salt) ↔
    Chosen pkt nsecs algo iterations salt := by
  induction nsecs with
  | nil => simp [chooseParams, Chosen]
  | cons pos rest ih =>
    rw [chooseParams, Chosen, exists_past_cons]
    cases hskip : skipName pkt pos 15 with
    | none => simp
    | some p =>
      simp only [bind_some, Option.some.injEq, exists_eq_left']
      split_ifs with hunknown hiter hsalt
      · have hnone := isNone_iff_eq_none.mp hunknown
        rw [ih]
        refine ⟨fun h => .inr ⟨hnone, h⟩, ?_⟩
        rintro (⟨rfl, -, -, hknown, -⟩ | ⟨-, h⟩)
        · exact absurd hnone hknown
        · exact h
      all_goals
        rw [or_iff_left fun h => hunknown (isNone_iff_eq_none.mpr h.1)]
      · refine iff_of_false nofun ?_
        rintro ⟨-, rfl, -, -, hle, -⟩
        omega
      · refine iff_of_false nofun ?_
        rintro ⟨-, -, rfl, -, -, hlen⟩
        simp [hlen] at hsalt
      · simp only [Option.some.injEq, Prod.mk.injEq]
        refine ⟨?_, fun h => ⟨h.1, h.2.1, h.2.2.1⟩⟩
        rintro ⟨rfl, rfl, rfl⟩
        exact ⟨rfl, rfl, rfl, fun h => hunknown (isNone_iff_eq_none.mpr h), by omega,
          by simpa using hsalt⟩

theorem prune_iff : prune pkt algo iterations salt nsecs = some kept ↔
    (∀ pos ∈ nsecs, Intact pkt algo iterations salt pos) ∧
      kept = nsecs.filter (usable pkt algo iterations salt) := by
  induction nsecs generalizing kept with
  | nil => simp [prune, eq_comm]
  | cons pos rest ih =>
    rw [prune]
    cases hskip : skipName pkt pos 15 with
    | none =>
      refine iff_of_false nofun fun h => ?_
      obtain ⟨p, hp, -⟩ := h.1 pos mem_cons_self
      rw [hskip] at hp
      cases hp
    | some p =>
      have hfits : fits pkt algo iterations salt p = true ↔ ¬((fields pkt p []).algo ≠ algo ∨
          ((fields pkt p []).flags ≠ 0 ∧ (fields pkt p []).flags ≠ 1) ∨
          (fields pkt p []).iterations ≠ iterations ∨
          (fields pkt p []).salt.length ≠ salt.length) := by
        simp only [fits, Bool.and_eq_true, Bool.or_eq_true, beq_iff_eq]
        tauto
      have hintact : Intact pkt algo iterations salt pos ↔
          (fits pkt algo iterations salt p = true → pkt.checkLen (p + 15) salt.length = true) := by
        simp [Intact, hskip]
      have husable : usable pkt algo iterations salt pos =
          (fits pkt algo iterations salt p && (fields pkt p []).salt == salt) := by
        simp [usable, hskip]
      rw [bind_some, forall_mem_cons, hintact]
      dsimp only
      split_ifs with hother hroom hsalt
      · have hnot : fits pkt algo iterations salt p = false :=
          Bool.eq_false_iff.mpr fun h => hfits.mp h hother
        rw [ih, filter_cons_of_neg (by simp [husable, hnot])]
        simp [hnot]
      · refine iff_of_false nofun fun h => ?_
        simp [h.1.1 (hfits.mpr hother)] at hroom
      · rw [ih, filter_cons_of_neg (by simp [husable, hsalt])]
        simp_all
      · have hyes := hfits.mpr hother
        rw [filter_cons_of_pos (by simpa [husable, hyes] using hsalt), map_eq_some_iff]
        simp only [ih]
        constructor
        · rintro ⟨kept', ⟨hrest, rfl⟩, rfl⟩
          exact ⟨⟨fun _ => by simpa using hroom, hrest⟩, rfl⟩
        · rintro ⟨⟨-, hrest⟩, rfl⟩
          exact ⟨_, ⟨hrest, rfl⟩, rfl⟩

theorem hasParams_of_usable (h : usable pkt algo iterations salt pos = true)
    (howner : ownerHash pkt pos = some (hash, q)) : HasParams pkt pos algo iterations salt := by
  unfold usable at h
  cases hskip : skipName pkt pos 15 with
  | none =>
    rw [hskip] at h
    cases h
  | some p =>
    obtain rfl := skipName_eq howner hskip
    simp only [hskip, any_some, fits, Bool.and_eq_true, beq_iff_eq] at h
    exact ⟨hash, p, howner, h.1.1.1.1, h.1.1.2, h.2⟩

theorem ownerHash_of_read (h : read pkt pos = some v) :
    ∃ p, ownerHash pkt pos = some (v.hash, p) := by
  obtain ⟨⟨hash, p⟩, howner, h⟩ := bind_eq_some_iff.mp h
  dsimp only at h
  split_ifs at h
  cases h
  exact ⟨p, howner⟩

theorem decides_iff : v.decides digest = true ↔ v.Speaks digest := by
  have hcov : v.covers digest = true ↔ Spans v.hash digest v.next := by
    rw [spans_iff, covers]
    split_ifs <;> simp
  unfold decides Speaks
  rw [Bool.and_eq_true, Bool.and_eq_true, Bool.or_eq_true, beq_iff_eq, beq_iff_eq, beq_iff_eq, hcov]
  constructor
  · rintro ⟨⟨hlen, hlen'⟩, hcase⟩
    exact ⟨hlen.symm, hlen'.trans hlen.symm, hcase⟩
  · rintro ⟨hlen, hlen', hcase⟩
    exact ⟨⟨hlen.symm, hlen'.trans hlen.symm⟩, hcase⟩

theorem decider_iff : decider pkt digest kept = some v ↔ FirstSpeaker pkt kept digest v := by
  induction kept with
  | nil => simp [decider, FirstSpeaker]
  | cons pos rest ih =>
    rw [decider, FirstSpeaker, exists_past_cons, ← FirstSpeaker, ← ih]
    cases hread : read pkt pos with
    | none => simp
    | some v' =>
      simp only [bind_some, Option.some.injEq, exists_eq_left']
      split_ifs with hdecides
      · have hspeaks := decides_iff.mp hdecides
        rw [or_iff_left (not_and_of_not_left _ (not_not_intro hspeaks)), Option.some.injEq]
        exact (and_iff_left_of_imp fun h => h ▸ hspeaks).symm
      · have hnot : ¬ v'.Speaks digest := fun h => hdecides (decides_iff.mpr h)
        rw [and_iff_right hnot, or_iff_right]
        rintro ⟨rfl, hspeaks⟩
        exact hnot hspeaks

section Coverage

variable {name : CString} {hash : CString → Option Digest}

/-- What `check_nsec3_coverage` has seen when it returns 1. -/
theorem checkCoverage_accepts {nons : Bool} (types : List ℕ)
    (h : checkCoverage pkt kept digest nameLabels type = some (true, nons)) :
    ∃ v, FirstSpeaker pkt kept digest v ∧
      (v.hash = digest → Unopposed pkt type v.map v.rdlen nameLabels) ∧
      (types ⊆ [type, tCname] → v.Reliable pkt digest nameLabels type types →
        v.Denies pkt digest types) := by
  unfold checkCoverage at h
  split at h
  · cases h
  rename_i v hdec
  have hfirst := decider_iff.mp hdec
  refine ⟨v, hfirst, ?_⟩
  by_cases heq : v.hash = digest
  · rw [verdict, if_pos heq] at h
    obtain ⟨found, habsent, hfound⟩ := map_eq_some_iff.mp h
    cases hfound
    obtain ⟨hfree, hwalk⟩ := unopposed_of_typeAbsent3 habsent
    refine ⟨fun _ => hfree, fun htypes hrel => .inr ⟨heq, fun t ht => ?_⟩⟩
    by_contra hlisted
    have hpasses : Passes pkt type v.map v.rdlen nameLabels := .inr ⟨hfree, hwalk⟩
    exact hrel.types heq (hpasses.overlooked htypes ht (by simpa [Lacks] using hlisted))
  · refine ⟨fun h => absurd h heq, fun _ hrel => .inl ?_⟩
    obtain ⟨-, -, -, hlen, hlen', hcase⟩ := hfirst
    exact ⟨hlen, hlen', (hcase.resolve_left heq).between (hrel.next heq)⟩

/-- An unreliable record passes and denies nothing, at least if its type map starts with the window
of the type. -/
theorem checkCoverage_misled (hfirst : FirstSpeaker pkt kept digest v)
    (hrel : ¬ v.Reliable pkt digest nameLabels type types)
    (hwindow : v.hash = digest → pkt.get v.map = type >>> 8) :
    (∃ nons, checkCoverage pkt kept digest nameLabels type = some (true, nons)) ∧
      ¬ v.Denies pkt digest types := by
  rw [checkCoverage, decider_iff.mpr hfirst]
  dsimp only [verdict]
  unfold Denies StrictlyCovers
  by_cases heq : v.hash = digest
  · have hover : Overlooked pkt type v.map v.rdlen nameLabels types := by
      by_contra hnot
      exact hrel ⟨fun hne => absurd heq hne, fun _ => hnot⟩
    rw [if_pos heq, (hover.absent (hwindow heq)).2]
    refine ⟨⟨_, rfl⟩, ?_⟩
    obtain ⟨-, -, t, ht, hlater⟩ := hover
    rintro (⟨-, -, hbetween⟩ | ⟨-, hlacks⟩)
    · rw [heq] at hbetween
      exact not_between_start hbetween
    · have := hlacks t ht
      rw [Lacks, listed_eq, hlater, Bool.or_true] at this
      cases this
  have hnext : v.next = digest := by
    by_contra hnext
    exact hrel ⟨fun _ => hnext, fun h => absurd h heq⟩
  rw [if_neg heq]
  refine ⟨⟨_, rfl⟩, ?_⟩
  rw [hnext]
  rintro (⟨-, -, hbetween⟩ | ⟨h, -⟩)
  · exact not_between_end hbetween
  · exact heq h

end Coverage

theorem ownerMatches_eq_true (h : ownerMatches pkt digest kept = some true) :
    ∃ pos, Past (fun pos => ∃ h p, ownerHash pkt pos = some (h, p) ∧ h ≠ digest) kept pos ∧
      ∃ p, ownerHash pkt pos = some (digest, p) := by
  induction kept with
  | nil => cases h
  | cons pos rest ih =>
    obtain ⟨⟨hash, p⟩, howner, h⟩ := bind_eq_some_iff.mp h
    dsimp only at h
    split_ifs at h with heq
    · exact exists_past_cons.mpr (.inl ⟨p, heq ▸ howner⟩)
    · exact exists_past_cons.mpr (.inr ⟨⟨hash, p, howner, heq⟩, ih h⟩)

theorem ownerMatches_eq_false (h : ownerMatches pkt digest kept = some false) :
    ∀ pos ∈ kept, ∃ h p, ownerHash pkt pos = some (h, p) ∧ h ≠ digest := by
  induction kept with
  | nil => exact nofun
  | cons pos rest ih =>
    obtain ⟨⟨hash, p⟩, howner, h⟩ := bind_eq_some_iff.mp h
    dsimp only at h
    split_ifs at h with heq
    · cases h
    exact forall_mem_cons.mpr ⟨⟨hash, p, howner, heq⟩, ih h⟩

theorem dropWhile_dot (s : CString) :
    s.dropWhile (· ≠ dot) = [] ∨ ∃ l t, s = l ++ dot :: t ∧ s.dropWhile (· ≠ dot) = dot :: t ∧
    dot ∉ l := by
  induction s with
  | nil => exact .inl rfl
  | cons c s ih =>
    by_cases hc : c = dot
    · subst hc
      exact .inr ⟨[], s, rfl, by simp, not_mem_nil⟩
    rw [dropWhile_cons_of_pos (by simpa using hc)]
    refine ih.imp_right ?_
    rintro ⟨l, t, rfl, hdrop, hl⟩
    exact ⟨c :: l, t, rfl, hdrop, by simp [hl, Ne.symm hc]⟩

variable {s : CString}

theorem strchr_eq_some {rest : CString} (h : strchr s = some rest) : ∃ l t, s = l ++ dot :: t ∧
    rest = dot :: t ∧ dot ∉ l := by
  unfold strchr at h
  rcases dropWhile_dot s with hnil | ⟨l, t, hs, hdrop, hl⟩
  · rw [hnil] at h
    cases h
  · rw [hdrop] at h
    cases h
    exact ⟨l, t, hs, rfl, hl⟩

/-- What the search has come to: a suffix of the name, with the name below it on the way. -/
structure OnTheWay (name s : CString) (nextClosest : Option CString) : Prop where
  suffix : ∃ pre, name = pre ++ s ∧ (pre = [] ∨ pre.getLast? = some dot)
  closer : ∀ c ∈ nextClosest, NextCloser name s c

variable {wildname : Option CString}

section

variable {hash : CString → Option Digest} {name : CString} {nextClosest : Option CString}
  {closest next : CString}

theorem closestEncloser_nextCloser
    (hway : OnTheWay name (if s.head? = some dot then s.tail else s) nextClosest)
    (h : closestEncloser pkt hash kept wildname fuel s nextClosest = some (closest, next)) :
    NextCloser name closest next := by
  induction fuel generalizing s nextClosest with
  | zero => cases h
  | succ fuel ih =>
    rw [closestEncloser] at h
    generalize (if s.head? = some dot then s.tail else s) = c at h hway
    have hhere : nextClosest.map (c, ·) = some (closest, next) → NextCloser name closest next := by
      intro h
      obtain ⟨next', hnext, heq⟩ := map_eq_some_iff.mp h
      cases heq
      exact hway.closer _ hnext
    split_ifs at h with hwild
    · exact hhere h
    obtain ⟨digest, -, h⟩ := bind_eq_some_iff.mp h
    obtain ⟨found, -, h⟩ := bind_eq_some_iff.mp h
    split_ifs at h
    · exact hhere h
    obtain ⟨rest, hrest, h⟩ := bind_eq_some_iff.mp h
    obtain ⟨l, t, rfl, rfl, hl⟩ := strchr_eq_some hrest
    refine ih ?_ h
    obtain ⟨pre, hname, hpre⟩ := hway.suffix
    refine ⟨⟨pre ++ l ++ [dot], by simp [hname], .inr (by simp)⟩, fun c hc => ?_⟩
    cases hc
    exact ⟨hway.suffix, l, hl, rfl⟩

/-- The search goes through the ancestors until one is the wildname or is matched. -/
theorem closestEncloser_spec
    (h : closestEncloser pkt hash kept wildname fuel s nextClosest = some (closest, next)) :
    ∃ before after, nextClosest.toList ++ ancestors fuel s = before ++ next :: closest :: after ∧
      (∀ c ∈ before ++ [next], c ∈ nextClosest ∨ Unmatched pkt hash kept wildname c) ∧
      Encloses pkt hash kept wildname closest := by
  induction fuel generalizing s nextClosest with
  | zero => cases h
  | succ fuel ih =>
    rw [closestEncloser] at h
    rw [ancestors]
    generalize (if s.head? = some dot then s.tail else s) = c at h ⊢
    have hhere : nextClosest.map (c, ·) = some (closest, next) →
        Encloses pkt hash kept wildname c → ∀ rest,
        ∃ before after, nextClosest.toList ++ c :: rest = before ++ next :: closest :: after ∧
          (∀ c ∈ before ++ [next], c ∈ nextClosest ∨ Unmatched pkt hash kept wildname c) ∧
          Encloses pkt hash kept wildname closest := by
      intro h hfound rest
      obtain ⟨next', hnext, heq⟩ := map_eq_some_iff.mp h
      cases heq
      subst hnext
      exact ⟨[], rest, rfl, by simp, hfound⟩
    split_ifs at h with hwild
    · exact hhere h (.inl hwild) _
    obtain ⟨digest, hdigest, h⟩ := bind_eq_some_iff.mp h
    obtain ⟨found, hfound, h⟩ := bind_eq_some_iff.mp h
    split_ifs at h with htrue
    · subst htrue
      exact hhere h (.inr ⟨digest, hdigest, ownerMatches_eq_true hfound⟩) _
    obtain ⟨rest, hrest, h⟩ := bind_eq_some_iff.mp h
    obtain ⟨before, after, hsplit, hbefore, hmatched⟩ := ih h
    have hunmatched : Unmatched pkt hash kept wildname c :=
      ⟨by simpa using hwild, digest, hdigest, ownerMatches_eq_false (by simpa [htrue] using hfound)⟩
    refine ⟨nextClosest.toList ++ before, after, ?_, fun d hd => ?_, hmatched⟩
    · rw [hrest, append_assoc, ← hsplit]
      rfl
    · rw [append_assoc, mem_append, Option.mem_toList] at hd
      rcases hd with hd | hd
      · exact .inl hd
      · refine .inr ((hbefore d hd).elim (fun h => ?_) id)
        cases h
        exact hunmatched

end

theorem onTheWay_start (name : CString) :
    OnTheWay name (if name.head? = some dot then name.tail else name) none := by
  refine ⟨?_, nofun⟩
  split_ifs with hdot
  · cases name with
    | nil => cases hdot
    | cons c s =>
      cases hdot
      exact ⟨[dot], rfl, .inr rfl⟩
  · exact ⟨[], rfl, .inl rfl⟩

variable {w : CString}

theorem wildcardOf_eq_some (h : wildcardOf s = some w) : ∃ l t, s = l ++ dot :: t ∧ dot ∉ l ∧
    w = 42 :: dot :: t := by
  unfold wildcardOf at h
  split at h
  · cases h
  rename_i rest hrest
  split_ifs at h
  cases h
  obtain ⟨l, t, rfl, rfl, hl⟩ := strchr_eq_some hrest
  exact ⟨l, t, rfl, hl, rfl⟩

theorem wildcardOf_ne (h : wildcardOf s = some w) {t : CString} : s ≠ dot :: t := by
  rintro rfl
  simp [wildcardOf, strchr] at h

theorem NextCloser.ancestor_eq
    {name ancestor closer : CString} (h : NextCloser name ancestor closer)
    (hw : wildcardOf closer = some w) : w = 42 :: dot :: ancestor := by
  obtain ⟨-, l, hl, rfl⟩ := h
  obtain ⟨l', t, heq, hl', rfl⟩ := wildcardOf_eq_some hw
  have hsplit : ∀ {l t : CString}, dot ∉ l → (l ++ dot :: t).dropWhile (· ≠ dot) = dot :: t := by
    intro l t hl
    rw [dropWhile_append_of_pos fun c hc => by
      have : c ≠ dot := fun hcd => hl (hcd ▸ hc)
      simpa using this]
    simp
  have hdrop := hsplit (t := ancestor) hl
  rw [heq, hsplit hl'] at hdrop
  rw [hdrop]

section Proof

variable {hash : CString → Option Digest} {name : CString} {nons : Bool} {oracle : HashOracle}

theorem coverageOf_eq_true (h : coverageOf pkt hash kept name type = some true) :
    ∃ digest nons, hash name = some digest ∧
      checkCoverage pkt kept digest 1 type = some (true, nons) := by
  unfold coverageOf at h
  split at h
  · cases h
  rename_i digest hdigest
  obtain ⟨⟨found, nons⟩, hcov, hfound⟩ := map_eq_some_iff.mp h
  cases hfound
  exact ⟨digest, nons, hdigest, hcov⟩

theorem proveByEncloser_eq_true (h : proveByEncloser pkt hash kept name type wildname = some true) :
    ∃ closest next, NextCloser name closest next ∧
      ClosestEncloser pkt hash kept wildname name closest next ∧
      coverageOf pkt hash kept next type = some true ∧
      (wildname = none → next ≠ dot :: closest ∧
        coverageOf pkt hash kept (42 :: dot :: closest) type = some true) := by
  unfold proveByEncloser at h
  split at h
  · cases h
  rename_i closest next hsearch
  have hcloser := closestEncloser_nextCloser (onTheWay_start name) hsearch
  obtain ⟨before, after, hsplit, hbefore, hmatched⟩ := closestEncloser_spec hsearch
  refine ⟨closest, next, hcloser, ⟨before, after, hsplit, ?_, hmatched⟩, ?_⟩
  · exact fun c hc => (hbefore c hc).resolve_left nofun
  obtain ⟨covered, hcov, h⟩ := bind_eq_some_iff.mp h
  cases covered with
  | false => cases h
  | true =>
    refine ⟨hcov, ?_⟩
    rintro rfl
    simp only [isSome_none, Bool.not_true, Bool.false_eq_true, if_false] at h
    split at h
    · cases h
    · rename_i wildcard hwild
      exact ⟨wildcardOf_ne hwild, hcloser.ancestor_eq hwild ▸ h⟩

theorem proveNonExistence_eq_true
    (h : proveNonExistence oracle pkt nsecs name type wildname = some (true, nons)) :
    ∃ algo iterations salt digest, Chosen pkt nsecs algo iterations salt ∧
      (∀ pos ∈ nsecs, Intact pkt algo iterations salt pos) ∧
      oracle algo salt iterations name = some digest ∧
      ((∃ nons, checkCoverage pkt (nsecs.filter (usable pkt algo iterations salt)) digest
          (countLabels name) type = some (true, nons)) ∨
        proveByEncloser pkt (oracle algo salt iterations)
          (nsecs.filter (usable pkt algo iterations salt)) name type wildname = some true) := by
  unfold proveNonExistence at h
  split at h
  · cases h
  rename_i algo iterations salt hchoose
  split at h
  · cases h
  rename_i kept hprune
  split at h
  · cases h
  rename_i digest hdigest
  obtain ⟨hintact, rfl⟩ := prune_iff.mp hprune
  obtain ⟨⟨found, nons'⟩, hcov, h⟩ := bind_eq_some_iff.mp h
  refine ⟨algo, iterations, salt, digest, chooseParams_iff.mp hchoose, hintact, hdigest, ?_⟩
  cases found with
  | true => exact .inl ⟨nons', hcov⟩
  | false =>
    obtain ⟨r, hr, heq⟩ := map_eq_some_iff.mp h
    cases heq
    exact .inr hr

section

variable {usable : ℕ → Prop}
  (husable : ∀ pos ∈ kept, ∀ digest p, ownerHash pkt pos = some (digest, p) → usable pos)
include husable

theorem denied_of_firstSpeaker (hdigest : hash name = some digest)
    (hfirst : FirstSpeaker pkt kept digest v) (hdenies : v.Denies pkt digest types) :
    Denied pkt usable hash types name := by
  obtain ⟨pos, hpast, hread, -⟩ := hfirst
  obtain ⟨p, howner⟩ := ownerHash_of_read hread
  exact ⟨digest, pos, v, hdigest, husable pos hpast.mem _ p howner, hread, hdenies⟩

theorem nonExistent_of_encloser (h : proveByEncloser pkt hash kept name type wildname = some true)
    (hrel : ReliableOnTheWay pkt hash kept wildname name type) :
    NonExistent pkt usable hash name type wildname := by
  by_cases hname : FirstDenies pkt hash kept [type, tCname] name
  · obtain ⟨digest, v, hdigest, hfirst, hdenies⟩ := hname
    exact .inl (denied_of_firstSpeaker husable hdigest hfirst hdenies)
  obtain ⟨closest, next, hcloser, hencloser, hnext, hwild⟩ := proveByEncloser_eq_true h
  obtain ⟨hrelNext, hrelWild⟩ := hrel.2 hname closest next hencloser
  obtain ⟨digest, nons, hdigest, hcov⟩ := coverageOf_eq_true hnext
  obtain ⟨v, hfirst, hfree, hdenies⟩ := checkCoverage_accepts [type] hcov
  have hdenies := hdenies (by simp) (hrelNext digest v hdigest hfirst)
  refine .inr ⟨closest, next, hcloser, ?_, denied_of_firstSpeaker husable hdigest hfirst hdenies,
    fun hnone => ?_⟩
  · obtain ⟨-, -, -, -, hwildname | ⟨digest', hdigest', pos, hpast, p, howner⟩⟩ := hencloser
    · right
      cases wildname with
      | none => cases hwildname
      | some w => exact ⟨w, rfl, by simpa using hwildname⟩
    · exact .inl ⟨digest', pos, p, hdigest', husable pos hpast.mem _ p howner, howner⟩
  · obtain ⟨hne, hcovw⟩ := hwild hnone
    obtain ⟨digest', nons', hdigest', hcov'⟩ := coverageOf_eq_true hcovw
    obtain ⟨v', hfirst', -, hdenies'⟩ := checkCoverage_accepts [type] hcov'
    refine denied_of_firstSpeaker husable hdigest' hfirst' (hdenies' (by simp) ?_)
    exact hrelWild hnone hne ⟨digest, v, hdigest, hfirst, hdenies,
      hfree⟩ digest' v' hdigest' hfirst'

end

end Proof

/-- A proof of non-existence is backed by records that really prove it if the records that the tests
come to are reliable. If the first record to speak about the name is not, it is taken for a proof
and is none, at least if its type map starts with the window of the type. -/
theorem proveNonExistence_sound
    (oracle : HashOracle) (pkt : Packet) (nsecs : List ℕ) (name : CString)
    (type : ℕ) (wildname : Option CString) :
    ((∀ algo iterations salt, Chosen pkt nsecs algo iterations salt →
        (∀ pos ∈ nsecs, Intact pkt algo iterations salt pos) →
        oracle algo salt iterations name ≠ none →
        ReliableOnTheWay pkt (oracle algo salt iterations)
          (nsecs.filter (usable pkt algo iterations salt)) wildname name type) →
      (∃ nons, proveNonExistence oracle pkt nsecs name type wildname = some (true, nons)) →
        Proved oracle pkt nsecs name type wildname) ∧
    ∀ algo iterations salt digest v, Chosen pkt nsecs algo iterations salt →
      (∀ pos ∈ nsecs, Intact pkt algo iterations salt pos) →
      oracle algo salt iterations name = some digest →
      FirstSpeaker pkt (nsecs.filter (usable pkt algo iterations salt)) digest v →
      ¬ v.Reliable pkt digest (countLabels name) type [type, tCname] →
      (v.hash = digest → pkt.get v.map = type >>> 8) →
      (∃ nons, proveNonExistence oracle pkt nsecs name type wildname = some (true, nons)) ∧
        ¬ v.Denies pkt digest [type, tCname] := by
  constructor
  · rintro hrel ⟨nons, hret⟩
    obtain ⟨algo, iterations, salt, digest, hchosen, hintact, hdigest, hpath⟩ :=
      proveNonExistence_eq_true hret
    have hway := hrel algo iterations salt hchosen hintact (by simp [hdigest])
    have husable : ∀ pos ∈ nsecs.filter (usable pkt algo iterations salt), ∀ digest p,
        ownerHash pkt pos = some (digest, p) → pos ∈ nsecs ∧
        HasParams pkt pos algo iterations salt :=
      fun pos hpos _ _ howner =>
        (mem_filter.mp hpos).imp_right fun h => hasParams_of_usable h howner
    refine ⟨algo, iterations, salt, ?_⟩
    rcases hpath with ⟨nons', hcov⟩ | hpath
    · obtain ⟨v, hfirst, -, hdenies⟩ := checkCoverage_accepts [type, tCname] hcov
      refine .inl (denied_of_firstSpeaker husable hdigest hfirst ?_)
      exact hdenies (List.Subset.refl _) (hway.1 digest v hdigest hfirst)
    · exact nonExistent_of_encloser husable hpath hway
  · intro algo iterations salt digest v hchosen hintact hdigest hfirst hrel hwindow
    obtain ⟨⟨nons, hcov⟩, hnot⟩ := checkCoverage_misled hfirst hrel hwindow
    refine ⟨⟨nons, ?_⟩, hnot⟩
    simp only [proveNonExistence, chooseParams_iff.mpr hchosen,
      prune_iff.mpr ⟨hintact, rfl⟩, hdigest, hcov]
    rfl

/-- A message with one NSEC3 record, from the hash value of five zeros to that of five ones. -/
def nsec3Packet : Packet :=
  .ofBytes ([8, 48, 48, 48, 48, 48, 48, 48, 48, 0, 0, 50, 0, 1, 0, 0, 0, 60, 0, 11] ++
    [1, 0, 0, 0, 0, 5, 1, 1, 1, 1, 1])

def onesOracle : HashOracle := fun _ _ _ _ => some [1, 1, 1, 1, 1]

def nsec3Record : Nsec3 where
  hash := [0, 0, 0, 0, 0]
  algo := 1
  flags := 0
  iterations := 0
  salt := []
  next := [1, 1, 1, 1, 1]
  map := 31
  rdlen := 0

theorem read_nsec3Packet : read nsec3Packet 0 = some nsec3Record := by decide +kernel

theorem firstSpeaker_nsec3Packet {p : ℕ → Bool}
    (h : FirstSpeaker nsec3Packet ([0].filter p) digest v) : v = nsec3Record := by
  obtain ⟨pos, hpast, hread, -⟩ := h
  rw [mem_singleton.mp (mem_filter.mp hpast.mem).1, read_nsec3Packet] at hread
  exact (Option.some.inj hread).symm

/-- A hash between the two is denied. -/
theorem proveNonExistence_sound_between :
    Proved (fun _ _ _ _ => some [0, 0, 0, 0, 1]) nsec3Packet [0] [120] 1 none := by
  refine (proveNonExistence_sound _ nsec3Packet [0] [120] 1 none).1 ?_ ⟨true, by decide +kernel⟩
  intro algo iterations salt _ _ _
  constructor
  · rintro digest v ⟨⟩ hfirst
    rw [firstSpeaker_nsec3Packet hfirst]
    exact ⟨fun _ => by decide, fun h => absurd h (by decide)⟩
  · rintro - ancestor closer ⟨before, after, hsplit, -⟩
    have hlen := congrArg List.length hsplit
    simp [ancestors, strchr, dot] at hlen
    omega

/-- The record ends at the hash of the name, so that the name does exist. -/
theorem proveNonExistence_next :
    proveNonExistence onesOracle nsec3Packet [0] [120] 1 none = some (true, true) ∧
      ¬ Proved onesOracle nsec3Packet [0] [120] 1 none := by
  refine ⟨by decide +kernel, ?_⟩
  rintro ⟨algo, iterations, salt, hdenied | ⟨ancestor, closer, hcloser, -⟩⟩
  · obtain ⟨digest, pos, v, hdigest, ⟨hpos, -⟩, hread, hcase⟩ := hdenied
    cases hdigest
    obtain rfl := mem_singleton.mp hpos
    rw [read_nsec3Packet] at hread
    cases hread
    rcases hcase with ⟨-, -, ⟨-, hlt⟩ | ⟨hle, -⟩⟩ | ⟨heq, -⟩
    · exact absurd hlt (by decide)
    · exact absurd hle (by decide)
    · exact absurd heq (by decide)
  · obtain ⟨⟨pre, hname, -⟩, l, -, rfl⟩ := hcloser
    have hdot : dot ∈ ([120] : CString) := by simp [hname]
    exact absurd hdot (by decide)

end Dnsmasq.Dnssec.Nsec3
