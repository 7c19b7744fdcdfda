import Dnsmasq.Util.Hostname

/-!
`zone_status`. The cache is what `cache_find_by_name` finds for each name, one record after the
other.
-/
namespace Dnsmasq.Dnssec

open List

/-- A record with `F_DS`, unexpired. -/
structure DsCrec where
  neg : Bool
  dnssecOk : Bool
  uid : ℕ
  digest : ℕ
  algo : ℕ
  deriving DecidableEq, Repr

abbrev DsCache := CString → List DsCrec

inductive Stat where
  | secure
  | insecure
  | needDs
  deriving DecidableEq, Repr

def dsDigestName : ℕ → Option String
  | 1 => some "sha1"
  | 2 => some "sha256"
  | 3 => some "gosthash94"
  | 4 => some "sha384"
  | _ => none

def algoDigestName : ℕ → Option String
  | 5 => some "sha1"
  | 7 => some "sha1"
  | 8 => some "sha256"
  | 10 => some "sha512"
  | 12 => some "gosthash94"
  | 13 => some "sha256"
  | 14 => some "sha384"
  | 15 => some "null_hash"
  | 16 => some "null_hash"
  | _ => none

def DsCrec.supported (cls : ℕ) (r : DsCrec) : Bool :=
  r.uid == cls && (dsDigestName r.digest).isSome && (algoDigestName r.algo).isSome

section Walk

variable (ds : DsCache) (cls : ℕ) (name : CString)

def strchrDot (p : ℕ) : Option ℕ :=
  let i := (name.drop p).findIdx (· == dot)
  if p + i < name.length then some (p + i) else none

def walkUp : ℕ → ℕ → Option ℕ
  | 0, _ => none
  | fuel + 1, p =>
    let p := if name[p]? = some dot then p + 1 else p
    if ds (name.drop p) ≠ [] then some p
    else match strchrDot name p with
      | none => none
      | some p => walkUp fuel p

/-- The next position in front of `p` that is a dot or the start of the name. -/
def backToDot : ℕ → ℕ
  | 0 => 0
  | p + 1 => if name[p + 1]? = some dot then p + 1 else backToDot p

/-- The start of the label in front. From 1 on the search would run off the front of the name. -/
def previousStart (nameStart : ℕ) : Option ℕ :=
  if nameStart < 2 then none
  else
    let p := backToDot name (nameStart - 2)
    some (if p ≠ 0 then p + 1 else p)

def insecureAt : List DsCrec → Bool
  | [] => false
  | r :: rest => if r.neg then r.dnssecOk else !(r :: rest).any (DsCrec.supported cls)

/-- Away from the anchor, with what is left in `keyname`. `none` is a walk that does not return. -/
def walkDown : ℕ → ℕ → Option (Stat × CString)
  | 0, _ => none
  | fuel + 1, nameStart =>
    let keyname := name.drop nameStart
    if ds keyname = [] then some (.needDs, keyname)
    else if insecureAt cls (ds keyname) then some (.insecure, keyname)
    else if nameStart = 0 then some (.secure, keyname)
    else (previousStart name nameStart).bind (walkDown fuel)

def zoneStatus : Option (Stat × CString) :=
  walkDown ds cls name (name.length + 2) ((walkUp ds name (name.length + 1) 0).getD name.length)

end Walk

def joinDots (labels : List CString) : CString := [dot].intercalate labels

def Labels (labels : List CString) : Prop := ∀ l ∈ labels, l ≠ [] ∧ dot ∉ l

def anchor (ds : DsCache) : List CString → List CString
  | [] => []
  | l :: rest => if ds (joinDots (l :: rest)) ≠ [] then l :: rest else anchor ds rest

section

variable (ds : DsCache) (cls : ℕ) (labels : List CString)

/-- The status that a name has, and for `needDs` the name whose DS records are needed. -/
def statusOf : Stat × CString :=
  let s := anchor ds labels
  if ds (joinDots s) = [] then (.needDs, [])
  else if insecureAt cls (ds (joinDots s)) then (.insecure, joinDots s)
  else if s = labels then (.secure, joinDots s)
  else (.needDs, joinDots (labels.drop (labels.length - (s.length + 1))))

/-- A name of one character without a record of its own, below a root that has one and is not
insecure. -/
def OneCharacter : Prop :=
  ∃ c, labels = [[c]] ∧ ds [c] = [] ∧ ds [] ≠ [] ∧ insecureAt cls (ds []) = false

end

@[simp] theorem joinDots_nil : joinDots [] = [] := rfl

@[simp] theorem joinDots_singleton (l : CString) : joinDots [l] = l := by simp [joinDots]

variable {l name pre : CString} {m labels s : List CString} {ds : DsCache} {cls : ℕ}

theorem joinDots_cons {rest : List CString} (h : rest ≠ []) :
    joinDots (l :: rest) = l ++ dot :: joinDots rest := by
  obtain ⟨m, rest, rfl⟩ := exists_cons_of_ne_nil h
  rfl

theorem joinDots_append {n : List CString} (hm : m ≠ []) (hn : n ≠ []) :
    joinDots (m ++ n) = joinDots m ++ dot :: joinDots n := by
  induction m with
  | nil => exact absurd rfl hm
  | cons l m ih =>
    by_cases hm' : m = []
    · subst hm'
      rw [singleton_append, joinDots_cons hn, joinDots_singleton]
    · rw [cons_append, joinDots_cons (by simp [hm']), ih hm', joinDots_cons hm']
      simp

theorem Labels.tail {l : CString} {rest : List CString} (h : Labels (l :: rest)) : Labels rest :=
  fun m hm => h m (mem_cons_of_mem l hm)

theorem joinDots_ne_nil (h : Labels labels) (hne : labels ≠ []) : joinDots labels ≠ [] := by
  obtain ⟨l, rest, rfl⟩ := exists_cons_of_ne_nil hne
  have hl := (h l mem_cons_self).1
  by_cases hrest : rest = []
  · simpa [hrest] using hl
  · rw [joinDots_cons hrest]
    simp

def startOf (name : CString) (s : List CString) : ℕ := name.length - (joinDots s).length

theorem drop_startOf (h : name = pre ++ joinDots s) :
    startOf name s = pre.length ∧ name.drop (startOf name s) = joinDots s := by
  have hstart : startOf name s = pre.length := by
    rw [startOf, h, length_append]
    omega
  rw [hstart, h, drop_left]
  exact ⟨rfl, rfl⟩

theorem findIdx_dot (hl : dot ∉ l) : l.findIdx (· == dot) = l.length := by
  rw [findIdx_eq_length]
  intro c hc
  simp only [beq_eq_false_iff_ne]
  rintro rfl
  exact hl hc

theorem strchrDot_none (hl : dot ∉ l) : strchrDot (pre ++ l) pre.length = none := by
  simp [strchrDot, findIdx_dot hl]

theorem strchrDot_some {rest : CString} (hl : dot ∉ l) :
    strchrDot (pre ++ (l ++ dot :: rest)) pre.length = some (pre.length + l.length) := by
  have hidx : (l ++ dot :: rest).findIdx (· == dot) = l.length := by
    simp [findIdx_append, findIdx_dot hl, findIdx_cons]
  simp [strchrDot, hidx]

theorem walkUp_eq {ds : DsCache} {pre : CString} {labels : List CString} {fuel p : ℕ}
    (h : Labels labels) (hne : labels ≠ [])
    (hp : (if (pre ++ joinDots labels)[p]? = some dot then p + 1 else p) = pre.length)
    (hfuel : labels.length ≤ fuel) : walkUp ds (pre ++ joinDots labels) fuel p =
      if anchor ds labels = [] then none
      else some (startOf (pre ++ joinDots labels) (anchor ds labels)) := by
  induction labels generalizing pre fuel p with
  | nil => exact absurd rfl hne
  | cons l rest ih =>
    obtain ⟨fuel, rfl⟩ := Nat.exists_eq_succ_of_ne_zero (n := fuel) (by rintro rfl; simp at hfuel)
    have hl := (h l mem_cons_self).2
    rw [walkUp, hp, drop_left, anchor]
    by_cases hds : ds (joinDots (l :: rest)) ≠ []
    · rw [if_pos hds, if_pos hds, if_neg (cons_ne_nil _ _), (drop_startOf rfl).1]
    rw [if_neg hds, if_neg hds]
    by_cases hrest : rest = []
    · subst hrest
      rw [joinDots_singleton, strchrDot_none hl]
      rfl
    rw [joinDots_cons hrest, strchrDot_some hl]
    have hassoc : pre ++ (l ++ dot :: joinDots rest) = (pre ++ l ++ [dot]) ++ joinDots rest := by
      simp
    rw [hassoc]
    apply ih h.tail hrest
    · simp [Nat.add_assoc]
    · rw [length_cons] at hfuel
      omega

theorem length_le_joinDots (h : Labels labels) : labels.length ≤ (joinDots labels).length := by
  induction labels with
  | nil => exact le_rfl
  | cons l rest ih =>
    have hl := length_pos_iff.mpr (h l mem_cons_self).1
    by_cases hrest : rest = []
    · subst hrest
      rw [joinDots_singleton]
      exact hl
    · have := ih h.tail
      rw [joinDots_cons hrest, length_append, length_cons, length_cons]
      omega

theorem walkUp_getD (h : Labels labels) :
    (walkUp ds (joinDots labels) ((joinDots labels).length + 1) 0).getD (joinDots labels).length =
      startOf (joinDots labels) (anchor ds labels) := by
  by_cases hne : labels = []
  · subst hne
    rw [walkUp]
    by_cases hds : ds [] = [] <;> simp [hds, strchrDot, startOf, anchor]
  have hfirst : (joinDots labels)[0]? ≠ some dot := by
    obtain ⟨l, rest, rfl⟩ := exists_cons_of_ne_nil hne
    obtain ⟨hl, hdot⟩ := h l mem_cons_self
    obtain ⟨c, l, rfl⟩ := exists_cons_of_ne_nil hl
    have hc : c ≠ dot := fun hc => hdot (hc ▸ mem_cons_self)
    by_cases hrest : rest = []
    · simp [hrest, hc]
    · simp [joinDots_cons hrest, hc]
  have hwalk := @walkUp_eq ds [] labels ((joinDots labels).length + 1) 0 h hne (by simp [hfirst])
    ((length_le_joinDots h).trans (Nat.le_succ _))
  rw [nil_append] at hwalk
  rw [hwalk]
  split_ifs with hroot
  · rw [hroot]
    rfl
  · rfl

theorem backToDot_eq {a i : ℕ} (hai : a ≤ i) (hbetween : ∀ j, a < j → j ≤ i → name[j]? ≠ some dot)
    (ha : a = 0 ∨ name[a]? = some dot) : backToDot name i = a := by
  induction i with
  | zero => exact (Nat.le_zero.mp hai).symm
  | succ i ih =>
    rw [backToDot]
    rcases Nat.lt_or_eq_of_le hai with hlt | rfl
    · rw [if_neg (hbetween _ hlt le_rfl)]
      exact ih (by omega) fun j hj hji => hbetween j hj (by omega)
    · rw [if_pos (ha.resolve_left (by omega))]

theorem previousStart_eq_of_label {pre l t : CString} {nameStart : ℕ} (hl : dot ∉ l)
    (hpre : pre = [] ∨ ∃ u, u ≠ [] ∧ pre = u ++ [dot]) (hstart : 2 ≤ nameStart)
    (hfrom : pre.length ≤ nameStart - 2 + 1) (hinside : nameStart - 2 < pre.length + l.length) :
    previousStart (pre ++ (l ++ t)) nameStart = some pre.length := by
  have hchar : ∀ j, pre.length ≤ j → j < pre.length + l.length →
      (pre ++ (l ++ t))[j]? ≠ some dot := by
    intro j hj hj' hdot
    rw [getElem?_append_right hj, getElem?_append_left (by omega)] at hdot
    exact hl (mem_of_getElem? hdot)
  rw [previousStart, if_neg (by omega)]
  rcases hpre with rfl | ⟨u, hu, rfl⟩
  · rw [backToDot_eq (a := 0) (Nat.zero_le _)
      (fun j _ hj' => hchar j (Nat.zero_le _) (by omega)) (.inl rfl)]
    rfl
  have hlen : (u ++ [dot]).length = u.length + 1 := by simp
  have hpos := length_pos_iff.mpr hu
  rw [backToDot_eq (a := u.length) (by omega) (fun j hj hj' => hchar j (by omega) (by omega))
    (.inr (by simp))]
  dsimp only
  rw [if_pos (by omega), hlen]

theorem previousStart_eq (h : Labels (m ++ l :: s)) (hlong : ¬ (m = [] ∧ s = [] ∧ l.length = 1)) :
    previousStart (joinDots (m ++ l :: s)) (startOf (joinDots (m ++ l :: s)) s) =
    some (startOf (joinDots (m ++ l :: s)) (l :: s)) := by
  obtain ⟨hl, hdot⟩ := h l (by simp)
  have hlpos := length_pos_iff.mpr hl
  obtain ⟨pre, hname, hpre⟩ : ∃ pre, joinDots (m ++ l :: s) = pre ++ joinDots (l :: s) ∧
      ((m = [] ∧ pre = []) ∨ ∃ u, u ≠ [] ∧ pre = u ++ [dot]) := by
    by_cases hm : m = []
    · subst hm
      exact ⟨[], rfl, .inl ⟨rfl, rfl⟩⟩
    · refine ⟨joinDots m ++ [dot], ?_,
        .inr ⟨joinDots m, joinDots_ne_nil (fun k hk => h k (by simp [hk])) hm, rfl⟩⟩
      rw [joinDots_append hm (cons_ne_nil _ _)]
      simp
  have hpre' : pre = [] ∨ ∃ u, u ≠ [] ∧ pre = u ++ [dot] := hpre.imp_left And.right
  rw [hname, (drop_startOf rfl).1]
  by_cases hs : s = []
  · subst hs
    have hstart : startOf (pre ++ joinDots [l]) [] = pre.length + l.length := by simp [startOf]
    have htwo : 2 ≤ pre.length + l.length := by
      rcases hpre with ⟨rfl, rfl⟩ | ⟨u, hu, rfl⟩
      · have : l.length ≠ 1 := fun h1 => hlong ⟨rfl, rfl, h1⟩
        omega
      · simp
        omega
    rw [hstart, joinDots_singleton]
    have hcut := @previousStart_eq_of_label pre l [] (pre.length + l.length)
      hdot hpre' htwo (by omega) (by omega)
    rwa [append_nil] at hcut
  have hstart : startOf (pre ++ joinDots (l :: s)) s = pre.length + l.length + 1 := by
    rw [startOf, joinDots_cons hs]
    simp
    omega
  rw [hstart, joinDots_cons hs]
  exact previousStart_eq_of_label hdot hpre' (by omega) (by omega) (by omega)

theorem exists_anchor (ds : DsCache) (labels : List CString) :
    ∃ m, labels = m ++ anchor ds labels ∧ ∀ m' l, m = m' ++ [l] →
      ds (joinDots (l :: anchor ds labels)) = [] := by
  induction labels with
  | nil => exact ⟨[], rfl, by simp⟩
  | cons l rest ih =>
    rw [anchor]
    split_ifs with hds
    · exact ⟨[], rfl, by simp⟩
    obtain ⟨m, hm, hnone⟩ := ih
    refine ⟨l :: m, by rw [cons_append, ← hm], fun m' k hk => ?_⟩
    cases m' with
    | nil =>
      cases hk
      rw [nil_append] at hm
      rw [← hm]
      simpa using hds
    | cons l' m' =>
      cases hk
      exact hnone m' k rfl

theorem drop_startOf_append {m s : List CString} :
    (joinDots (m ++ s)).drop (startOf (joinDots (m ++ s)) s) = joinDots s := by
  by_cases hm : m = []
  · subst hm
    simp [startOf]
  by_cases hs : s = []
  · subst hs
    simp [startOf]
  rw [joinDots_append hm hs]
  have : joinDots m ++ dot :: joinDots s = (joinDots m ++ [dot]) ++ joinDots s := by simp
  rw [this]
  exact (drop_startOf rfl).2

theorem startOf_eq_zero_iff {m s : List CString} (h : Labels (m ++ s)) :
    startOf (joinDots (m ++ s)) s = 0 ↔ m = [] := by
  constructor
  · intro hzero
    by_contra hm
    have hpos := length_pos_iff.mpr (joinDots_ne_nil (fun k hk => h k (by simp [hk])) hm)
    by_cases hs : s = []
    · subst hs
      simp [startOf] at hzero
      simp [hzero] at hpos
    · rw [startOf, joinDots_append hm hs, length_append, length_cons] at hzero
      omega
  · rintro rfl
    simp [startOf]

theorem ds_anchor (h : anchor ds labels ≠ []) : ds (joinDots (anchor ds labels)) ≠ [] := by
  induction labels with
  | nil => exact absurd rfl h
  | cons l rest ih =>
    rw [anchor] at h ⊢
    split_ifs at h ⊢ with hds
    · exact hds
    · exact ih h

theorem anchor_oneCharacter (h : OneCharacter ds cls labels) : anchor ds labels = [] := by
  obtain ⟨c, rfl, hds, -⟩ := h
  simp [anchor, hds]

/-- The status is that of the name, with the right name for the DS query, unless the name has one
character and the walk has to go from the root to it. -/
theorem zoneStatus_iff (ds : DsCache) (cls : ℕ) {labels : List CString} (h : Labels labels) :
    (∃ keyname, zoneStatus ds cls (joinDots labels) = some ((statusOf ds cls labels).1, keyname) ∧
        ((statusOf ds cls labels).1 = .needDs → keyname = (statusOf ds cls labels).2)) ↔
      ¬ OneCharacter ds cls labels := by
  obtain ⟨m, hm, hnone⟩ := exists_anchor ds labels
  have hdrop : (joinDots labels).drop (startOf (joinDots labels) (anchor ds labels)) =
      joinDots (anchor ds labels) := by
    have := @drop_startOf_append m (anchor ds labels)
    rwa [← hm] at this
  rw [zoneStatus, walkUp_getD h, walkDown, hdrop, statusOf]
  by_cases hempty : ds (joinDots (anchor ds labels)) = []
  · have hroot : anchor ds labels = [] := by
      by_contra hne
      exact ds_anchor hne hempty
    rw [if_pos hempty, if_pos hempty]
    refine iff_of_true ⟨_, rfl, fun _ => by rw [hroot, joinDots_nil]⟩ fun hone => ?_
    obtain ⟨c, -, -, hrecord, -⟩ := hone
    rw [hroot] at hempty
    exact hrecord hempty
  rw [if_neg hempty, if_neg hempty]
  by_cases hinsecure : insecureAt cls (ds (joinDots (anchor ds labels))) = true
  · rw [if_pos hinsecure, if_pos hinsecure]
    refine iff_of_true ⟨_, rfl, nofun⟩ fun hone => ?_
    rw [anchor_oneCharacter hone] at hinsecure
    obtain ⟨c, -, -, -, hsecure⟩ := hone
    rw [joinDots_nil, hsecure] at hinsecure
    cases hinsecure
  rw [if_neg hinsecure, if_neg hinsecure]
  rcases eq_nil_or_concat m with rfl | ⟨m, l, rfl⟩
  · have hwhole : anchor ds labels = labels := hm.symm
    rw [if_pos hwhole, if_pos (by rw [hwhole]; simp [startOf])]
    refine iff_of_true ⟨_, rfl, nofun⟩ fun hone => ?_
    have hroot := anchor_oneCharacter hone
    obtain ⟨c, rfl, -⟩ := hone
    rw [hwhole] at hroot
    cases hroot
  have hlabels : labels = m ++ l :: anchor ds labels := hm.trans (by simp)
  have hds := hnone m l concat_eq_append
  generalize anchor ds labels = s at hlabels hds hdrop hempty hinsecure
  subst hlabels
  have hstart : startOf (joinDots (m ++ l :: s)) s ≠ 0 := by
    have := @startOf_eq_zero_iff (m ++ [l]) s (by simpa using h)
    simp at this
    exact this
  have hlonger : s ≠ m ++ l :: s := by
    intro heq
    have := congrArg List.length heq
    simp at this
    omega
  have hnext : (m ++ l :: s).drop ((m ++ l :: s).length - (s.length + 1)) = l :: s := by
    simp
  rw [if_neg hstart, if_neg hlonger, hnext]
  by_cases hlong : m = [] ∧ s = [] ∧ l.length = 1
  · obtain ⟨rfl, rfl, hl⟩ := hlong
    obtain ⟨c, rfl⟩ := length_eq_one_iff.mp hl
    refine iff_of_false ?_ (not_not.mpr
      ⟨c, rfl, by simpa using hds, hempty, by simpa using hinsecure⟩)
    rintro ⟨keyname, hstatus, -⟩
    simp [startOf, previousStart] at hstatus
  rw [previousStart_eq h hlong, Option.bind_some, walkDown, drop_startOf_append, if_pos hds]
  refine iff_of_true ⟨_, rfl, fun _ => rfl⟩ ?_
  rintro ⟨c, hc, -⟩
  cases m with
  | nil =>
    cases hc
    exact hlong ⟨rfl, rfl, rfl⟩
  | cons k m => simp at hc

def signedRoot : DsCache := fun name =>
  if name = [] then [{ neg := false, dnssecOk := false, uid := 1, digest := 2, algo := 8 }] else []

/-- The status of `com` below a signed root. -/
theorem zoneStatus_com :
    (∃ keyname, zoneStatus signedRoot 1 (joinDots [[99, 111, 109]]) =
      some ((statusOf signedRoot 1 [[99, 111, 109]]).1, keyname) ∧
        ((statusOf signedRoot 1 [[99, 111, 109]]).1 = .needDs →
          keyname = (statusOf signedRoot 1 [[99, 111, 109]]).2)) ↔
      ¬ OneCharacter signedRoot 1 [[99, 111, 109]] :=
  zoneStatus_iff signedRoot 1 (by simp [Labels, dot])

/-- The name `x` below a signed root: the DS records of `x` are needed, but the walk does not
return. -/
theorem zoneStatus_x : statusOf signedRoot 1 [[120]] = (.needDs, [120]) ∧ zoneStatus signedRoot 1
    [120] = none := by
  decide

end Dnsmasq.Dnssec
