import Dnsmasq.DomainMatch.Lookup

/-!
Facts about the sorted server array. Entries with one domain are consecutive, and a query compares
positive, zero, negative along the array.
-/
namespace Dnsmasq.DomainMatch

open List

variable {arr : List Server} {q : CString}

variable {s a b : Server} {servers : List Server} {i : ℕ} {rc : ℤ}

theorem order_nodots {qlen : ℕ} (h : s.has servForNodots = true) :
    order q qlen s = -1 := by simp [order, h]

theorem order_eq_zero (h : order q q.length s = 0) :
    s.has servForNodots = false ∧ s.domainLen = q.length ∧ hostnameOrder q s.domain = 0 := by
  unfold order at h
  split_ifs at h with h1 h2 h3
  all_goals first | omega | exact ⟨by simpa using h1, by omega, h⟩

theorem order_pos (h : 0 < order q q.length s) :
    s.has servForNodots = false ∧ q.length ≤ s.domainLen := by
  unfold order at h
  split_ifs at h with h1 h2 h3
  · omega
  · exact ⟨by simpa using h1, by omega⟩
  · omega
  · exact ⟨by simpa using h1, by omega⟩

theorem order_neg (h : order q q.length s < 0) : s.domainLen ≤ q.length := by
  unfold order at h
  split_ifs at h with h1 h2 h3
  · simp [Server.domainLen, Server.domain_of_nodots h1]
  all_goals omega

/-- Sorted neighbours: both for dotless names, or ordered by their domains. -/
theorem orderServers_nonpos (h : orderServers a b ≤ 0) :
    (a.has servForNodots = true ∧ b.has servForNodots = true) ∨
      (a.has servForNodots = false ∧ order a.domain a.domain.length b ≤ 0) := by
  unfold orderServers at h
  split_ifs at h with h1 h2 h3 h4 h5
  · exact .inl ⟨h1, h2⟩
  · omega
  all_goals
    simp only [Server.domainLen, Bool.not_eq_true] at *
    exact .inr ⟨h1, by omega⟩

theorem orderServers_domainLen (h : orderServers a b ≤ 0) : b.domainLen ≤ a.domainLen := by
  rcases orderServers_nonpos h with ⟨_, hb⟩ | ⟨_, hab⟩
  · simp [Server.domainLen, Server.domain_of_nodots hb]
  · rcases hab.lt_or_eq with hlt | heq
    · exact order_neg hlt
    · exact (order_eq_zero heq).2.1.le

/-- The comparison of a query with an entry that is not for dotless names only. -/
theorem order_cases (q : CString) (hs : s.has servForNodots = false) :
    (q.length < s.domainLen ∧ order q q.length s = 1) ∨
      (s.domainLen < q.length ∧ order q q.length s = -1) ∨
      (s.domainLen = q.length ∧ order q q.length s = hostnameOrder q s.domain) := by
  unfold order
  rcases lt_trichotomy q.length s.domainLen with h | h | h
  · exact .inl ⟨h, by simp [hs, h]⟩
  · exact .inr (.inr ⟨h.symm, by simp [hs, h]⟩)
  · exact .inr (.inl ⟨h, by simp [hs, h, h.not_gt]⟩)

theorem order_trans (hab : orderServers a b ≤ 0) :
    (order q q.length a ≤ 0 → order q q.length b ≤ 0) ∧
    (order q q.length a < 0 → order q q.length b < 0) := by
  rcases orderServers_nonpos hab with ⟨_, hb⟩ | ⟨ha, hab⟩
  · simp [order_nodots hb]
  by_cases hb : b.has servForNodots
  · simp [order_nodots hb]
  simp only [Bool.not_eq_true] at hb
  have hla : a.domainLen = a.domain.length := rfl
  rcases order_cases q ha with h | h | h <;>
    rcases order_cases a.domain hb with h' | h' | h' <;>
    rcases order_cases q hb with h'' | h'' | h'' <;> try omega
  rw [h.2, h''.2]
  exact ⟨fun hqa => hostnameOrder_nonpos_trans hqa (h'.2 ▸ hab),
    fun hqa => hostnameOrder_neg_nonpos_trans hqa (h'.2 ▸ hab)⟩

section

variable (ha : order q q.length a = 0) (hb : order q q.length b = 0)
include ha hb

theorem orderServers_of_order :
    orderServers a b = if a.has servWildcard then (if b.has servWildcard then 0 else 1)
      else (if b.has servWildcard then -1 else 0) := by
  obtain ⟨hna, hla, hqa⟩ := order_eq_zero ha
  obtain ⟨hnb, hlb, hqb⟩ := order_eq_zero hb
  rw [hostnameOrder_eq_zero_iff] at hqa hqb
  have hdomain : hostnameOrder a.domain b.domain = 0 := by
    rw [hostnameOrder_eq_zero_iff, ← hqa, hqb]
  have hab : order a.domain a.domainLen b = 0 := by
    rcases order_cases a.domain hnb with h | h | h
    · exact absurd h.1 (by rw [hlb, ← hla]; exact Nat.lt_irrefl _)
    · exact absurd h.1 (by rw [hlb, ← hla]; exact Nat.lt_irrefl _)
    · exact h.2.trans hdomain
  unfold orderServers
  rw [hna, hab]
  rfl

theorem orderServers_eq_zero (hw : a.has servWildcard = b.has servWildcard) :
    orderServers a b = 0 := by
  rw [orderServers_of_order ha hb, hw]
  split_ifs <;> rfl

theorem wildcard_of_orderServers (hab : orderServers a b ≤ 0) (hw : a.has servWildcard = true) :
    b.has servWildcard = true := by
  by_contra hc
  rw [orderServers_of_order ha hb, if_pos hw, if_neg hc] at hab
  omega

end

/-- What the sort leaves behind, without the tie breakers. -/
structure OrderedArray (arr : List Server) : Prop where
  sorted : ∀ (i j : ℕ) (a b : Server), i < j → arr[i]? = some a → arr[j]? = some b →
    orderServers a b ≤ 0

structure SortedArray (arr : List Server) : Prop extends OrderedArray arr where
  noWildcard : ∀ s ∈ arr, s.has servWildcard = false

theorem orderServers_of_orderQsort (h : orderQsort a b ≤ 0) : orderServers a b ≤ 0 := by
  unfold orderQsort at h
  by_cases h0 : orderServers a b = 0
  · exact h0.le
  · simpa [h0] using h

theorem IsServerArray.orderedArray (h : IsServerArray servers arr) : OrderedArray arr where
  sorted i j a b hij ha hb := by
    obtain ⟨hi, rfl⟩ := List.getElem?_eq_some_iff.mp ha
    obtain ⟨hj, rfl⟩ := List.getElem?_eq_some_iff.mp hb
    exact orderServers_of_orderQsort (pairwise_iff_getElem.mp h.sorted i j hi hj hij)

theorem compareAt_eq_some : compareAt arr q i = some rc ↔
    ∃ s, arr[i]? = some s ∧ order q q.length s = rc := by
  simp [compareAt]

theorem lt_of_compareAt (h : compareAt arr q i = some rc) : i < arr.length := by
  obtain ⟨s, hs, -⟩ := compareAt_eq_some.mp h
  exact (List.getElem?_eq_some_iff.mp hs).1

namespace OrderedArray

theorem compareAt_mono (hs : OrderedArray arr) {i j : ℕ} (hij : i ≤ j) {x y : ℤ}
    (hx : compareAt arr q i = some x) (hy : compareAt arr q j = some y) :
    (x ≤ 0 → y ≤ 0) ∧ (x < 0 → y < 0) := by
  obtain ⟨s, hsi, rfl⟩ := compareAt_eq_some.mp hx
  obtain ⟨t, htj, rfl⟩ := compareAt_eq_some.mp hy
  rcases hij.lt_or_eq with hlt | rfl
  · exact order_trans (hs.sorted i j s t hlt hsi htj)
  · cases hsi.symm.trans htj
    exact ⟨id, id⟩

theorem signSorted (hs : OrderedArray arr) (q : CString) :
    BinarySearch.SignSorted arr.length (compareAt arr q) where
  total i hi := ⟨order q q.length arr[i], by simp [compareAt, hi]⟩
  nonpos _ _ hij _ _ _ ha hb := (hs.compareAt_mono hij ha hb).1
  neg _ _ hij _ _ _ ha hb := (hs.compareAt_mono hij ha hb).2

theorem domainLen_le (hs : OrderedArray arr) {i j : ℕ} {a b : Server} (hij : i ≤ j)
    (ha : arr[i]? = some a) (hb : arr[j]? = some b) : b.domainLen ≤ a.domainLen := by
  rcases hij.lt_or_eq with hlt | rfl
  · exact orderServers_domainLen (hs.sorted i j a b hlt ha hb)
  · rw [ha] at hb; cases hb; exact le_rfl

/-- The entries a query matches are consecutive. -/
theorem compareAt_between (hs : OrderedArray arr) {i j k : ℕ} (hij : i ≤ j) (hjk : j ≤ k)
    (hi : compareAt arr q i = some 0) (hk : compareAt arr q k = some 0) :
    compareAt arr q j = some 0 := by
  have hsign := hs.signSorted q
  have hkn := lt_of_compareAt hk
  obtain ⟨rc, hrc⟩ := hsign.total j (by omega)
  have h1 := hsign.nonpos i j hij (by omega) 0 rc hi hrc le_rfl
  have h2 : ¬ rc < 0 := fun hlt => absurd (hsign.neg j k hjk hkn rc 0 hrc hk hlt) (by omega)
  rw [hrc]; congr 1; omega

end OrderedArray

/-- Entry `i` is one of the plain entries for `q`, or one of the wildcards. -/
def GroupAt (arr : List Server) (q : CString) (wild : Bool) (i : ℕ) : Prop :=
  ∃ s, arr[i]? = some s ∧ order q q.length s = 0 ∧ s.has servWildcard = wild

theorem GroupAt.compareAt {wild : Bool} {i : ℕ} (h : GroupAt arr q wild i) :
    compareAt arr q i = some 0 := by
  obtain ⟨s, hs, hord, -⟩ := h
  exact compareAt_eq_some.mpr ⟨s, hs, hord⟩

theorem exists_groupAt {i : ℕ} (h : compareAt arr q i = some 0) : ∃ wild, GroupAt arr q wild i := by
  obtain ⟨s, hs, hord⟩ := compareAt_eq_some.mp h
  exact ⟨s.has servWildcard, s, hs, hord, rfl⟩

theorem SortedArray.groupAt (hs : SortedArray arr) {i : ℕ} (h : compareAt arr q i = some 0) :
    GroupAt arr q false i := by
  obtain ⟨s, hsi, hord⟩ := compareAt_eq_some.mp h
  exact ⟨s, hsi, hord, hs.noWildcard s (mem_of_getElem? hsi)⟩

namespace OrderedArray

variable {wild : Bool}

theorem groupAt_wildcard (hs : OrderedArray arr) {i j : ℕ} (hij : i ≤ j) (hi : GroupAt arr q true i)
    (hj : compareAt arr q j = some 0) : GroupAt arr q true j := by
  obtain ⟨a, hai, ha, hwa⟩ := hi
  obtain ⟨b, hbj, hb⟩ := compareAt_eq_some.mp hj
  rcases hij.lt_or_eq with hlt | rfl
  · exact ⟨b, hbj, hb, wildcard_of_orderServers ha hb (hs.sorted i j a b hlt hai hbj) hwa⟩
  · exact ⟨a, hai, ha, hwa⟩

theorem groupAt_plain (hs : OrderedArray arr) {i j : ℕ} (hij : i ≤ j)
    (hi : compareAt arr q i = some 0) (hj : GroupAt arr q false j) : GroupAt arr q false i := by
  obtain ⟨wild, hw⟩ := exists_groupAt hi
  cases wild with
  | false => exact hw
  | true =>
    obtain ⟨t, htj, -, hwild⟩ := hs.groupAt_wildcard hij hw hj.compareAt
    obtain ⟨s, hsj, -, hplain⟩ := hj
    rw [hsj] at htj
    cases htj
    rw [hplain] at hwild
    cases hwild

theorem groupAt_between (hs : OrderedArray arr) {i j k : ℕ} (hij : i ≤ j) (hjk : j ≤ k)
    (hi : GroupAt arr q wild i) (hk : GroupAt arr q wild k) : GroupAt arr q wild j := by
  have hj := hs.compareAt_between hij hjk hi.compareAt hk.compareAt
  cases wild with
  | false => exact hs.groupAt_plain hjk hj hk
  | true => exact hs.groupAt_wildcard hij hi hj

theorem sameGroup_of_groupAt {i j : ℕ} (hi : GroupAt arr q wild i) (hj : GroupAt arr q wild j) :
    sameGroup arr i j = true := by
  obtain ⟨a, hai, ha, hwa⟩ := hi
  obtain ⟨b, hbj, hb, hwb⟩ := hj
  simp [sameGroup, hai, hbj, orderServers_eq_zero ha hb (hwa.trans hwb.symm)]

theorem expandLow_eq (hs : OrderedArray arr) {i : ℕ} (n : ℕ) (hi : GroupAt arr q wild i)
    (hj : GroupAt arr q wild (i + n)) : expandLow arr (i + n) = expandLow arr i := by
  induction n with
  | zero => rfl
  | succ n ih =>
    have hn := hs.groupAt_between (j := i + n) (by omega) (by omega) hi hj
    rw [← ih hn, ← Nat.add_assoc, expandLow, if_pos]
    exact sameGroup_of_groupAt hn hj

end OrderedArray

theorem expandHigh_fuel (fuel nhigh : ℕ) (h : arr.length - nhigh ≤ fuel) :
    expandHigh arr (fuel + 1) nhigh = expandHigh arr fuel nhigh := by
  induction fuel generalizing nhigh with
  | zero => simp only [expandHigh, ite_eq_right_iff]; omega
  | succ fuel ih =>
    rw [expandHigh.eq_def, expandHigh.eq_def arr (fuel + 1)]
    simp only
    split_ifs with hc
    · exact ih (nhigh + 1) (by omega)
    · rfl

theorem expandHigh_fuel_add (arr : List Server) (fuel extra nhigh : ℕ)
    (h : arr.length - nhigh ≤ fuel) : expandHigh arr (fuel + extra) nhigh =
    expandHigh arr fuel nhigh := by
  induction extra with
  | zero => rfl
  | succ extra ih => rw [← Nat.add_assoc, expandHigh_fuel _ _ (by omega), ih]

namespace OrderedArray

variable {wild : Bool}

theorem expandHigh_step (hs : OrderedArray arr) {i : ℕ} (n fuel : ℕ)
    (hi : GroupAt arr q wild i) (hj : GroupAt arr q wild (i + n)) :
    expandHigh arr (fuel + n) i = expandHigh arr fuel (i + n) := by
  induction n generalizing i with
  | zero => rfl
  | succ n ih =>
    have hn := hs.groupAt_between (j := i + 1) (by omega) (by omega) hi hj
    have hlt := lt_of_compareAt hn.compareAt
    rw [← Nat.add_assoc fuel, expandHigh,
      if_pos ⟨by omega, sameGroup_of_groupAt hi hn⟩,
      ih hn (by rw [show i + 1 + n = i + (n + 1) by omega]; exact hj)]
    congr 1; omega

/-- `filter_servers` does not depend on which entry of a group it starts from. -/
theorem filterServers_eq (hs : OrderedArray arr) (flags : BitVec 32) {i j : ℕ}
    (hi : GroupAt arr q wild i) (hj : GroupAt arr q wild j) :
    filterServers arr i flags = filterServers arr j flags := by
  wlog hij : i ≤ j generalizing i j
  · exact (this hj hi (by omega)).symm
  obtain ⟨n, rfl⟩ := Nat.exists_eq_add_of_le hij
  have hlt := lt_of_compareAt hj.compareAt
  have hhigh : expandHigh arr arr.length i = expandHigh arr arr.length (i + n) := by
    obtain ⟨fuel, hfuel⟩ := Nat.exists_eq_add_of_le (show n ≤ arr.length by omega)
    have h1 := hs.expandHigh_step n fuel hi hj
    have h2 := expandHigh_fuel_add arr fuel n (i + n) (by omega)
    rw [Nat.add_comm n fuel] at hfuel
    rw [hfuel, h1, ← h2]
  rw [filterServers, filterServers, hs.expandLow_eq n hi hj, hhigh]

end OrderedArray

theorem expandLow_le (n : ℕ) : expandLow arr n ≤ n := by
  induction n with
  | zero => exact le_rfl
  | succ n ih =>
    rw [expandLow]
    split_ifs
    · omega
    · exact le_rfl

theorem le_expandHigh (fuel n : ℕ) : n ≤ expandHigh arr fuel n := by
  induction fuel generalizing n with
  | zero => exact le_rfl
  | succ fuel ih =>
    rw [expandHigh]
    split_ifs
    · exact (Nat.le_succ n).trans (ih (n + 1))
    · exact le_rfl

theorem expandHigh_lt (arr : List Server) (fuel n : ℕ) (h : n < arr.length) :
    expandHigh arr fuel n < arr.length := by
  induction fuel generalizing n with
  | zero => exact h
  | succ fuel ih =>
    rw [expandHigh]
    split_ifs with hc
    · exact ih (n + 1) (by omega)
    · exact h

theorem scan_le (p : Server → Bool) {lo hi : ℕ} (h : lo ≤ hi) : scan arr p lo hi ≤ hi := by
  have h1 := (takeWhile_sublist p (l := (arr.drop lo).take (hi - lo))).length_le
  have h2 := length_take_le (hi - lo) (arr.drop lo)
  simp only [scan]
  omega

structure Within (lo hi : ℕ) (range : ℕ × ℕ) : Prop where
  lo_le : lo ≤ range.1
  le : range.1 ≤ range.2
  le_hi : range.2 ≤ hi

theorem within_ite {lo hi : ℕ} {c : Prop} [Decidable c] {r r' : ℕ × ℕ} (h : Within lo hi r)
    (h' : Within lo hi r') : Within lo hi (if c then r else r') := by
  split
  · exact h
  · exact h'

theorem narrow_within (arr : List Server) (flags : BitVec 32) {lo hi : ℕ} (h : lo ≤ hi) :
    Within lo hi (narrow arr flags lo hi) := by
  have hscan (p : Server → Bool) {i j : ℕ} (hij : Within lo hi (i, j)) :
      Within lo hi (j, scan arr p j hi) :=
    ⟨hij.lo_le.trans hij.le, by simp [scan], scan_le p hij.le_hi⟩
  have hlo : Within lo hi (lo, lo) := ⟨Nat.le_refl lo, Nat.le_refl lo, h⟩
  have hhi : Within lo hi (hi, hi) := ⟨h, Nat.le_refl hi, Nat.le_refl hi⟩
  have h6 := hscan (·.has serv6addr) hlo
  have h4 := hscan (·.has serv4addr) h6
  have hz := hscan (·.has servAllZeros) h4
  have hr := hscan (·.has servUseResolv) hz
  have hu := hscan (fun s => !s.has servLiteralAddress) hr
  apply within_ite
  · exact within_ite hlo ⟨Nat.le_refl lo, h, Nat.le_refl hi⟩
  apply within_ite h6
  apply within_ite h4
  apply within_ite hz
  apply within_ite hr
  apply within_ite
  · exact within_ite hhi (within_ite hhi hu)
  · exact within_ite ⟨hu.lo_le, Nat.le_refl _, hr.le_hi⟩ ⟨hu.lo_le, hr.le_hi, Nat.le_refl hi⟩

theorem filterServers_within (arr : List Server) (flags : BitVec 32) (seed : ℕ) :
    Within (expandLow arr seed) (expandHigh arr arr.length seed + 1)
    (filterServers arr seed flags) :=
  narrow_within arr flags ((expandLow_le seed).trans
    ((le_expandHigh arr.length seed).trans (Nat.le_succ _)))

theorem filterServers_fst_lt (flags : BitVec 32) {seed : ℕ} (h : seed < arr.length)
    (hne : (filterServers arr seed flags).1 ≠ (filterServers arr seed flags).2) :
    (filterServers arr seed flags).1 < arr.length := by
  have hb := filterServers_within arr flags seed
  have hlt := expandHigh_lt arr arr.length seed h
  have := hb.le
  have := hb.le_hi
  omega

def matchesDomain (d : CString) (s : Server) : Bool :=
  !s.has servForNodots && hostnameIsequal d s.domain

def nonempty (range : ℕ × ℕ) : Option (ℕ × ℕ) :=
  if range.1 = range.2 then none else some range

variable (arr : List Server)

/-- The range of the entries configured for exactly the domain `d`. -/
def groupRange (flags : BitVec 32) (d : CString) : Option (ℕ × ℕ) :=
  match arr.findIdx? (matchesDomain d) with
  | none => none
  | some i => nonempty (filterServers arr i flags)

def longestMatch (domain : CString) (flags : BitVec 32) :
    Option (ℕ × ℕ) :=
  ((List.range (domain.length + 1)).filter (atLabel domain)).findSome? fun off =>
    groupRange arr flags (domain.drop off)

def usesResolv (range : ℕ × ℕ) : Bool :=
  arr[range.1]?.any (·.has servUseResolv)

/-- The longest match, exchanged for the servers without a domain when it says so. -/
def bestMatch (domain : CString) (flags : BitVec 32) : Option (ℕ × ℕ) :=
  match longestMatch arr domain flags with
  | none => none
  | some range => if usesResolv arr range then groupRange arr flags [] else some range

/-- Dotless names go to their own servers unless a non-empty domain has answered. -/
def linearSearch (domain : CString) (flags : BitVec 32) :
    Option (ℕ × ℕ) :=
  let best := bestMatch arr domain flags
  if wantsNodots domain flags ∧ arr[arr.length - 1]?.any (·.has servForNodots) ∧
      best.all (fun range => arr[range.1]?.any (·.domainLen = 0)) then
    nonempty (filterServers arr (arr.length - 1) flags)
  else best

/-- With `server=/example.com/#` configured there is an ordinary server to fall back on. -/
def ResolvConfigured (flags : BitVec 32) : Prop :=
  (∃ s ∈ arr, s.has servUseResolv = true) →
    ∃ i s, arr[i]? = some s ∧ s.domain = [] ∧ s.has servForNodots = false ∧
      (filterServers arr i flags).1 ≠ (filterServers arr i flags).2

section Groups

variable {arr : List Server} {flags : BitVec 32} {q : CString}

theorem matchesDomain_iff (s : Server) : matchesDomain q s = true ↔ order q q.length s = 0 := by
  constructor
  · intro h
    simp only [matchesDomain, hostnameIsequal, Bool.and_eq_true, Bool.not_eq_true',
      decide_eq_true_eq] at h
    have hlen : s.domainLen = q.length := by
      have := congrArg List.length ((hostnameOrder_eq_zero_iff _ _).mp h.2)
      simpa [foldCase, Server.domainLen] using this.symm
    rcases order_cases q h.1 with h' | h' | h'
    · omega
    · omega
    · rw [h'.2, h.2]
  · intro h
    obtain ⟨hn, -, hq⟩ := order_eq_zero h
    simp [matchesDomain, hostnameIsequal, hn, hq]

theorem groupRange_eq_none (h : ∀ i, compareAt arr q i ≠ some 0) :
    groupRange arr flags q = none := by
  have hnone : arr.findIdx? (matchesDomain q) = none := by
    rw [findIdx?_eq_none_iff]
    intro s hs
    obtain ⟨i, hi⟩ := mem_iff_getElem?.mp hs
    by_contra hc
    exact h i (compareAt_eq_some.mpr ⟨s, hi, (matchesDomain_iff s).mp (by simpa using hc)⟩)
  simp [groupRange, hnone]

theorem groupRange_eq (flags : BitVec 32) (hs : SortedArray arr) {i : ℕ}
    (h : compareAt arr q i = some 0) :
    groupRange arr flags q = nonempty (filterServers arr i flags) := by
  obtain ⟨s, hsi, hord⟩ := compareAt_eq_some.mp h
  have hsome : (arr.findIdx? (matchesDomain q)).isSome := by
    rw [findIdx?_isSome, any_eq_true]
    exact ⟨s, mem_of_getElem? hsi, (matchesDomain_iff s).mpr hord⟩
  obtain ⟨j, hj⟩ := Option.isSome_iff_exists.mp hsome
  obtain ⟨hlt, hm, -⟩ := findIdx?_eq_some_iff_getElem.mp hj
  have hcj : compareAt arr q j = some 0 :=
    compareAt_eq_some.mpr ⟨arr[j], by simp [hlt], (matchesDomain_iff _).mp hm⟩
  simp [groupRange, hj, hs.filterServers_eq flags (hs.groupAt hcj) (hs.groupAt h)]

theorem nonempty_eq_some {range r : ℕ × ℕ} (h : nonempty range = some r) :
    range = r ∧ r.1 ≠ r.2 := by
  unfold nonempty at h
  split_ifs at h with hc
  cases h
  exact ⟨rfl, hc⟩

theorem ResolvConfigured.groupRange_nil (hs : SortedArray arr)
    (hr : ResolvConfigured arr flags) {s : Server} (hmem : s ∈ arr)
    (huse : s.has servUseResolv = true) : ∃ r, groupRange arr flags [] = some r := by
  obtain ⟨i, t, hi, hdom, hnod, hne⟩ := hr ⟨s, hmem, huse⟩
  have hc : compareAt arr [] i = some 0 :=
    compareAt_eq_some.mpr ⟨t, hi, by simp [order, hnod, Server.domainLen, hdom]⟩
  exact ⟨_, by rw [groupRange_eq flags hs hc, nonempty, if_neg hne]⟩

end Groups

section Offsets

variable {domain : CString}

theorem skipLabel_spec (domain : CString) (qlen off : ℕ) (hoff : 1 ≤ off)
    (hlen : qlen = domain.length - off) :
    off ≤ skipLabel domain qlen off ∧ atLabel domain (skipLabel domain qlen off) = true ∧
      (off ≤ domain.length → skipLabel domain qlen off ≤ domain.length) ∧
      ∀ k, off ≤ k → k < skipLabel domain qlen off → atLabel domain k = false := by
  induction qlen generalizing off with
  | zero =>
    refine ⟨le_rfl, ?_, fun h => h, fun k h1 h2 => absurd h2 (by simp [skipLabel]; omega)⟩
    exact decide_eq_true (.inr (.inl (by simp only [skipLabel]; omega)))
  | succ qlen ih =>
    simp only [skipLabel]
    split_ifs with hdot
    · exact ⟨le_rfl, by simp [atLabel, hdot], fun h => h, fun k h1 h2 => by omega⟩
    obtain ⟨h1, hlab, h2, h3⟩ := ih (off + 1) (by omega) (by omega)
    refine ⟨by omega, hlab, fun _ => h2 (by omega), fun k hk hlt => ?_⟩
    rcases hk.lt_or_eq with hk | rfl
    · exact h3 k hk hlt
    · simp only [atLabel, decide_eq_false_iff_not, not_or]
      exact ⟨by omega, by omega, hdot⟩

/-- Cropping moves forward, and between the cropped position and the place where the search
goes on there is no label boundary. -/
theorem nextOffset_spec (d : Daemon) (domain : CString) (off : ℕ) (crop : ℤ) (hcrop : 0 ≤ crop)
    (hle : off + crop ≤ domain.length ∨ crop ≤ 1) (hoff : off ≤ domain.length) :
    off < nextOffset d domain off crop ∧ nextOffset d domain off crop ≤ domain.length + 1 ∧
      (d.serverHasWildcard = false → atLabel domain (nextOffset d domain off crop) = true) ∧
      ∀ k : ℕ, off + crop ≤ k → off < k → k < nextOffset d domain off crop →
        atLabel domain k = false := by
  set c : ℤ := if crop = 0 then 1 else crop with hc
  have hmove : (off + c).toNat = off + c.toNat := by omega
  have hstop : off + c.toNat ≤ domain.length + 1 := by rw [hc]; split_ifs <;> omega
  have hck (k : ℕ) (h1 : off + crop ≤ k) (h2 : off < k) : off + c.toNat ≤ k := by
    rw [hc]; split_ifs <;> omega
  dsimp only [nextOffset]
  rw [hmove]
  obtain ⟨h1, hlab, h2, h3⟩ := skipLabel_spec domain
    (domain.length - (off + c.toNat)) (off + c.toNat) (by omega) rfl
  split_ifs with hw
  · exact ⟨by omega, by omega, fun hf => by simp [hw] at hf,
      fun k h4 h5 h6 => absurd (hck k h4 h5) (by omega)⟩
  refine ⟨by omega, ?_, fun _ => hlab, fun k h4 h5 h6 => h3 k (hck k h4 h5) h6⟩
  rcases hstop.lt_or_eq with h | h
  · exact (h2 (by omega)).trans (by omega)
  · rw [h]; simp [skipLabel]

end Offsets

end Dnsmasq.DomainMatch
