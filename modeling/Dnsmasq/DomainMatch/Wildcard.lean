import Dnsmasq.DomainMatch.LookupCorrect

/-!
`lookup_domain` with wildcard domains. The plain group of a domain hides the wildcard group of the
same domain, also when it has nothing that could answer.
-/
namespace Dnsmasq.DomainMatch
open List Option BinarySearch

variable {arr : List Server} {domain q : CString} {flags : BitVec 32} {wild : Bool}

def matchesGroup (wild : Bool) (d : CString) (s : Server) : Bool :=
  matchesDomain d s && s.has servWildcard == wild

section

variable (arr : List Server)

/-- The range of the plain entries, or of the wildcards, for exactly the domain `d`. -/
def kindRange (flags : BitVec 32) (wild : Bool) (d : CString) : Option (ℕ × ℕ) :=
  match arr.findIdx? (matchesGroup wild d) with
  | none => none
  | some i => nonempty (filterServers arr i flags)

/-- A plain domain matches at a label, a wildcard anywhere, and the plain one is preferred. -/
def suffixRange (domain : CString) (flags : BitVec 32) (off : ℕ) : Option (ℕ × ℕ) :=
  (if atLabel domain off then kindRange arr flags false (domain.drop off) else none).or
    (kindRange arr flags true (domain.drop off))

def longestSuffix (domain : CString) (flags : BitVec 32) : Option (ℕ × ℕ) :=
  firstMatch domain (suffixRange arr domain flags)

/-- The plain entries for the suffix are configured and of no use, but its wildcards are. -/
def Shadowed (domain : CString) (flags : BitVec 32) (off : ℕ) : Prop :=
  atLabel domain off = true ∧ (∃ s ∈ arr, matchesGroup false (domain.drop off) s = true) ∧
    kindRange arr flags false (domain.drop off) = none ∧
    kindRange arr flags true (domain.drop off) ≠ none

def Unshadowed (domain : CString) (flags : BitVec 32) : Prop :=
  ∀ off ≤ domain.length, Shadowed arr domain flags off →
    ∃ k < off, suffixRange arr domain flags k ≠ none

/-- What the code does with a suffix: plain entries hide the wildcards. -/
def hitRange (domain : CString) (flags : BitVec 32) (off : ℕ) : Option (ℕ × ℕ) :=
  if atLabel domain off && arr.any (matchesGroup false (domain.drop off)) then
    kindRange arr flags false (domain.drop off)
  else kindRange arr flags true (domain.drop off)

end

theorem matchesGroup_iff (s : Server) :
    matchesGroup wild q s = true ↔ order q q.length s = 0 ∧ s.has servWildcard = wild := by
  rw [matchesGroup, Bool.and_eq_true, matchesDomain_iff, beq_iff_eq]

variable {i j fuel off : ℕ} {r : ℕ × ℕ}

theorem groupAt_iff : GroupAt arr q wild i ↔ ∃ s, arr[i]? = some s ∧
    matchesGroup wild q s = true := by
  simp only [GroupAt, matchesGroup_iff]

theorem exists_groupAt_iff : (∃ i, GroupAt arr q wild i) ↔
    ∃ s ∈ arr, matchesGroup wild q s = true := by
  constructor
  · rintro ⟨i, hi⟩
    obtain ⟨s, hs, hm⟩ := groupAt_iff.mp hi
    exact ⟨s, mem_of_getElem? hs, hm⟩
  · rintro ⟨s, hs, hm⟩
    obtain ⟨i, hi⟩ := mem_iff_getElem?.mp hs
    exact ⟨i, groupAt_iff.mpr ⟨s, hi, hm⟩⟩

theorem kindRange_eq_none (h : ∀ i, ¬ GroupAt arr q wild i) :
    kindRange arr flags wild q = none := by
  have hnone : arr.findIdx? (matchesGroup wild q) = none := by
    rw [findIdx?_eq_none_iff]
    intro s hs
    by_contra hc
    obtain ⟨i, hi⟩ := exists_groupAt_iff.mpr ⟨s, hs, by simpa using hc⟩
    exact h i hi
  simp [kindRange, hnone]

theorem kindRange_eq (flags : BitVec 32) (hs : OrderedArray arr) (h : GroupAt arr q wild i) :
    kindRange arr flags wild q = nonempty (filterServers arr i flags) := by
  have hsome : (arr.findIdx? (matchesGroup wild q)).isSome := by
    rw [findIdx?_isSome, List.any_eq_true]
    exact exists_groupAt_iff.mp ⟨i, h⟩
  obtain ⟨j, hj⟩ := isSome_iff_exists.mp hsome
  obtain ⟨hlt, hm, -⟩ := findIdx?_eq_some_iff_getElem.mp hj
  have hgj : GroupAt arr q wild j := groupAt_iff.mpr ⟨arr[j], getElem?_eq_getElem hlt, hm⟩
  simp [kindRange, hj, hs.filterServers_eq flags hgj h]

section

variable (hs : OrderedArray arr)
include hs

theorem rewind_le (hi : compareAt arr q i = some 0) (hj : compareAt arr q j = some 0) :
    rewind arr q i ≤ j := by
  induction i with
  | zero => exact Nat.zero_le j
  | succ i ih =>
    rw [rewind]
    split_ifs with hc
    · exact ih hc
    · rcases Nat.lt_or_ge j (i + 1) with h | h
      · exact absurd (hs.compareAt_between (by omega) (Nat.le_succ i) hj hi) hc
      · exact h

theorem le_advance (hfuel : arr.length - i ≤ fuel)
    (hi : compareAt arr q i = some 0) (hj : compareAt arr q j = some 0) :
    j ≤ advance arr q fuel i := by
  have hlt := lt_of_compareAt hj
  induction fuel generalizing i with
  | zero =>
    have := lt_of_compareAt hi
    omega
  | succ fuel ih =>
    rw [advance]
    split_ifs with hc
    · exact ih (by omega) hc.2
    · by_contra hle
      exact hc ⟨by omega, hs.compareAt_between (Nat.le_succ i) (by omega) hi hj⟩

theorem groupAt_rewind {probe : ℕ} (h : compareAt arr q probe = some 0) :
    GroupAt arr q (!arr.any (matchesGroup false q)) (rewind arr q probe) := by
  have hfirst := compareAt_rewind probe h
  cases hany : arr.any (matchesGroup false q) with
  | true =>
    obtain ⟨j, hj⟩ := exists_groupAt_iff.mpr (any_eq_true.mp hany)
    exact hs.groupAt_plain (rewind_le hs h hj.compareAt) hfirst hj
  | false =>
    obtain ⟨wild, hw⟩ := exists_groupAt hfirst
    cases wild with
    | true => exact hw
    | false =>
      rw [any_eq_true.mpr (exists_groupAt_iff.mp ⟨_, hw⟩)] at hany
      cases hany

theorem groupAt_advance {probe i : ℕ} (h : compareAt arr q probe = some 0)
    (hi : GroupAt arr q true i) :
    GroupAt arr q true (advance arr q arr.length (rewind arr q probe)) := by
  have hfirst := compareAt_rewind probe h
  exact hs.groupAt_wildcard (le_advance hs (Nat.sub_le _ _) hfirst hi.compareAt) hi
    (compareAt_advance _ _ hfirst)

theorem answers_hitRange (domain : CString) (flags : BitVec 32) :
    Answers ⟨arr, true⟩ domain flags (hitRange arr domain flags) where
  noEntry k hk := by
    have hnone (wild : Bool) : kindRange arr flags wild (domain.drop k) = none :=
      kindRange_eq_none fun i hi => hk i hi.compareAt
    rw [hitRange, hnone, hnone, ite_self]
  between h := nomatch h
  hit off probe hzero _ := by
    have hfirst := groupAt_rewind hs hzero
    have hlast := @groupAt_advance arr (domain.drop off) hs probe
    unfold resolveHit hitRange
    dsimp only
    rw [if_pos rfl]
    cases atLabel domain off with
    | true =>
      cases hany : arr.any (matchesGroup false (domain.drop off)) with
      | true =>
        rw [hany] at hfirst
        exact kindRange_eq flags hs hfirst
      | false =>
        rw [hany] at hfirst
        exact kindRange_eq flags hs hfirst
    | false =>
      by_cases hwild : ∃ i, GroupAt arr (domain.drop off) true i
      · obtain ⟨i, hi⟩ := hwild
        have hgroup := hlast hzero hi
        have hrange := kindRange_eq flags hs hgroup
        obtain ⟨s, hget, -, hw⟩ := hgroup
        rw [if_neg (by simp), if_neg (by simp), hget, if_pos (by simpa using hw)]
        exact hrange
      obtain ⟨wild, s, hget, hord, hw⟩ :=
        exists_groupAt (compareAt_advance arr.length _ (compareAt_rewind probe hzero))
      have hplain : s.has servWildcard = false := by
        by_contra hc
        exact hwild ⟨_, s, hget, hord, by simpa using hc⟩
      rw [if_neg (by simp), if_neg (by simp), hget, if_neg (by simp [hplain])]
      exact kindRange_eq_none fun i hi => hwild ⟨i, hi⟩

end

theorem kindRange_false_eq_none (h : arr.any (matchesGroup false q) = false) :
    kindRange arr flags false q = none := by
  apply kindRange_eq_none
  intro i hi
  rw [any_eq_true.mpr (exists_groupAt_iff.mp ⟨i, hi⟩)] at h
  cases h

theorem hitRange_eq (h : ¬ Shadowed arr domain flags off) :
    hitRange arr domain flags off = suffixRange arr domain flags off := by
  unfold hitRange suffixRange
  cases hlab : atLabel domain off with
  | false => simp
  | true =>
    cases hany : arr.any (matchesGroup false (domain.drop off)) with
    | false => simp [kindRange_false_eq_none hany]
    | true =>
      cases hplain : kindRange arr flags false (domain.drop off) with
      | some r => simp
      | none =>
        have hwild : kindRange arr flags true (domain.drop off) = none := by
          by_contra hc
          exact h ⟨hlab, any_eq_true.mp hany, hplain, hc⟩
        simp [hwild]

theorem Shadowed.hitRange (h : Shadowed arr domain flags off) :
    hitRange arr domain flags off = none := by
  obtain ⟨hlab, hany, hplain, -⟩ := h
  rw [DomainMatch.hitRange, hlab, any_eq_true.mpr hany]
  exact hplain

theorem Shadowed.suffixRange (h : Shadowed arr domain flags off) :
    suffixRange arr domain flags off = kindRange arr flags true (domain.drop off) := by
  obtain ⟨hlab, -, hplain, -⟩ := h
  rw [DomainMatch.suffixRange, hlab, hplain]
  rfl

theorem hitRange_eq_none (h : suffixRange arr domain flags off = none) :
    hitRange arr domain flags off = none := by
  by_cases hsh : Shadowed arr domain flags off
  · exact hsh.hitRange
  · rw [hitRange_eq hsh, h]

theorem domainLen_eq_of_orderServers {a b : Server} (h : orderServers a b = 0) :
    a.domainLen = b.domainLen := by
  rcases orderServers_nonpos h.le with ⟨ha, hb⟩ | ⟨ha, -⟩
  · simp [Server.domainLen, Server.domain_of_nodots ha, Server.domain_of_nodots hb]
  by_cases hab : order a.domain a.domainLen b = 0
  · exact (order_eq_zero hab).2.1.symm
  have heq : orderServers a b = order a.domain a.domainLen b := by
    unfold orderServers
    rw [ha]
    exact if_pos hab
  exact absurd (heq.symm.trans h) hab

theorem domainLen_sameGroup (h : sameGroup arr i j = true) :
    arr[i]?.map (·.domainLen) = arr[j]?.map (·.domainLen) := by
  unfold sameGroup at h
  split at h
  · next a b ha hb =>
    rw [ha, hb, map_some, map_some, domainLen_eq_of_orderServers (by simpa using h)]
  · cases h

theorem domainLen_expandLow (hj : expandLow arr i ≤ j) (hji : j ≤ i) :
    arr[j]?.map (·.domainLen) = arr[i]?.map (·.domainLen) := by
  induction i with
  | zero => rw [Nat.le_zero.mp hji]
  | succ i ih =>
    rw [expandLow] at hj
    split_ifs at hj with hsame
    · rcases Nat.lt_or_ge i j with h | h
      · rw [show j = i + 1 by omega]
      · rw [ih hj h, domainLen_sameGroup hsame]
    · rw [show j = i + 1 by omega]

theorem domainLen_expandHigh (hij : i ≤ j) (hj : j ≤ expandHigh arr fuel i) :
    arr[j]?.map (·.domainLen) = arr[i]?.map (·.domainLen) := by
  induction fuel generalizing i with
  | zero => rw [show j = i from Nat.le_antisymm hj hij]
  | succ fuel ih =>
    rw [expandHigh] at hj
    split_ifs at hj with hsame
    · rcases hij.lt_or_eq with h | rfl
      · rw [ih h hj, domainLen_sameGroup hsame.2]
      · rfl
    · rw [show j = i from Nat.le_antisymm hj hij]

theorem kindRange_domainLen (h : kindRange arr flags wild q = some r) :
    arr[r.1]?.map (·.domainLen) = some q.length := by
  unfold kindRange at h
  split at h
  · cases h
  next i hi =>
  obtain ⟨rfl, hne⟩ := nonempty_eq_some h
  obtain ⟨hlt, hm, -⟩ := findIdx?_eq_some_iff_getElem.mp hi
  have hlen : arr[i]?.map (·.domainLen) = some q.length := by
    rw [getElem?_eq_getElem hlt]
    exact congrArg some (order_eq_zero ((matchesGroup_iff _).mp hm).1).2.1
  have hw := filterServers_within arr flags i
  have hle : (filterServers arr i flags).1 ≤ expandHigh arr arr.length i := by
    have := hw.le
    have := hw.le_hi
    omega
  rcases Nat.le_total (filterServers arr i flags).1 i with hi' | hi'
  · rw [domainLen_expandLow hw.lo_le hi', hlen]
  · rw [domainLen_expandHigh hi' hle, hlen]

theorem hitRange_domainLen (h : hitRange arr domain flags off = some r) :
    arr[r.1]?.map (·.domainLen) = some (domain.length - off) := by
  unfold hitRange at h
  split_ifs at h <;> rw [kindRange_domainLen h, length_drop]

theorem firstMatch_hitRange_iff (arr : List Server) (domain : CString) (flags : BitVec 32) :
    firstMatch domain (hitRange arr domain flags) = longestSuffix arr domain flags ↔
    Unshadowed arr domain flags := by
  constructor
  · intro heq off hoff hsh
    by_contra hlonger
    push Not at hlonger
    obtain ⟨r, hr⟩ := ne_none_iff_exists'.mp hsh.2.2.2
    rw [longestSuffix, firstMatch_eq_some hoff hlonger (hsh.suffixRange.trans hr)] at heq
    obtain ⟨k, hk, hhit⟩ := exists_of_findSome?_eq_some heq
    have hlen := hitRange_domainLen hhit
    rw [kindRange_domainLen hr, length_drop] at hlen
    have hk : k = off := by
      have := mem_range.mp hk
      have := Option.some.inj hlen
      omega
    rw [hk, hsh.hitRange] at hhit
    cases hhit
  intro hun
  by_cases hex : ∃ k ≤ domain.length, suffixRange arr domain flags k ≠ none
  · obtain ⟨hle, hne⟩ := Nat.find_spec hex
    have hmin {k : ℕ} (hk : k < Nat.find hex) : suffixRange arr domain flags k = none := by
      by_contra hc
      exact Nat.find_min hex hk ⟨by omega, hc⟩
    have hsh : ¬ Shadowed arr domain flags (Nat.find hex) := by
      intro hsh
      obtain ⟨k, hk, hc⟩ := hun _ hle hsh
      exact hc (hmin hk)
    obtain ⟨r, hr⟩ := ne_none_iff_exists'.mp hne
    rw [longestSuffix, firstMatch_eq_some hle (fun k hk => hmin hk) hr]
    exact firstMatch_eq_some hle (fun k hk => hitRange_eq_none (hmin hk))
      ((hitRange_eq hsh).trans hr)
  · push Not at hex
    rw [longestSuffix, firstMatch_eq_none hex]
    exact firstMatch_eq_none fun k hk => hitRange_eq_none (hex k hk)

/-- With a wildcard configured and no entry for `resolv.conf` servers, `lookup_domain` returns
the range of the longest suffix exactly if that suffix is not shadowed. -/
theorem lookupDomain_wildcard_iff {servers : List Server} (harr : IsServerArray servers arr)
    (hwild : ∃ s ∈ servers, s.has servWildcard = true) (hres : ∀ s ∈ servers,
      s.has servUseResolv = false)
    (stale : Bool) (domain : CString) (hdot : domain.contains dot = true) (flags : BitVec 32) :
    ∃ r, lookupDomain ⟨arr, stale || servers.any (·.has servWildcard)⟩ domain flags = some r ∧
      (r.range = longestSuffix arr domain flags ↔ Unshadowed arr domain flags) := by
  have hs := harr.orderedArray
  have hflag : (stale || servers.any (·.has servWildcard)) = true := by
    rw [any_eq_true.mpr hwild, Bool.or_true]
  have hpos : 0 < arr.length := by
    obtain ⟨s, hs, -⟩ := hwild
    exact length_pos_of_mem (harr.perm.mem_iff.mpr hs)
  have hinv : SearchInv ⟨arr, true⟩ domain (hitRange arr domain flags) 0 0 :=
    ⟨Nat.zero_le _, fun _ => rfl, hpos, fun _ _ _ => .inl rfl,
      fun k hk => absurd hk (Nat.not_lt_zero k)⟩
  have hnot : ∀ s ∈ arr, s.has servUseResolv = false := fun s hs => hres s (harr.perm.mem_iff.mp hs)
  obtain ⟨r, hr, hfirst⟩ := searchSuffixes_eq hs (answers_hitRange hs domain flags)
    (fun s hmem huse => absurd huse (by simp [hnot s hmem])) (domain.length + 2) 0 0 (0, 0)
    hinv rfl (by omega)
  have hexchange (range? : Option (ℕ × ℕ)) :
      exchange arr (hitRange arr domain flags domain.length) range? = range? := by
    cases range? with
    | none => rfl
    | some range =>
      have huse : usesResolv arr range = false := by
        unfold usesResolv
        cases hget : arr[range.1]? with
        | none => rfl
        | some s => exact hnot s (mem_of_getElem? hget)
      rw [exchange, huse]
      rfl
  have hnodots : wantsNodots domain flags = false := by
    unfold wantsNodots
    rw [hdot]
    rfl
  rw [hexchange] at hfirst
  rw [hflag, ← firstMatch_hitRange_iff, ← hfirst]
  refine ⟨⟨r.1 ≠ r.2, some r⟩, ?_, ?_⟩
  · simp [lookupDomain, hr, hnodots, hpos.ne']
  · have hrange : LookupResult.range ⟨r.1 ≠ r.2, some r⟩ = nonempty r := by
      by_cases hne : r.1 = r.2 <;> simp [LookupResult.range, nonempty, hne]
    rw [hrange]

/-- The configuration `address=/b.c/::`, `server=/*b.c/10.0.0.1`, `server=8.8.8.8`. -/
def starServers : List Server :=
  [{ flags := servLiteralAddress ||| serv6addr, domain := [98, 46, 99] },
    { flags := servWildcard, domain := [98, 46, 99], serial := 0 },
    { flags := 0, domain := [], serial := 1, nodots_domain := nodots_anyName }]

theorem starServers_isServerArray : IsServerArray starServers starServers :=
    ⟨.refl starServers, by decide⟩

/-- For the address of `ab.c` the wildcard is used. -/
theorem lookupDomain_wildcard_iff_ab :
    ∃ r, lookupDomain ⟨starServers, false || starServers.any (·.has servWildcard)⟩ [97, 98, 46,
      99] fIpv4 = some r ∧
      (r.range = longestSuffix starServers [97, 98, 46, 99] fIpv4 ↔
        Unshadowed starServers [97, 98, 46, 99] fIpv4) :=
  lookupDomain_wildcard_iff starServers_isServerArray (by decide) (by decide) false [97, 98, 46,
    99] (by decide) fIpv4

/-- For the IPv4 address of `a.b.c` the literal IPv6 address is of no use, and the servers for
all names are asked instead of the one for `*b.c`. -/
theorem lookupDomain_shadowed : IsServerArray starServers starServers ∧
      lookupDomain ⟨starServers, true⟩ [97, 46, 98, 46, 99] fIpv4 = some ⟨true, some (2, 3)⟩ ∧
      longestSuffix starServers [97, 46, 98, 46, 99] fIpv4 = some (1, 2) :=
  ⟨starServers_isServerArray, by decide, by decide⟩

end Dnsmasq.DomainMatch
