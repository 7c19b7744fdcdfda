import Dnsmasq.DomainMatch.ServerOrder

/-!
`lookup_domain` returns what the linear search returns: no suffix before the current one has an
answering group, and the kept lower bound sorts before every shorter suffix.
-/
namespace Dnsmasq.DomainMatch
open List Option BinarySearch

variable {arr : List Server} {domain : CString} {flags : BitVec 32}

/-- No entry has the suffix at `k` as its domain. -/
def NoEntry (arr : List Server) (domain : CString) (k : ℕ) : Prop :=
  ∀ i, compareAt arr (domain.drop k) i ≠ some 0

theorem noEntry_of_domainLen {k : ℕ} (h : ∀ (i : ℕ) (s : Server), arr[i]? = some s →
    s.has servForNodots = false → s.domainLen ≠ domain.length - k) : NoEntry arr domain k := by
  intro i hi
  obtain ⟨s, hs, hord⟩ := compareAt_eq_some.mp hi
  obtain ⟨hn, hlen, -⟩ := order_eq_zero hord
  exact h i s hs hn (by simpa using hlen)

/-- What a failed search at `off` promises about the positions it crops away. -/
structure CropSafe (arr : List Server) (domain : CString) (off : ℕ) (crop : ℤ) : Prop where
  nonneg : 0 ≤ crop
  le : off + crop ≤ domain.length ∨ crop ≤ 1
  here : NoEntry arr domain off
  cropped : ∀ k : ℕ, off < k → (k : ℤ) < off + crop → NoEntry arr domain k

theorem cropSafe_before (hs : OrderedArray arr) {off : ℕ} (hoff : off ≤ domain.length)
    (hneg : ∀ j < arr.length, ∃ rc, compareAt arr (domain.drop off) j = some rc ∧ rc < 0)
    {s : Server} (hs0 : arr[0]? = some s) :
    CropSafe arr domain off ((domain.length : ℤ) - off - s.domainLen) := by
  have hle : s.domainLen ≤ domain.length - off := by
    obtain ⟨rc, hrc, hlt⟩ := hneg 0 (List.getElem?_eq_some_iff.mp hs0).1
    obtain ⟨t, ht, rfl⟩ := compareAt_eq_some.mp hrc
    rw [hs0] at ht; cases ht
    simpa using order_neg hlt
  refine ⟨by omega, by omega, ?_, fun k h1 h2 => ?_⟩
  · intro i hi
    obtain ⟨rc, hrc, hlt⟩ := hneg i (lt_of_compareAt hi)
    rw [hi] at hrc; cases hrc; omega
  apply noEntry_of_domainLen
  intro i t ht _ hlen
  have := hs.domainLen_le (Nat.zero_le i) hs0 ht
  omega

theorem find?_drop_spec {α : Type*} {p : α → Bool} {l : List α} {n : ℕ} {a : α}
    (h : (l.drop n).find? p = some a) : ∃ t, n ≤ t ∧ l[t]? = some a ∧ p a = true ∧
      ∀ j, n ≤ j → j < t → ∀ b, l[j]? = some b → p b = false := by
  obtain ⟨hp, i, hi, heq, hbefore⟩ := find?_eq_some_iff_getElem.mp h
  refine ⟨n + i, by omega, ?_, hp, fun j h1 h2 b hb => ?_⟩
  · rw [← getElem?_drop, getElem?_eq_getElem hi, heq]
  obtain ⟨m, rfl⟩ := Nat.exists_eq_add_of_le h1
  obtain ⟨hm, rfl⟩ := List.getElem?_eq_some_iff.mp hb
  simpa using hbefore m (by omega)

/-- The query sorts between two entries: crop it to the first later domain that has another
length than the entry before it. -/
theorem cropSafe_after (hs : OrderedArray arr) {off low : ℕ} (hoff : off ≤ domain.length)
    {s : Server} (hsl : arr[low]? = some s)
    (hpos : 0 < order (domain.drop off) (domain.drop off).length s)
    (hneg : ∀ j, low < j → j < arr.length →
      ∃ rc, compareAt arr (domain.drop off) j = some rc ∧ rc < 0) : CropSafe arr domain off
      (cropAfter arr ((domain.length : ℤ) - off) low s.domainLen) := by
  obtain ⟨hns, hlen⟩ := order_pos hpos
  rw [length_drop] at hlen
  -- Entries up to `low` are at least as long as the query, later ones at most.
  have hupto {i : ℕ} {t : Server} (hi : i ≤ low) (ht : arr[i]? = some t) :
      domain.length - off ≤ t.domainLen := hlen.trans (hs.domainLen_le hi ht hsl)
  have hlater {i : ℕ} {t : Server} (hi : low < i) (ht : arr[i]? = some t) :
      t.domainLen ≤ domain.length - off := by
    obtain ⟨rc, hrc, hlt⟩ := hneg i hi (List.getElem?_eq_some_iff.mp ht).1
    obtain ⟨u, hu, rfl⟩ := compareAt_eq_some.mp hrc
    rw [ht] at hu; cases hu
    simpa using order_neg hlt
  have hhere : NoEntry arr domain off := by
    intro i hi
    rcases Nat.lt_or_ge low i with h | h
    · obtain ⟨rc, hrc, hlt⟩ := hneg i h (lt_of_compareAt hi)
      rw [hi] at hrc; cases hrc; omega
    have hcl : compareAt arr (domain.drop off) low = some _ :=
      compareAt_eq_some.mpr ⟨s, hsl, rfl⟩
    have := (hs.signSorted _).nonpos i low h (lt_of_compareAt hcl) 0 _ hi hcl le_rfl
    omega
  unfold cropAfter
  split
  · next t ht =>
    obtain ⟨m, hm, hmt, hne, hbetween⟩ := find?_drop_spec ht
    have htl := hlater (show low < m by omega) hmt
    refine ⟨by omega, by omega, hhere, fun k h1 h2 => ?_⟩
    apply noEntry_of_domainLen
    intro i u hu _ hlenu
    rcases Nat.lt_or_ge low i with h | h
    · rcases Nat.lt_or_ge i m with h' | h'
      · have : u.domainLen = s.domainLen := by simpa using hbetween i (by omega) h' u hu
        omega
      · have := hs.domainLen_le h' hmt hu
        omega
    · have := hupto h hu
      omega
  · exact ⟨by omega, by omega, hhere, fun k h1 h2 => by omega⟩

theorem compareAt_rewind {q : CString} (n : ℕ) (h : compareAt arr q n = some 0) :
    compareAt arr q (rewind arr q n) = some 0 := by
  induction n with
  | zero => exact h
  | succ n ih =>
    rw [rewind]
    split_ifs with hc
    · exact ih hc
    · exact h

theorem compareAt_advance {q : CString} (fuel n : ℕ) (h : compareAt arr q n = some 0) :
    compareAt arr q (advance arr q fuel n) = some 0 := by
  induction fuel generalizing n with
  | zero => exact h
  | succ fuel ih =>
    rw [advance]
    split_ifs with hc
    · exact ih (n + 1) hc.2
    · exact h

theorem compareAt_resolveHit {d : Daemon} {off probe seed : ℕ}
    (h : compareAt d.serverarray (domain.drop off) probe = some 0)
    (hseed : resolveHit d domain off probe = some seed) :
    compareAt d.serverarray (domain.drop off) seed = some 0 := by
  have hfirst := compareAt_rewind probe h
  unfold resolveHit at hseed
  dsimp only at hseed
  split_ifs at hseed with hw hlab hlast
  · cases hseed
    exact hfirst
  · cases hseed
    exact compareAt_advance d.serverarray.length _ hfirst
  · cases hseed
    exact h

def firstMatch (domain : CString) (answer : ℕ → Option (ℕ × ℕ)) : Option (ℕ × ℕ) :=
  (List.range (domain.length + 1)).findSome? answer

/-- A match that names the servers without a domain is exchanged for theirs. -/
def exchange (arr : List Server) (servers : Option (ℕ × ℕ)) : Option (ℕ × ℕ) → Option (ℕ × ℕ)
  | none => none
  | some range => if usesResolv arr range then servers else some range

section FirstMatch

variable {answer : ℕ → Option (ℕ × ℕ)}

theorem firstMatch_eq_some {off : ℕ} {r : ℕ × ℕ} (hoff : off ≤ domain.length)
    (hskip : ∀ k < off, answer k = none) (h : answer off = some r) :
    firstMatch domain answer = some r := by
  obtain ⟨m, hm⟩ := Nat.exists_eq_add_of_le hoff
  have hrange : List.range (domain.length + 1) =
      List.range off ++ off :: (List.range m).map (fun j => off + (j + 1)) := by
    rw [hm, Nat.add_assoc, range_add, range_succ_eq_map]
    simp
  have hfirst : (List.range off).findSome? answer = none := by
    simp only [findSome?_eq_none_iff, mem_range]
    exact hskip
  rw [firstMatch, hrange, findSome?_append, hfirst, none_or,
    findSome?_cons_of_isSome (by simp [h]), h]

theorem firstMatch_eq_none (h : ∀ k ≤ domain.length, answer k = none) :
    firstMatch domain answer = none := by
  simp only [firstMatch, findSome?_eq_none_iff, mem_range]
  exact fun k hk => h k (by omega)

end FirstMatch

/-- What the positions of a query answer, in terms of the entry a hit stands for. Without
wildcards only the labels are tried. -/
structure Answers (d : Daemon) (domain : CString) (flags : BitVec 32) (answer : ℕ →
    Option (ℕ × ℕ)) : Prop where
  noEntry : ∀ k, NoEntry d.serverarray domain k → answer k = none
  between : d.serverHasWildcard = false → ∀ k, atLabel domain k = false → answer k = none
  hit : ∀ off probe, compareAt d.serverarray (domain.drop off) probe = some 0 →
    (d.serverHasWildcard = false → atLabel domain off = true) →
    answer off = (resolveHit d domain off probe).bind fun seed =>
    nonempty (filterServers d.serverarray seed flags)

variable {answer : ℕ → Option (ℕ × ℕ)}

variable {d : Daemon} {k off low probe : ℕ} {r : ℕ × ℕ} {crop : ℤ}

theorem Answers.nonempty_eq (hanswer : Answers d domain flags answer)
    (hlabel : d.serverHasWildcard = false → atLabel domain k = true) (h : answer k = some r) :
    nonempty r = some r := by
  by_cases hno : NoEntry d.serverarray domain k
  · rw [hanswer.noEntry k hno] at h
    cases h
  unfold NoEntry at hno
  push Not at hno
  obtain ⟨probe, hprobe⟩ := hno
  rw [hanswer.hit k probe hprobe hlabel] at h
  obtain ⟨seed, -, hr⟩ := bind_eq_some_iff.mp h
  obtain ⟨rfl, -⟩ := nonempty_eq_some hr
  exact hr

theorem Answers.nonempty_firstMatch (hanswer : Answers d domain flags answer)
    (h : firstMatch domain answer = some r) : nonempty r = some r := by
  obtain ⟨k, -, hk⟩ := exists_of_findSome?_eq_some h
  apply hanswer.nonempty_eq _ hk
  intro hflag
  by_contra hlabel
  rw [hanswer.between hflag k (by simpa using hlabel)] at hk
  cases hk

theorem lowOk_shorter (hlow : LowOk (compareAt arr (domain.drop off)) low)
    (hk : off < k) (hlen : k ≤ domain.length) : LowOk (compareAt arr (domain.drop k)) low := by
  rcases hlow with h | ⟨rc, hrc, hpos⟩
  · exact .inl h
  obtain ⟨s, hs, rfl⟩ := compareAt_eq_some.mp hrc
  obtain ⟨hn, hle⟩ := order_pos hpos
  rw [length_drop] at hle
  refine .inr ⟨1, compareAt_eq_some.mpr ⟨s, hs, ?_⟩, one_pos⟩
  rw [order, hn]
  simp
  omega

/-- The state of the outer loop between two searches. -/
structure SearchInv (d : Daemon) (domain : CString) (answer : ℕ → Option (ℕ × ℕ)) (off low : ℕ) :
    Prop where
  off_le : off ≤ domain.length + 1
  label : d.serverHasWildcard = false → atLabel domain off = true
  low_lt : low < d.serverarray.length
  lowOk : ∀ k, off ≤ k → k ≤ domain.length → LowOk (compareAt d.serverarray (domain.drop k)) low
  skipped : ∀ k < off, answer k = none

/-- Cropping after a search that settled every position up to the cropped one. -/
theorem SearchInv.next {low' : ℕ} (hanswer : Answers d domain flags answer)
    (inv : SearchInv d domain answer off low) (hoff : off ≤ domain.length)
    (hnonneg : 0 ≤ crop) (hle : off + crop ≤ domain.length ∨ crop ≤ 1)
    (hlow : low' < d.serverarray.length)
    (hok : LowOk (compareAt d.serverarray (domain.drop off)) low')
    (hsettled : ∀ k : ℕ, off ≤ k → k = off ∨ (k : ℤ) < off + crop → answer k = none) :
    SearchInv d domain answer (nextOffset d domain off crop) low' := by
  obtain ⟨h1, h2, h3, h4⟩ := nextOffset_spec d domain off crop hnonneg hle hoff
  refine ⟨h2, h3, hlow, fun k hk hkl => lowOk_shorter hok (by omega) hkl, ?_⟩
  intro k hk
  rcases Nat.lt_or_ge k off with h | h
  · exact inv.skipped k h
  by_cases hk' : k = off ∨ (k : ℤ) < off + crop
  · exact hsettled k h hk'
  have hlab := h4 k (by omega) (by omega) hk
  cases hw : d.serverHasWildcard with
  | false => exact hanswer.between hw k hlab
  | true =>
    -- With wildcards the search goes on at the cropped position itself.
    have hpos : k < (off + if crop = 0 then 1 else crop).toNat := by
      simpa [nextOffset, hw] using hk
    split_ifs at hpos <;> omega

theorem CropSafe.settled (hanswer : Answers d domain flags answer)
    (h : CropSafe d.serverarray domain off crop) (k : ℕ)
    (hk : off ≤ k) (hk' : k = off ∨ (k : ℤ) < off + crop) : answer k = none := by
  apply hanswer.noEntry
  rcases hk.lt_or_eq with hlt | rfl
  · exact h.cropped k hlt (by omega)
  · exact h.here

theorem nextOffset_rest (d : Daemon) (h : off < domain.length) :
    nextOffset d domain off ((domain.length : ℤ) - off) = domain.length := by
  dsimp only [nextOffset]
  rw [if_neg (show (domain.length : ℤ) - off ≠ 0 by omega)]
  simp [skipLabel]

theorem nextOffset_end (d : Daemon) :
    nextOffset d domain domain.length ((domain.length : ℤ) - domain.length) =
      domain.length + 1 := by
  have := nextOffset_spec d domain domain.length 0 le_rfl (.inl (by omega)) le_rfl
  rw [sub_self]
  omega

theorem resolveHit_label (hlab : atLabel domain off = true)
    (h : compareAt d.serverarray (domain.drop off) probe = some 0) :
    ∃ seed, resolveHit d domain off probe = some seed ∧
      compareAt d.serverarray (domain.drop off) seed = some 0 := by
  unfold resolveHit
  split_ifs
  · exact ⟨_, rfl, compareAt_rewind probe h⟩
  · exact ⟨_, rfl, h⟩

/-- Once told to use the servers without a domain, the search ends with their range; without any
entry for them, the last range stays. -/
theorem searchSuffixes_end (hs : OrderedArray d.serverarray)
    (hanswer : Answers d domain flags answer)
    {fuel : ℕ} (hlow : low < d.serverarray.length) (hok : LowOk (compareAt d.serverarray []) low)
    (range : ℕ × ℕ) : ∃ r, searchSuffixes d domain flags (fuel + 2) domain.length low range =
    some r ∧
      (NoEntry d.serverarray domain domain.length → r = range) ∧
      (¬ NoEntry d.serverarray domain domain.length → nonempty r = answer domain.length) := by
  have hnil : domain.drop domain.length = [] := drop_length
  obtain ⟨e, hrun, hsound⟩ := run_sound (hs.signSorted (domain.drop domain.length))
    (d.serverarray.length + 2) low
    d.serverarray.length hlow.le hlow le_rfl (hnil.symm ▸ hok) (fun j h1 h2 => by omega) (by omega)
  -- one step further the query is used up
  have hover {crop : ℤ} (hcrop : CropSafe d.serverarray domain domain.length crop) (low' : ℕ) :
      searchSuffixes d domain flags (fuel + 1) (nextOffset d domain domain.length crop) low' range =
      some range := by
    have hnext := (nextOffset_spec d domain domain.length crop hcrop.nonneg hcrop.le le_rfl).1
    rw [searchSuffixes, if_pos hnext]
  rw [searchSuffixes, if_neg (by omega)]
  simp only [hrun]
  cases e with
  | before probe low' =>
    obtain ⟨rfl, rfl, hpos, hneg⟩ := hsound
    have hs0 := getElem?_eq_getElem hpos
    have hcrop := cropSafe_before hs le_rfl hneg hs0
    simp only [hs0]
    exact ⟨range, hover hcrop _, fun _ => rfl, fun h => absurd hcrop.here h⟩
  | after probe low' =>
    obtain ⟨rfl, hlt, ⟨rc, hrc, hpos⟩, hneg⟩ := hsound
    obtain ⟨s, hsl, rfl⟩ := compareAt_eq_some.mp hrc
    have hcrop := cropSafe_after hs le_rfl hsl hpos hneg
    simp only [hsl]
    exact ⟨range, hover hcrop _, fun _ => rfl, fun h => absurd hcrop.here h⟩
  | found probe low' =>
    obtain ⟨-, -, -, hzero⟩ := hsound
    have hentry : ¬ NoEntry d.serverarray domain domain.length := fun h => h probe hzero
    have hlabel : atLabel domain domain.length = true := by simp [atLabel]
    obtain ⟨seed, hseed, hcs⟩ := resolveHit_label hlabel hzero
    have hhit := hanswer.hit domain.length probe hzero fun _ => hlabel
    have hnext := (nextOffset_spec d domain domain.length 1 (by omega) (.inr le_rfl) le_rfl).1
    rw [hseed] at hhit
    simp only [hseed]
    refine ⟨filterServers d.serverarray seed flags, ?_, fun h => absurd h hentry,
      fun _ => hhit.symm⟩
    split_ifs with hrange
    · rw [searchSuffixes, if_pos hnext]
    have hlt := filterServers_fst_lt flags (lt_of_compareAt hcs) hrange
    simp only [getElem?_eq_getElem hlt, nextOffset_end]
    split_ifs
    · rw [searchSuffixes, if_pos (by omega)]
    · rfl

theorem usesResolv_iff {range : ℕ × ℕ} :
    usesResolv arr range = true ↔ ∃ s, arr[range.1]? = some s ∧ s.has servUseResolv = true := by
  unfold usesResolv
  cases arr[range.1]? <;> simp

/-- What the search leaves in `nlow` and `nhigh`, in terms of its first match. -/
structure Settled (arr : List Server) (domain : CString) (answer : ℕ → Option (ℕ × ℕ)) (r : ℕ × ℕ) :
    Prop where
  unmatched : firstMatch domain answer = none → r.1 = r.2
  direct : ∀ first, firstMatch domain answer = some first → usesResolv arr first = false → r = first
  stale : ∀ first, firstMatch domain answer = some first → usesResolv arr first = true →
    NoEntry arr domain domain.length → r = first
  exchanged : ∀ first, firstMatch domain answer = some first → usesResolv arr first = true →
    ¬ NoEntry arr domain domain.length → nonempty r = answer domain.length

section

variable (hs : OrderedArray d.serverarray) (hanswer : Answers d domain flags answer)
include hs hanswer

theorem searchSuffixes_settled (fuel off low : ℕ) (range : ℕ × ℕ)
    (inv : SearchInv d domain answer off low) (hempty : range.1 = range.2)
    (hfuel : domain.length + 1 - off < fuel) :
    ∃ r, searchSuffixes d domain flags fuel off low range = some r ∧
      Settled d.serverarray domain answer r := by
  induction fuel generalizing off low range with
  | zero => omega
  | succ fuel ih =>
    rw [searchSuffixes]
    split_ifs with hend
    · have hnone : firstMatch domain answer = none :=
        firstMatch_eq_none fun k hk => inv.skipped k (by omega)
      exact ⟨range, rfl, fun _ => hempty, by simp [hnone], by simp [hnone], by simp [hnone]⟩
    have hoff : off ≤ domain.length := by omega
    obtain ⟨e, hrun, hsound⟩ := run_sound (hs.signSorted (domain.drop off))
      (d.serverarray.length + 2) low d.serverarray.length inv.low_lt.le inv.low_lt le_rfl
      (inv.lowOk off le_rfl hoff) (fun j h1 h2 => by omega) (by omega)
    simp only [hrun]
    cases e with
    | before probe low' =>
      obtain ⟨rfl, rfl, hpos, hneg⟩ := hsound
      have hs0 := getElem?_eq_getElem hpos
      have hcrop := cropSafe_before hs hoff hneg hs0
      simp only [hs0]
      refine ih _ _ _ (inv.next hanswer hoff hcrop.nonneg hcrop.le hpos (.inl rfl)
        (hcrop.settled hanswer)) hempty ?_
      have := (nextOffset_spec d domain off _ hcrop.nonneg hcrop.le hoff).1
      omega
    | after probe low' =>
      obtain ⟨rfl, hlt, ⟨rc, hrc, hpos⟩, hneg⟩ := hsound
      obtain ⟨s, hsl, rfl⟩ := compareAt_eq_some.mp hrc
      have hcrop := cropSafe_after hs hoff hsl hpos hneg
      simp only [hsl]
      refine ih _ _ _ (inv.next hanswer hoff hcrop.nonneg hcrop.le hlt (.inr ⟨_, hrc, hpos⟩)
        (hcrop.settled hanswer)) hempty ?_
      have := (nextOffset_spec d domain off _ hcrop.nonneg hcrop.le hoff).1
      omega
    | found probe low' =>
      obtain ⟨hprobe, hlt, hok, hzero⟩ := hsound
      have hnext := (nextOffset_spec d domain off 1 (by omega) (.inr le_rfl) hoff).1
      have hhit := hanswer.hit off probe hzero inv.label
      have hskip (hnone : answer off = none) :
          SearchInv d domain answer (nextOffset d domain off 1) low' := by
        apply inv.next hanswer hoff (by omega) (.inr le_rfl) hlt hok
        intro k hk hk'
        rw [show k = off by omega]
        exact hnone
      cases hseed : resolveHit d domain off probe with
      | none =>
        rw [hseed] at hhit
        simp only [hseed]
        exact ih _ _ _ (hskip hhit) hempty (by omega)
      | some seed =>
        have hcs := compareAt_resolveHit hzero hseed
        rw [hseed, bind_some] at hhit
        simp only [hseed]
        split_ifs with hrange
        · rw [nonempty, if_pos hrange] at hhit
          exact ih _ _ _ (hskip hhit) hrange (by omega)
        rw [nonempty, if_neg hrange] at hhit
        have hfst := filterServers_fst_lt flags (lt_of_compareAt hcs) hrange
        have hget := getElem?_eq_getElem hfst
        have hfirst := firstMatch_eq_some hoff inv.skipped hhit
        have hresolv : usesResolv d.serverarray (filterServers d.serverarray seed flags) =
            d.serverarray[(filterServers d.serverarray seed flags).1].has servUseResolv := by
          rw [usesResolv, hget, any_some]
        have hself : nonempty (filterServers d.serverarray seed flags) =
            some (filterServers d.serverarray seed flags) := by
          rw [nonempty, if_neg hrange]
        simp only [hget]
        split_ifs with huse
        · -- The match says to use the servers without a domain.
          rw [huse] at hresolv
          rcases hoff.lt_or_eq with hlt' | rfl
          · obtain ⟨f, rfl⟩ := Nat.exists_eq_add_of_le (show 2 ≤ fuel by omega)
            rw [nextOffset_rest d hlt', Nat.add_comm 2 f]
            have hnil := by simpa using lowOk_shorter hok hlt' le_rfl
            obtain ⟨r, hr, hstale, hexchanged⟩ :=
              searchSuffixes_end hs hanswer hlt hnil (filterServers d.serverarray seed flags)
            refine ⟨r, hr, ?_, ?_, ?_, fun _ _ _ => hexchanged⟩
            · simp [hfirst]
            · simp [hfirst, hresolv]
            · simpa [hfirst, hresolv] using hstale
          obtain ⟨f, rfl⟩ := Nat.exists_eq_add_of_le (show 1 ≤ fuel by omega)
          rw [nextOffset_end, Nat.add_comm 1 f, searchSuffixes, if_pos (by omega)]
          refine ⟨_, rfl, ?_, ?_, ?_, fun _ _ _ _ => by rw [hself, hhit]⟩
          · simp [hfirst]
          · simp [hfirst]
          · simp [hfirst]
        refine ⟨_, rfl, ?_, ?_, ?_, ?_⟩
        · simp [hfirst]
        · simp [hfirst]
        · simp [hfirst]
        · simp [hfirst, hresolv, huse]

theorem searchSuffixes_eq (hres : ∀ s ∈ d.serverarray, s.has servUseResolv = true →
    ∃ r, answer domain.length = some r) (fuel off low : ℕ) (range : ℕ × ℕ)
    (inv : SearchInv d domain answer off low) (hempty : range.1 = range.2)
    (hfuel : domain.length + 1 - off < fuel) :
    ∃ r, searchSuffixes d domain flags fuel off low range = some r ∧
      nonempty r = exchange d.serverarray (answer domain.length) (firstMatch domain answer) := by
  obtain ⟨r, hr, hsettled⟩ := searchSuffixes_settled hs hanswer fuel off low range inv hempty hfuel
  refine ⟨r, hr, ?_⟩
  cases hfirst : firstMatch domain answer with
  | none => rw [nonempty, if_pos (hsettled.unmatched hfirst), exchange]
  | some first =>
    rw [exchange]
    split_ifs with huse
    · have hentry : ¬ NoEntry d.serverarray domain domain.length := by
        intro hno
        obtain ⟨s, hs, hany⟩ := usesResolv_iff.mp huse
        obtain ⟨r', hr'⟩ := hres s (mem_of_getElem? hs) hany
        rw [hanswer.noEntry _ hno] at hr'
        cases hr'
      exact hsettled.exchanged first hfirst huse hentry
    · rw [hsettled.direct first hfirst (by simpa using huse)]
      exact hanswer.nonempty_firstMatch hfirst

end

theorem resolveHit_not_label (hs : SortedArray d.serverarray)
    (hlab : atLabel domain off = false) (hw : d.serverHasWildcard = true) :
    resolveHit d domain off probe = none := by
  have hno (i : ℕ) : d.serverarray[i]?.any (·.has servWildcard) = false := by
    cases h : d.serverarray[i]? with
    | none => rfl
    | some s => simpa using hs.noWildcard s (mem_of_getElem? h)
  simp [resolveHit, hw, hlab, hno]

theorem answers_groupRange (hs : SortedArray d.serverarray) (domain : CString) (flags : BitVec 32) :
    Answers d domain flags fun off =>
      if atLabel domain off then groupRange d.serverarray flags (domain.drop off) else none where
  noEntry k hk := by
    rw [groupRange_eq_none hk, ite_self]
  between _ k hk := by
    simp [hk]
  hit off probe hzero hlabel := by
    cases hlab : atLabel domain off with
    | false =>
      have hw : d.serverHasWildcard = true := by
        by_contra hc
        simp [hlabel (by simpa using hc)] at hlab
      rw [resolveHit_not_label hs hlab hw]
      rfl
    | true =>
      obtain ⟨seed, hseed, hcs⟩ := resolveHit_label hlab hzero
      rw [if_pos rfl, hseed, bind_some, groupRange_eq flags hs hcs]

section

variable (arr : List Server) (domain : CString) (flags : BitVec 32)

theorem longestMatch_eq : longestMatch arr domain flags = firstMatch domain fun off =>
      if atLabel domain off then groupRange arr flags (domain.drop off) else none := by
  unfold longestMatch firstMatch
  induction List.range (domain.length + 1) with
  | nil => rfl
  | cons off offs ih =>
    rw [filter_cons, findSome?_cons, ← ih]
    cases atLabel domain off <;> rfl

theorem bestMatch_eq :
    bestMatch arr domain flags = exchange arr (groupRange arr flags [])
    (longestMatch arr domain flags) := by
  unfold bestMatch exchange
  cases longestMatch arr domain flags <;> rfl

end

theorem bestMatch_isSome (h : nonempty r = bestMatch arr domain flags) :
    (bestMatch arr domain flags).all (fun range => arr[range.1]?.any (·.domainLen = 0)) =
      decide (r.1 = r.2 ∨ arr[r.1]?.any (·.domainLen = 0)) := by
  rw [← h, nonempty]
  by_cases hr : r.1 = r.2 <;> simp [hr]

/-- For every configuration without wildcard domains, sorted in any way `qsort` may sort it,
`lookup_domain` returns the range of the linear search. A stale `server_has_wildcard` only
makes it try positions between the labels in vain. -/
theorem lookupDomain_range {servers : List Server}
    (hwild : ∀ s ∈ servers, s.has servWildcard = false) (harr : IsServerArray servers arr)
    (hasWildcard : Bool) (domain : CString) (flags : BitVec 32)
    (hres : ResolvConfigured arr flags) :
    ∃ r, lookupDomain ⟨arr, hasWildcard⟩ domain flags = some r ∧
      r.range = linearSearch arr domain flags := by
  have hs : SortedArray arr := ⟨harr.orderedArray, fun s hs => hwild s (harr.perm.mem_iff.mp hs)⟩
  have hanswer := answers_groupRange (d := ⟨arr, hasWildcard⟩) hs domain flags
  have hend : (if atLabel domain domain.length then groupRange arr flags (domain.drop domain.length)
      else none) = groupRange arr flags [] := by simp [atLabel]
  by_cases hempty : arr.length = 0
  · obtain rfl := length_eq_zero_iff.mp hempty
    refine ⟨⟨false, none⟩, by simp [lookupDomain], ?_⟩
    have : longestMatch [] domain flags = none := by
      rw [longestMatch_eq]
      exact firstMatch_eq_none fun k _ => hanswer.noEntry k fun i => by simp [compareAt]
    simp [LookupResult.range, linearSearch, bestMatch, this]
  have hinv : SearchInv ⟨arr, hasWildcard⟩ domain
      (fun off => if atLabel domain off then groupRange arr flags (domain.drop off)
        else none) 0 0 :=
    ⟨by omega, fun _ => by simp [atLabel], by simp only; omega, fun _ _ _ => .inl rfl,
      fun k hk => by omega⟩
  obtain ⟨r, hr, hbest⟩ := searchSuffixes_eq hs.toOrderedArray hanswer
    (fun s hmem huse => by rw [hend]; exact hres.groupRange_nil hs hmem huse)
    (domain.length + 2) 0 0 (0, 0) hinv rfl (by omega)
  rw [hend, ← longestMatch_eq, ← bestMatch_eq] at hbest
  have hall := bestMatch_isSome hbest
  simp only [lookupDomain, hempty, if_false, hr, linearSearch, hall, decide_eq_true_eq]
  rw [← hbest]
  split_ifs <;> simp [LookupResult.range, nonempty]

theorem resolvConfigured_of_getElem? {i : ℕ} {s : Server} (hi : arr[i]? = some s)
    (hdomain : s.domain = []) (hn : s.has servForNodots = false)
    (hne : (filterServers arr i flags).1 ≠ (filterServers arr i flags).2) :
    ResolvConfigured arr flags := fun _ => ⟨i, s, hi, hdomain, hn, hne⟩

/-- The configuration `server=/lan/#`, `server=8.8.8.8`, `server=//10.0.0.1`. -/
def lanServers : List Server :=
  [{ flags := servUseResolv, domain := [108, 97, 110] },
    { flags := 0, domain := [], serial := 0 },
    { flags := servForNodots, domain := [], serial := 1 }]

theorem lookupDomain_range_lanServers :
    ∃ r, lookupDomain ⟨lanServers, false⟩ [97, 46, 108, 97, 110] fIpv4 = some r ∧
      r.range = linearSearch lanServers [97, 46, 108, 97, 110] fIpv4 :=
  lookupDomain_range (by decide) ⟨.refl lanServers, by decide⟩ false [97, 46, 108, 97, 110] fIpv4
    (resolvConfigured_of_getElem? (i := 1) rfl rfl (by decide) (by decide))

/-- The search with the fallback for dotless names described by the name and its matches
only: no exception for the empty name, and none for a match that was given up for the
servers without a domain. -/
def naiveSearch (arr : List Server) (domain : CString) (flags : BitVec 32) :
    Option (ℕ × ℕ) :=
  if !domain.contains dot ∧ !Mask.test flags fDnssecok ∧
      arr[arr.length - 1]?.any (·.has servForNodots) ∧
      (longestMatch arr domain flags).all (fun range => arr[range.1]?.any (·.domainLen = 0)) then
    nonempty (filterServers arr (arr.length - 1) flags)
  else bestMatch arr domain flags

/-- The empty name is not diverted to the servers for dotless names, and `lan`, which
matches `server=/lan/#`, is. -/
theorem lookupDomain_ne_naiveSearch :
    (∀ s ∈ lanServers, s.has servWildcard = false) ∧ IsServerArray lanServers lanServers ∧
      ResolvConfigured lanServers 0 ∧
      lookupDomain ⟨lanServers, false⟩ [] 0 = some ⟨true, some (1, 2)⟩ ∧
      naiveSearch lanServers [] 0 = some (2, 3) ∧
      lookupDomain ⟨lanServers, false⟩ [108, 97, 110] 0 = some ⟨true, some (2, 3)⟩ ∧
      naiveSearch lanServers [108, 97, 110] 0 = some (1, 2) := by
  refine ⟨by decide, ⟨.refl lanServers, by decide⟩, ?_, by decide, by decide, by decide,
    by decide⟩
  exact resolvConfigured_of_getElem? (i := 1) rfl rfl (by decide) (by decide)

end Dnsmasq.DomainMatch
