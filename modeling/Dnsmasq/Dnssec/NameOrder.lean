import Dnsmasq.Dns.Compare

/-!
`hostname_cmp`, and how far it is the canonical order of RFC 4034. The names it is given hold
escapes, and an escaped dot begins with a byte that sorts before all others.
-/
namespace Dnsmasq.Dns

open List ThreeWay

/-- `while (sa != a && *(sa-1) != '.') sa--;` -/
def labelStart (a : CString) : ℕ → ℕ
  | 0 => 0
  | sa + 1 => if a[sa]? = some dot then sa + 1 else labelStart a sa

/-- The inner loop, with `ca` and `cb` on their way to `ea` and `eb`. The result is the value that
is returned, or nothing when the two labels are the same. -/
def scanLabel (a b : CString) (ea eb : ℕ) : ℕ → ℕ → ℕ → Option (Option ℤ)
  | 0, _, _ => none
  | fuel + 1, ca, cb =>
    if ca = ea then
      if cb = eb then some none else some (some (-1))
    else if cb = eb then some (some 1)
    else
      let ac := lower (a.getD ca 0)
      let bc := lower (b.getD cb 0)
      if ac < bc then some (some (-1))
      else if ac ≠ bc then some (some 1)
      else scanLabel a b ea eb fuel (ca + 1) (cb + 1)

def scanNames (a b : CString) : ℕ → ℕ → ℕ → Option ℤ
  | 0, _, _ => none
  | fuel + 1, ea, eb =>
    let sa := labelStart a ea
    let sb := labelStart b eb
    (scanLabel a b ea eb (ea + 1) sa sb).bind fun
      | some c => some c
      | none =>
        if sa = 0 then
          if sb = 0 then some 0 else some (-1)
        else if sb = 0 then some 1
        else scanNames a b fuel (sa - 1) (sb - 1)

def hostnameCmpScan (a b : CString) : Option ℤ := scanNames a b (a.length + 1) a.length b.length

section Scan

variable {a b : CString} {ea eb : ℕ}

section

variable (a : CString) (ea : ℕ)

theorem labelStart_le : labelStart a ea ≤ ea := by
  induction ea with
  | zero => exact Nat.le_refl 0
  | succ ea ih =>
    rw [labelStart]
    split_ifs
    · exact Nat.le_refl _
    · omega

theorem dot_notMem_label : dot ∉ (a.take ea).drop (labelStart a ea) := by
  induction ea with
  | zero => simp
  | succ ea ih =>
    rw [labelStart]
    split_ifs with hdot
    · simp
    rw [take_add_one, drop_append, mem_append, not_or]
    refine ⟨ih, fun hmem => hdot ?_⟩
    have hlast := mem_of_mem_drop hmem
    rw [Option.mem_toList] at hlast
    exact hlast

theorem labelStart_eq_zero_or :
    labelStart a ea = 0 ∨ 0 < labelStart a ea ∧ a[labelStart a ea - 1]? = some dot := by
  induction ea with
  | zero => exact .inl rfl
  | succ ea ih =>
    rw [labelStart]
    split_ifs with hdot
    · exact .inr ⟨Nat.succ_pos ea, hdot⟩
    · exact ih

/-- The labels of the text before `ea`, from the last one on. -/
def labelsBefore : List CString := ((a.take ea).splitOn dot).reverse

theorem labelsBefore_ne_nil : labelsBefore a ea ≠ [] := by
  unfold labelsBefore
  rw [ne_eq, reverse_eq_nil_iff]
  exact splitOnP_ne_nil _ _

theorem labelsBefore_eq : labelsBefore a ea = (a.take ea).drop (labelStart a ea) ::
      if labelStart a ea = 0 then [] else labelsBefore a (labelStart a ea - 1) := by
  have hlabel := dot_notMem_label a ea
  have hsingle {s : CString} (h : dot ∉ s) : s.splitOn dot = [s] := by
    have hnodot : ∀ l ∈ [s], dot ∉ l := by simpa using h
    have hsplit := splitOn_intercalate dot hnodot (cons_ne_nil _ _)
    simpa using hsplit
  rcases labelStart_eq_zero_or a ea with hzero | ⟨hpos, hdot⟩
  · rw [if_pos hzero, labelsBefore]
    rw [hzero, drop_zero] at hlabel ⊢
    rw [hsingle hlabel, reverse_singleton]
  have hle := labelStart_le a ea
  have hlt : labelStart a ea - 1 < ea := by omega
  have hcut : a.take ea = a.take (labelStart a ea - 1) ++ dot ::
      (a.take ea).drop (labelStart a ea) := by
    have hget : (a.take ea)[labelStart a ea - 1]? = some dot := by
      rw [getElem?_take_of_lt hlt, hdot]
    obtain ⟨hin, heq⟩ := List.getElem?_eq_some_iff.mp hget
    have hsplit := (take_append_drop (labelStart a ea - 1) (a.take ea)).symm
    rw [drop_eq_getElem_cons hin, heq, take_take, Nat.min_eq_left (by omega),
      Nat.sub_add_cancel hpos] at hsplit
    exact hsplit
  rw [if_neg (by omega), labelsBefore]
  have hsplit : (a.take ea).splitOn dot =
      (a.take (labelStart a ea - 1)).splitOn dot ++
      ((a.take ea).drop (labelStart a ea)).splitOn dot := by
    conv_lhs => rw [hcut]
    exact splitOnP_append_cons _ _ (beq_self_eq_true dot)
  rw [hsplit, hsingle hlabel, reverse_append]
  rfl

end

theorem scanLabel_eq {u v : CString} {fuel ca cb : ℕ} (hea : ea ≤ a.length) (heb : eb ≤ b.length)
    (hca : ca ≤ ea) (hcb : cb ≤ eb) (hu : (a.take ea).drop ca = u) (hv : (b.take eb).drop cb = v)
    (hfuel : u.length < fuel) :
    scanLabel a b ea eb fuel ca cb = some (if hostnameOrder u v = 0 then none
      else some (hostnameOrder u v)) := by
  have hend {s w : CString} {e c : ℕ} (he : e ≤ s.length) (hc : c ≤ e) (hw : (s.take e).drop c =
      w) : w.length = e - c := by
    rw [← hw, length_drop, length_take]
    omega
  have hstep {s w : CString} {e c : ℕ} {x : UInt8} (hw : (s.take e).drop c = x :: w) :
      s.getD c 0 = x ∧ (s.take e).drop (c + 1) = w := by
    have hget : (s.take e)[c]? = some x := by
      have h0 := congrArg (·[0]?) hw
      simpa using h0
    refine ⟨?_, ?_⟩
    · rw [getElem?_take] at hget
      split_ifs at hget
      rw [getD_eq_getElem?_getD, hget]
      rfl
    · rw [← drop_drop, hw]
      rfl
  have hlu := hend hea hca hu
  have hlv := hend heb hcb hv
  induction u generalizing v fuel ca cb with
  | nil =>
    obtain ⟨fuel, rfl⟩ := Nat.exists_eq_succ_of_ne_zero (Nat.ne_of_gt hfuel)
    rw [length_nil] at hlu
    rw [scanLabel, if_pos (by omega)]
    cases v with
    | nil =>
      rw [length_nil] at hlv
      rw [if_pos (by omega)]
      rfl
    | cons y v =>
      rw [length_cons] at hlv
      rw [if_neg (by omega)]
      rfl
  | cons x u ih =>
    obtain ⟨fuel, rfl⟩ := Nat.exists_eq_succ_of_ne_zero (Nat.ne_of_gt (Nat.zero_lt_of_lt hfuel))
    rw [length_cons] at hlu hfuel
    rw [scanLabel, if_neg (by omega)]
    cases v with
    | nil =>
      rw [length_nil] at hlv
      rw [if_pos (by omega)]
      rfl
    | cons y v =>
      rw [length_cons] at hlv
      rw [if_neg (by omega)]
      obtain ⟨hx, hu'⟩ := hstep hu
      obtain ⟨hy, hv'⟩ := hstep hv
      rw [hx, hy]
      rw [hostnameOrder]
      by_cases hlt : lower x < lower y
      · rw [if_pos hlt, if_pos (UInt8.lt_iff_toNat_lt.mp hlt)]
        rfl
      rw [if_neg hlt, if_neg (mt UInt8.lt_iff_toNat_lt.mpr hlt)]
      by_cases hne : lower x ≠ lower y
      · have hgt : (lower y).toNat < (lower x).toNat := by
          have h1 := mt UInt8.lt_iff_toNat_lt.mpr hlt
          have h2 : (lower x).toNat ≠ (lower y).toNat := fun h => hne (UInt8.toNat_inj.mp h)
          omega
        rw [if_pos hne, if_pos hgt]
        rfl
      have heq := not_not.mp hne
      have hnot : ¬ (lower y).toNat < (lower x).toNat := by
        rw [heq]
        exact Nat.lt_irrefl _
      rw [if_neg hne, if_neg hnot]
      exact ih (by omega) (by omega) hu' hv' (by omega) (by omega) (by omega)

theorem cmpLabels_cons (la lb : CString) (as bs : List CString) :
    cmpLabels (la :: as) (lb :: bs) = if hostnameOrder la lb ≠ 0 then hostnameOrder la lb
    else cmpLabels as bs := by
  cases as <;> cases bs <;> simp [cmpLabels]

theorem scanNames_eq {fuel : ℕ} (hea : ea ≤ a.length) (heb : eb ≤ b.length) (hfuel : ea < fuel) :
    scanNames a b fuel ea eb = some (cmpLabels (labelsBefore a ea) (labelsBefore b eb)) := by
  induction fuel generalizing ea eb with
  | zero => omega
  | succ fuel ih =>
    have hsa := labelStart_le a ea
    have hsb := labelStart_le b eb
    have hlength : ((a.take ea).drop (labelStart a ea)).length < ea + 1 := by
      rw [length_drop, length_take]
      omega
    rw [scanNames]
    rw [scanLabel_eq hea heb hsa hsb rfl rfl hlength, labelsBefore_eq a ea, labelsBefore_eq b eb,
      cmpLabels_cons, Option.bind_some]
    by_cases hsame : hostnameOrder ((a.take ea).drop (labelStart a ea))
      ((b.take eb).drop (labelStart b eb)) = 0
    · rw [if_pos hsame, if_neg (not_not.mpr hsame)]
      by_cases ha : labelStart a ea = 0
      · rw [if_pos ha, if_pos ha]
        by_cases hb : labelStart b eb = 0
        · rw [if_pos hb, if_pos hb]
          rfl
        rw [if_neg hb, if_neg hb]
        obtain ⟨l, ls, hls⟩ := exists_cons_of_ne_nil (labelsBefore_ne_nil b (labelStart b eb - 1))
        rw [hls]
        rfl
      rw [if_neg ha, if_neg ha]
      by_cases hb : labelStart b eb = 0
      · rw [if_pos hb, if_pos hb]
        obtain ⟨l, ls, hls⟩ := exists_cons_of_ne_nil (labelsBefore_ne_nil a (labelStart a ea - 1))
        rw [hls]
        rfl
      · rw [if_neg hb, if_neg hb]
        exact ih (by omega) (by omega) (by omega)
    · rw [if_neg hsame, if_pos hsame]

theorem hostnameCmpScan_eq (a b : CString) : hostnameCmpScan a b = some (hostnameCmp a b) := by
  have h := scanNames_eq (a := a) (b := b) (Nat.le_refl _) (Nat.le_refl _)
    (Nat.lt_succ_self a.length)
  rw [labelsBefore, labelsBefore, take_length, take_length] at h
  exact h

end Scan

def dotClash (c d : ℕ) : Bool := (c == 46 && 2 ≤ d && d < 46) || (d == 46 && 2 ≤ c && c < 46)

def labelClash : List ℕ → List ℕ → Bool
  | c :: u, d :: v => if c = d then labelClash u v else dotClash c d
  | _, _ => false

def nameClash : List (List ℕ) → List (List ℕ) → Bool
  | u :: x, v :: y => if u = v then nameClash x y else labelClash u v
  | _, _ => false

/-- The order of `x` and `y`, exchanged if they clash. -/
def Exchanged {α : Type} [LT α] (clash : Bool) (x y : α) : Prop := if clash then y < x else x < y

theorem exchanged_cons {α : Type} [LinearOrder α] {clash : Bool} {c : α} {x y : List α} :
    Exchanged clash (c :: x) (c :: y) ↔ Exchanged clash x y := by
  cases clash <;> simp [Exchanged]

theorem escapeNat_append_lt (c : ℕ) (x y : List ℕ) :
    escapeNat c ++ x < escapeNat c ++ y ↔ x < y := by
  unfold escapeNat
  split_ifs <;> simp

theorem escapeNat_append_lt_of_ne {c d : ℕ} (hne : c ≠ d) (x y u v : List ℕ) :
    escapeNat c ++ x < escapeNat d ++ y ↔ Exchanged (dotClash c d) (c :: u) (d :: v) := by
  have hclash : dotClash c d = true ↔ c = 46 ∧ 2 ≤ d ∧ d < 46 ∨ d = 46 ∧ 2 ≤ c ∧ c < 46 := by
    simp [dotClash, and_assoc]
  unfold Exchanged escapeNat
  by_cases h : dotClash c d = true
  · split_ifs <;> simp only [cons_append, nil_append, cons_lt_cons_iff] <;> grind
  · split_ifs <;> simp only [cons_append, nil_append, cons_lt_cons_iff] <;> grind

theorem flatMap_escapeNat_lt_iff (x y : List ℕ) :
    x.flatMap escapeNat < y.flatMap escapeNat ↔ Exchanged (labelClash x y) x y := by
  have hne (c : ℕ) (x : List ℕ) : [] < escapeNat c ++ x := by
    unfold escapeNat
    split_ifs <;> simp
  induction x generalizing y with
  | nil =>
    cases y with
    | nil => simp [labelClash, Exchanged]
    | cons d y => simp [labelClash, Exchanged, hne]
  | cons c x ih =>
    cases y with
    | nil => simp [labelClash, Exchanged]
    | cons d y =>
      rw [flatMap_cons, flatMap_cons, labelClash]
      by_cases hcd : c = d
      · subst hcd
        rw [if_pos rfl, escapeNat_append_lt, exchanged_cons]
        exact ih y
      · rw [if_neg hcd]
        exact escapeNat_append_lt_of_ne hcd _ _ x y

theorem map_escapeNat_lt_iff (x y : List (List ℕ)) :
    (x.map fun l => l.flatMap escapeNat) < (y.map fun l => l.flatMap escapeNat) ↔
    Exchanged (nameClash x y) x y := by
  induction x generalizing y with
  | nil => cases y <;> simp [nameClash, Exchanged]
  | cons u x ih =>
    cases y with
    | nil => simp [nameClash, Exchanged]
    | cons v y =>
      rw [map_cons, map_cons, nameClash]
      by_cases huv : u = v
      · subst huv
        rw [if_pos rfl, exchanged_cons, ← ih]
        simp
      have hflat : u.flatMap escapeNat ≠ v.flatMap escapeNat :=
        fun h => huv (flatMap_escapeNat_inj.mp h)
      rw [cons_lt_cons_iff, flatMap_escapeNat_lt_iff]
      unfold Exchanged
      cases labelClash u v <;> simp [cons_lt_cons_iff, hflat, huv, Ne.symm huv]

theorem textKey_exchanged {a b : Name} (ha : WellFormed a) (hb : WellFormed b) :
    textKey a < textKey b ↔ Exchanged (nameClash (canonicalKey a) (canonicalKey b)) (canonicalKey a)
    (canonicalKey b) := by
  by_cases ha' : a = []
  · subst ha'
    by_cases hb' : b = []
    · subst hb'
      simp [Exchanged, canonicalKey]
    have hlt := root_textKey_lt hb' hb
    exact iff_of_true hlt.1 hlt.2
  by_cases hb' : b = []
  · subst hb'
    have hlt := root_textKey_lt ha' ha
    have hclash : nameClash (canonicalKey a) (canonicalKey []) = false := by
      cases canonicalKey a <;> simp [canonicalKey, nameClash]
    rw [hclash]
    exact iff_of_false hlt.1.not_gt hlt.2.not_gt
  · rw [textKey_eq ha', textKey_eq hb', map_escapeNat_lt_iff]

theorem nameClash_self (x : List (List ℕ)) : nameClash x x = false := by
  induction x with
  | nil => rfl
  | cons u x ih => rw [nameClash, if_pos rfl, ih]

theorem hostnameCmp_reports_iff {a b : Name} (ha : WellFormed a) (hb : WellFormed b) :
    Reports (hostnameCmp (present a) (present b)) (canonicalKey a) (canonicalKey b) ↔
      nameClash (canonicalKey a) (canonicalKey b) = false := by
  have htext := hostnameCmp_reports a b
  have horder := textKey_exchanged ha hb
  cases hclash : nameClash (canonicalKey a) (canonicalKey b) with
  | false =>
    rw [hclash] at horder
    exact iff_of_true (htext.congr horder.symm (textKey_eq_iff ha hb).symm) rfl
  | true =>
    rw [hclash] at horder
    refine iff_of_false (fun h => ?_) (by simp)
    -- the names differ, and what the scan says is the other way round
    have hne : canonicalKey a ≠ canonicalKey b := fun heq => by
      rw [heq, nameClash_self] at hclash
      cases hclash
    rcases lt_or_gt_of_ne hne with hlt | hgt
    · exact absurd (horder.mp (htext.1.mp (h.1.mpr hlt))) hlt.not_gt
    · exact absurd (h.1.mp (htext.1.mpr (horder.mpr hgt))) hgt.not_gt

/-- The text of a name that was read from a message with the escapes in use. -/
def Extracted (n : Name) (s : CString) : Prop :=
  ∃ (pkt : Packet) (p extrabytes q : ℕ), pkt.extractText true p extrabytes = some (s, q) ∧
    pkt.Labels p n

theorem Packet.Labels.unique {pkt : Packet} {p : ℕ} {n n' : Name} (h : pkt.Labels p n)
    (h' : pkt.Labels p n') : n = n' := by
  induction h generalizing n' with
  | root hzero =>
    cases h' with
    | root => rfl
    | label hpos => exact absurd hzero hpos
    | pointer hge => omega
  | label hpos hlt h ih =>
    cases h' with
    | root hzero => exact absurd hzero hpos
    | label _ _ h' => rw [ih h']
    | pointer hge => omega
  | pointer hge h ih =>
    cases h' with
    | root hzero => omega
    | label _ hlt => omega
    | pointer _ h' => exact ih h'

theorem Extracted.text {n : Name} {s : CString} (h : Extracted n s) :
    Storable true n ∧ s = present n := by
  obtain ⟨pkt, p, extrabytes, q, htext, hlabels⟩ := h
  obtain ⟨n', hlabels', hn', hs, -⟩ := Packet.textLoop_sound (by decide) htext
  obtain rfl := hlabels.unique hlabels'
  refine ⟨hn', ?_⟩
  rw [hs, nil_append, dropLast_dotted_eq]
  rfl

theorem canonicalKey_eq_iff (a b : Name) : canonicalKey a = canonicalKey b ↔ SameFold a b := by
  have hlow : Function.Injective fun l : CString => l.map UInt8.toNat :=
    map_injective_iff.mpr fun _ _ => UInt8.toNat_inj.mp
  have hkey (n : Name) : canonicalKey n =
      ((n.map foldCase).map fun l => l.map UInt8.toNat).reverse := by
    simp [canonicalKey, foldCase, Function.comp_def]
  rw [hkey, hkey, reverse_inj, (map_injective_iff.mpr hlow).eq_iff]
  rfl

/-- On names that were read, the scan ends and is a strict total order up to the case of letters.
Its sign is that of the canonical order exactly if the first bytes in which the names differ, from
the last label on, are not a dot and a byte from 2 to 45. -/
theorem hostnameCmpScan_canonical_iff
    {a b c : Name} {s t u : CString} (hs : Extracted a s) (ht : Extracted b t)
    (hu : Extracted c u) : hostnameCmpScan s t = some (hostnameCmp s t) ∧
      (hostnameCmp s t = 0 ↔ foldCase s = foldCase t) ∧
      (hostnameCmp s t < 0 ↔ 0 < hostnameCmp t s) ∧
      (hostnameCmp s t < 0 → hostnameCmp t u < 0 → hostnameCmp s u < 0) ∧
      (Reports (hostnameCmp s t) (canonicalKey a) (canonicalKey b) ↔
        nameClash (canonicalKey a) (canonicalKey b) = false) := by
  obtain ⟨ha, rfl⟩ := hs.text
  obtain ⟨hb, rfl⟩ := ht.text
  obtain ⟨-, rfl⟩ := hu.text
  have hab := hostnameCmp_reports a b
  have hba := hostnameCmp_reports b a
  have hbc := hostnameCmp_reports b c
  have hac := hostnameCmp_reports a c
  refine ⟨hostnameCmpScan_eq _ _, ?_, ?_, ?_, hostnameCmp_reports_iff ha.nonempty hb.nonempty⟩
  · have hfold := foldCase_text_eq_iff ha hb
    rw [dropLast_dotted_eq, dropLast_dotted_eq] at hfold
    rw [hostnameCmp_eq_zero ha.nonempty hb.nonempty, canonicalKey_eq_iff, ← hfold]
    rfl
  · rw [hab.1, hba.pos]
  · intro h1 h2
    exact hac.1.mpr ((hab.1.mp h1).trans (hbc.1.mp h2))

def oneLabel (l : Label) : Packet := Packet.ofBytes (UInt8.ofNat l.length :: l ++ [0])

theorem extracted_letter {c : UInt8} (h : c ∈ [97, 98, 99]) : Extracted [[c]] [c] := by
  simp only [mem_cons, not_mem_nil, or_false] at h
  obtain rfl | rfl | rfl := h <;>
    exact ⟨oneLabel [_], 0, 0, 3, by decide, .label (by decide) (by decide) (.root (by decide))⟩

theorem hostnameCmpScan_canonical_letters : hostnameCmp [97] [99] < 0 ∧
    Reports (hostnameCmp [97] [98]) (canonicalKey [[97]]) (canonicalKey [[98]]) := by
  obtain ⟨-, -, -, htrans, hreports⟩ := hostnameCmpScan_canonical_iff
    (@extracted_letter 97 (by decide)) (@extracted_letter 98 (by decide))
    (@extracted_letter 99 (by decide))
  exact ⟨htrans (by decide) (by decide), hreports.mpr (by decide)⟩

/-- The label `a.b` sorts behind `a-b`, but is found before it. -/
theorem hostnameCmpScan_dot :
    Extracted [[97, 46, 98]] [97, 1, 47, 98] ∧ Extracted [[97, 45, 98]] [97, 45, 98] ∧
      hostnameCmpScan [97, 1, 47, 98] [97, 45, 98] = some (-1) ∧
      canonicalKey [[97, 45, 98]] < canonicalKey [[97, 46, 98]] := by
  refine ⟨⟨oneLabel [97, 46, 98], 0, 0, 5, by decide, ?_⟩,
    ⟨oneLabel [97, 45, 98], 0, 0, 5, by decide, ?_⟩, by decide, by decide⟩
  · exact .label (by decide) (by decide) (.root (by decide))
  · exact .label (by decide) (by decide) (.root (by decide))

end Dnsmasq.Dns
