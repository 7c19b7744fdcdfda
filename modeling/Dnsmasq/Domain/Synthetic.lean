import Dnsmasq.Pattern.DnsName

/-!
`is_name_synthetic`, which reads an address from a name. For each domain that is tried the name is
edited in place and then put back.
-/
namespace Dnsmasq.Domain

open List

open Pattern (isDigit hyphen)

/-- A `synth-domain` line; `range` is what the addresses are compared with. -/
structure CondDomain (ρ : Type) where
  domain : CString
  pref : Option CString
  indexed : Bool
  range : ρ

/-- `AF_INET` or `AF_INET6`, with the ways to read an address and `match_domain` for it. -/
structure Family (α ρ : Type) where
  v6 : Bool
  indexed : ρ → CString → Option α
  inetPton : CString → Option α
  matchDomain : α → ρ → Bool

def colon : UInt8 := 58

def isHex (c : UInt8) : Bool := (65 ≤ c && c ≤ 70) || (97 ≤ c && c ≤ 102)

/-- The string at a place of the buffer, up to a NUL. -/
def stringAt (buf : CString) (p : ℕ) : CString := (buf.drop p).takeWhile (· ≠ 0)

/-- A loop over the string at `p` that writes every character. -/
def overwrite (f : UInt8 → UInt8) (buf : CString) (p : ℕ) : CString :=
  let s := stringAt buf p
  buf.take p ++ s.map f ++ buf.drop (p + s.length)

/-- The length of the prefix, if the name begins with it. -/
def prefixLength : CString → CString → Option ℕ
  | _, [] => some 0
  | [], _ :: _ => none
  | c :: name, d :: pref => if lower d = lower c then (prefixLength name pref).map (· + 1) else none

/-- `--ffff-` and `::ffff:` -/
def mappedName : CString := [45, 45, 102, 102, 102, 102, 45]

def mappedText : CString := [58, 58, 102, 102, 102, 102, 58]

def hyphenTo (sep c : UInt8) : UInt8 := if c = hyphen then sep else c

/-- The characters from `tail` on become the text of an address. -/
def toText (v6 : Bool) (buf : CString) (tail : ℕ) : CString :=
  if v6 && (stringAt buf tail).take 7 = mappedName then
    overwrite (hyphenTo dot) (buf.take tail ++ mappedText ++ buf.drop (tail + 7)) (tail + 7)
  else overwrite (hyphenTo (if v6 then colon else dot)) buf tail

def toHyphen (c : UInt8) : UInt8 := if c = dot ∨ c = colon then hyphen else c

def restore (buf : CString) (tail : ℕ) : CString :=
  let buf := overwrite toHyphen buf tail
  buf.set (tail + (stringAt buf tail).length) dot

variable {α ρ : Type} (fam : Family α ρ)

def CondDomain.reads (c : CondDomain ρ) (ch : UInt8) : Bool :=
  isDigit ch || (!c.indexed && (ch = hyphen || (fam.v6 && isHex ch)))

/-- One turn of the loop over the domains. -/
def synthesize (c : CondDomain ρ) (name : CString) : CString × Option α :=
  match prefixLength (stringAt name 0) (c.pref.getD []) with
  | none => (name, none)
  | some tail =>
    let p := tail + ((name.drop tail).takeWhile (c.reads fam)).length
    if name[p]? ≠ some dot then (name, none)
    else
      let cut := name.set p 0
      let text := if c.indexed then cut else toText fam.v6 cut tail
      let found :=
        if !hostnameIsequal c.domain (stringAt text (p + 1)) then none
        else if c.indexed then fam.indexed c.range (stringAt text tail)
        else (fam.inetPton (stringAt text tail)).filter (fam.matchDomain · c.range)
      (restore text tail, found)

def isNameSynthetic : List (CondDomain ρ) → CString → CString × Option α
  | [], name => (name, none)
  | c :: domains, name =>
    match synthesize fam c name with
    | (name, some addr) => (name, some addr)
    | (name, none) => isNameSynthetic domains name

variable {fam} {pre s t rest : CString}

theorem stringAt_append (h : 0 ∉ s) : stringAt (pre ++ (s ++ 0 :: rest)) pre.length = s := by
  have hall : ∀ c ∈ s, decide (c ≠ 0) = true := fun c hc => by simpa using ne_of_mem_of_not_mem hc h
  rw [stringAt, drop_left, takeWhile_append_of_pos hall]
  simp

theorem overwrite_append (f : UInt8 → UInt8) (h : 0 ∉ s) :
    overwrite f (pre ++ (s ++ 0 :: rest)) pre.length = pre ++ (s.map f ++ 0 :: rest) := by
  simp [overwrite, stringAt_append h]

theorem restore_append (ht : 0 ∉ t) (h : t.map toHyphen = s) (hs : 0 ∉ s) :
    restore (pre ++ (t ++ 0 :: rest)) pre.length = pre ++ (s ++ dot :: rest) := by
  simp [restore, overwrite_append toHyphen ht, h, stringAt_append hs]

/-- What a name may have where it is read as an address. -/
def Addressable (s : CString) : Prop := ∀ c ∈ s, c ≠ 0 ∧ c ≠ dot ∧ c ≠ colon

theorem Addressable.zero_notMem (h : Addressable s) : 0 ∉ s := fun h0 => (h 0 h0).1 rfl

theorem Addressable.map_toHyphen (h : Addressable s) : s.map toHyphen = s := by
  conv_rhs => rw [← map_id s]
  exact map_congr_left fun c hc => if_neg (not_or.mpr (h c hc).2)

theorem Addressable.hyphenTo (h : Addressable s) {sep : UInt8} (hsep : sep = dot ∨ sep = colon) :
    0 ∉ s.map (hyphenTo sep) ∧ (s.map (hyphenTo sep)).map toHyphen = s := by
  have hsep' : sep ≠ 0 ∧ toHyphen sep = hyphen := by rcases hsep with rfl | rfl <;> decide
  induction s with
  | nil => simp
  | cons c s ih =>
    obtain ⟨⟨h0, hdot, hcolon⟩, hs⟩ := forall_mem_cons.mp h
    obtain ⟨h1, h2⟩ := ih hs
    by_cases hc : c = hyphen
    · simp [Domain.hyphenTo, hc, h1, h2, hsep'.1.symm, hsep'.2]
    · simp [Domain.hyphenTo, hc, h1, h2, Ne.symm h0, toHyphen, hdot, hcolon]

theorem toText_append (pre rest : CString) (v6 : Bool) (h : Addressable s) :
    ∃ t, 0 ∉ t ∧ t.map toHyphen = s ∧ toText v6 (pre ++ (s ++ 0 :: rest)) pre.length =
      pre ++ (t ++ 0 :: rest) := by
  unfold toText
  rw [stringAt_append h.zero_notMem]
  by_cases hm : (v6 && s.take 7 = mappedName) = true
  · rw [if_pos hm]
    simp only [Bool.and_eq_true, decide_eq_true_eq] at hm
    obtain ⟨u, rfl⟩ : ∃ u, s = mappedName ++ u := ⟨s.drop 7, by rw [← hm.2, take_append_drop]⟩
    have hu : Addressable u := fun c hc => h c (mem_append_right _ hc)
    obtain ⟨h1, h2⟩ := hu.hyphenTo (.inl rfl)
    have hbuf : (pre ++ (mappedName ++ u ++ 0 :: rest)).take pre.length ++ mappedText ++
        (pre ++ (mappedName ++ u ++ 0 :: rest)).drop (pre.length + 7) =
        (pre ++ mappedText) ++ (u ++ 0 :: rest) := by
      simp [mappedName]
    have hlen : pre.length + 7 = (pre ++ mappedText).length := by simp [mappedText]
    refine ⟨mappedText ++ u.map (hyphenTo dot), ?_, ?_, ?_⟩
    · rw [mem_append, not_or]
      exact ⟨by decide, h1⟩
    · rw [map_append, h2]
      rfl
    · rw [hbuf, hlen, overwrite_append _ hu.zero_notMem, append_assoc, append_assoc]
  · have hsep : (if v6 then colon else dot) = dot ∨ (if v6 then colon else dot) = colon := by
      cases v6
      · exact .inl rfl
      · exact .inr rfl
    obtain ⟨h1, h2⟩ := h.hyphenTo hsep
    rw [if_neg hm]
    exact ⟨_, h1, h2, overwrite_append _ h.zero_notMem⟩

theorem addressable_reads (c : CondDomain ρ) (l : CString) :
    Addressable (l.takeWhile (c.reads fam)) := by
  have hnot : c.reads fam 0 = false ∧ c.reads fam dot = false ∧ c.reads fam colon = false := by
    unfold CondDomain.reads
    cases c.indexed <;> cases fam.v6 <;> decide
  intro ch hch
  have hreads := all_eq_true.mp all_takeWhile ch hch
  refine ⟨?_, ?_, ?_⟩ <;> rintro rfl <;> simp [hnot] at hreads

theorem synthesize_name (fam : Family α ρ) (c : CondDomain ρ) (name : CString) :
    (synthesize fam c name).1 = name := by
  unfold synthesize
  split
  · rfl
  rename_i tail _
  have hs : Addressable ((name.drop tail).takeWhile (c.reads fam)) := addressable_reads c _
  have hname := takeWhile_append_dropWhile (p := c.reads fam) (l := name.drop tail)
  generalize (name.drop tail).takeWhile (c.reads fam) = s at hs hname ⊢
  generalize (name.drop tail).dropWhile (c.reads fam) = r at hname
  by_cases hdot : name[tail + s.length]? = some dot
  · have hlen : tail ≤ name.length := by
      have := (List.getElem?_eq_some_iff.mp hdot).1
      omega
    obtain ⟨pre, rfl, rfl⟩ : ∃ pre, pre ++ (s ++ r) = name ∧ pre.length = tail :=
      ⟨name.take tail, by rw [hname, take_append_drop], length_take_of_le hlen⟩
    obtain ⟨rest, rfl⟩ : ∃ rest, r = dot :: rest := by
      cases r with
      | nil => simp at hdot
      | cons a rest => exact ⟨rest, by simpa using hdot⟩
    have hcut : (pre ++ (s ++ dot :: rest)).set (pre.length + s.length) 0 =
        pre ++ (s ++ 0 :: rest) := by simp
    simp only [hdot, ne_eq, not_true_eq_false, if_false, hcut]
    split_ifs
    · exact restore_append hs.zero_notMem hs.map_toHyphen hs.zero_notMem
    · obtain ⟨t, h0, ht, htext⟩ := toText_append pre rest fam.v6 hs
      rw [htext]
      exact restore_append h0 ht hs.zero_notMem
  · simp [hdot]

/-- Whether an address is found or not, the name is what it was. -/
theorem isNameSynthetic_name (fam : Family α ρ) (domains : List (CondDomain ρ)) (name : CString) :
    (isNameSynthetic fam domains name).1 = name := by
  induction domains with
  | nil => rfl
  | cons c domains ih =>
    have hname := synthesize_name fam c name
    rw [isNameSynthetic]
    split
    · rwa [‹synthesize fam c name = _›] at hname
    · rw [‹synthesize fam c name = _›] at hname
      exact hname ▸ ih

end Dnsmasq.Domain
