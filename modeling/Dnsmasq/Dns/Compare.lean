import Dnsmasq.Dns.RoundTrip

/-!
`extract_name` in comparison mode. The match does not tell a dot between two labels of the string
from a dot inside a label of the name.
-/
namespace Dnsmasq.Dns

set_option maxRecDepth 20000

open List

section Matcher

variable (dnssecValid : Bool) (str : ℕ → UInt8)

section

variable (s : ℕ × Bool)

/-- One byte of a label. The state is the position in the string and whether all has matched. -/
def matchByte (c2 : UInt8) : ℕ × Bool :=
  if str s.1 = 0 then (s.1, false)
  else
    let c1 := lower (str s.1)
    let esc := dnssecValid && c1 == nameEscape
    let c1 := if esc then str (s.1 + 1) - 1 else c1
    (if esc then s.1 + 2 else s.1 + 1, s.2 && c1 == lower c2)

def matchDot : ℕ × Bool := if str s.1 = 0 then s else (s.1 + 1, s.2 && str s.1 == dot)

def matchLabel (l : Label) : ℕ × Bool := matchDot str (l.foldl (matchByte dnssecValid str) s)

def matchEnd : Bool := s.2 && str s.1 == 0

end

/-- The loop of `extract_name` with `isExtract` 0. -/
def Packet.compareLoop (pkt : Packet) (extrabytes : ℕ) : ℕ → ℕ → Option ℕ → ℕ → ℕ → ℕ × Bool →
    Option (Bool × ℕ)
  | 0, _, _, _, _, _ => none
  | fuel + 1, p, p1, namelen, hops, s =>
    if !pkt.checkLen p 1 then none
    else
      let l := pkt.get p
      let p := p + 1
      if l = 0 then
        if !pkt.checkLen (p1.getD p) extrabytes then none
        else some (matchEnd str s, p1.getD p)
      else if l &&& 0xc0 = 0xc0 then
        if !pkt.checkLen p 1 then none
        else if 255 < hops + 1 then none
        else
          pkt.compareLoop extrabytes fuel ((l &&& 0x3f) * 256 + pkt.get p) (p1.getD (p + 1))
            namelen (hops + 1) s
      else if l &&& 0xc0 = 0 then
        if maxdname ≤ namelen + l + 1 then none
        else if !pkt.checkLen p l then none
        else
          pkt.compareLoop extrabytes fuel (p + l) p1 (namelen + l + 1)
            hops (matchLabel dnssecValid str s (pkt.bytes p l))
      else none

/-- Whether the name at `p` is the string, and the position behind the name; `none` is a return of
0. -/
def Packet.compareName (pkt : Packet) (p extrabytes : ℕ) : Option (Bool × ℕ) :=
  pkt.compareLoop dnssecValid str extrabytes (256 + maxdname) p none 0 0 (0, true)

end Matcher

/-- The memory holds the string from `cp` on, and its terminator. -/
def Stored (str : ℕ → UInt8) : ℕ → CString → Prop
  | cp, [] => str cp = 0
  | cp, c :: s => str cp = c ∧ Stored str (cp + 1) s

/-- A name that lies inside the message, with the position behind it and the pointers followed. -/
inductive Packet.NameAt (pkt : Packet) : ℕ → Name → ℕ → ℕ → Prop
  | root {p : ℕ} (hin : pkt.checkLen p 1 = true) (hlen : pkt.get p = 0) : pkt.NameAt p [] (p + 1) 0
  | label {p stop hops : ℕ} {n : Name} (hin : pkt.checkLen p 1 = true) (hpos : pkt.get p ≠ 0)
      (hlen : pkt.get p < 64)
      (hbytes : pkt.checkLen (p + 1) (pkt.get p) = true)
      (h : pkt.NameAt (p + 1 + pkt.get p) n stop hops) :
      pkt.NameAt p (pkt.bytes (p + 1) (pkt.get p) :: n) stop hops
  | pointer {p stop hops : ℕ} {n : Name} (hin : pkt.checkLen p 2 = true) (hlen : 192 ≤ pkt.get p)
      (h : pkt.NameAt ((pkt.get p - 192) * 256 + pkt.get (p + 1)) n stop hops) :
      pkt.NameAt p n (p + 2) (hops + 1)

/-- A name within the limits on its length and its pointers, with room behind it. -/
structure Packet.ValidName (pkt : Packet) (p extrabytes : ℕ) (n : Name) (stop : ℕ) : Prop where
  inside : ∃ hops ≤ 255, pkt.NameAt p n stop hops
  short : (wire n).length < maxdname
  room : pkt.checkLen stop extrabytes = true

/-- The rest of a label and of the name, against the rest of a label and of the name of the string.
A dot in the label may stand against the end of a label. -/
def aligned : Label → Name → Label → Name → Bool
  | [], [], [], [] => true
  | [], l :: n, [], m :: n' => aligned l n m n'
  | c :: l, n, c' :: m, n' => lower c == lower c' && aligned l n m n'
  | c :: l, n, [], m :: n' => c == dot && aligned l n m n'
  | _, _, _, _ => false
  termination_by l n => l.length + (n.map fun l => l.length + 1).sum

def alignedNames : Name → Name → Bool
  | [], [] => true
  | l :: n, m :: n' => aligned l n m n'
  | _, _ => false

theorem dotted_append (dnssecValid : Bool) (n n' : Name) :
    dotted dnssecValid (n ++ n') = dotted dnssecValid n ++ dotted dnssecValid n' := flatMap_append

namespace Packet

variable {pkt : Packet} {dnssecValid : Bool} {str : ℕ → UInt8} {extrabytes : ℕ}

variable {fuel p namelen hops q stop k : ℕ} {p1 : Option ℕ} {name name' n : Name} {t : CString}

theorem compareLoop_eq (name : Name) {s : ℕ × Bool} :
    pkt.compareLoop dnssecValid str extrabytes fuel p p1 namelen hops
    (name.foldl (matchLabel dnssecValid str) s) =
      (pkt.extractLoop extrabytes fuel p p1 namelen hops name).map fun r =>
        (matchEnd str (r.1.foldl (matchLabel dnssecValid str) s), r.2) := by
  induction fuel generalizing p namelen hops p1 name with
  | zero => rfl
  | succ fuel ih =>
    rw [compareLoop, extractLoop]
    dsimp only
    split_ifs
    · rfl
    · rfl
    · rfl
    · rfl
    · rfl
    · exact ih name
    · rfl
    · rfl
    · rw [← ih, foldl_append]
      rfl
    · rfl

theorem compareName_eq : pkt.compareName dnssecValid str p extrabytes =
      (pkt.extractName p extrabytes).map fun r =>
      (matchEnd str (r.1.foldl (matchLabel dnssecValid str) (0, true)), r.2) :=
  compareLoop_eq []

theorem prefix_of_extractLoop (h : pkt.extractLoop extrabytes fuel p p1 namelen hops name =
    some (name', q)) : name <+: name' := by
  induction fuel generalizing p namelen hops p1 name with
  | zero => cases h
  | succ fuel ih =>
    rw [extractLoop] at h
    dsimp only at h
    split_ifs at h
    · cases h
      exact prefix_rfl
    · exact ih h
    · exact (prefix_append _ _).trans (ih h)

theorem textLoop_eq_some_iff (hname : ∀ l ∈ name, HasText dnssecValid l) :
    pkt.textLoop dnssecValid extrabytes fuel p p1 namelen hops (dotted dnssecValid name) =
    some (t, q) ↔
      ∃ n, pkt.extractLoop extrabytes fuel p p1 namelen hops name = some (n, q) ∧
        (∀ l ∈ n, HasText dnssecValid l) ∧ t = (dotted dnssecValid n).dropLast := by
  induction fuel generalizing p namelen hops p1 name with
  | zero => simp [textLoop, extractLoop]
  | succ fuel ih =>
    rw [textLoop, extractLoop]
    dsimp only
    split_ifs
    · simp
    · simp
    · constructor
      · intro h
        cases h
        exact ⟨name, rfl, hname, rfl⟩
      · rintro ⟨n, h, -, rfl⟩
        cases h
        rfl
    · simp
    · simp
    · exact ih hname
    · simp
    · simp
    · cases htext : labelText dnssecValid (pkt.bytes (p + 1) (pkt.get p)) with
      | none =>
        simp only [reduceCtorEq, false_iff, not_exists, not_and]
        intro n h htexts
        have hmem := (prefix_of_extractLoop h).subset (mem_append_right _ (mem_singleton_self _))
        rw [labelText_eq_some.mpr ⟨htexts _ hmem, rfl⟩] at htext
        cases htext
      | some s =>
        obtain ⟨hl, rfl⟩ := labelText_eq_some.mp htext
        have hnames : ∀ l ∈ name ++ [pkt.bytes (p + 1) (pkt.get p)], HasText dnssecValid l := by
          intro l hmem
          rcases mem_append.mp hmem with hmem | hmem
          · exact hname l hmem
          · rw [mem_singleton.mp hmem]
            exact hl
        refine Iff.trans ?_ (ih hnames)
        dsimp only
        rw [dotted_append, dotted_cons, append_assoc]
        rfl
    · simp

theorem extractText_eq_some_iff : pkt.extractText dnssecValid p extrabytes = some (t, q) ↔
      ∃ n, pkt.extractName p extrabytes = some (n, q) ∧ (∀ l ∈ n, HasText dnssecValid l) ∧
        t = (dotted dnssecValid n).dropLast :=
  textLoop_eq_some_iff (forall_mem_nil _)

theorem nameAt_of_extractLoop (hlen : namelen < maxdname) (hhops : hops ≤ 255)
    (h : pkt.extractLoop extrabytes fuel p p1 namelen hops name = some (name', q)) :
    ∃ n stop k, pkt.NameAt p n stop k ∧ name' = name ++ n ∧ q = p1.getD stop ∧ hops + k ≤ 255 ∧
      namelen + (wire n).length < maxdname ∧ pkt.checkLen q extrabytes = true := by
  induction fuel generalizing p namelen hops p1 name with
  | zero => cases h
  | succ fuel ih =>
    obtain ⟨hptr, hlab, -⟩ := label_bits (pkt.get p) (pkt.get_lt p)
    rw [extractLoop] at h
    dsimp only at h
    split_ifs at h with h1 h2 h3 h4 h5 h6 h7 h8 h9 <;>
      simp only [Bool.not_eq_true', Bool.not_eq_false] at *
    · cases h
      exact ⟨[], p + 1, 0, .root h1 h2, (append_nil _).symm, rfl, hhops, hlen, h3⟩
    · obtain ⟨hge, hoff⟩ := hptr h4
      obtain ⟨n, stop, k, hn, hname, hq, hk, hrest⟩ := ih hlen (by omega) h
      rw [hoff] at hn
      have hin : pkt.checkLen p 2 = true := by simpa [checkLen, Nat.add_assoc] using h5
      exact ⟨n, p + 2, k + 1, .pointer hin hge hn, hname, hq, by omega, hrest⟩
    obtain ⟨n, stop, k, hn, hname, hq, hk, hwire, hroom⟩ := ih (by omega) hhops h
    refine ⟨_, stop, k, .label h1 h2 (hlab.mp h7) h9 hn, by simp [hname], hq, hk, ?_, hroom⟩
    simp only [wire_cons, length_cons, length_append, length_bytes]
    omega

theorem NameAt.extractLoop_eq (h : pkt.NameAt p n stop k)
    (hfuel : n.length + k < fuel) (hhops : hops + k ≤ 255)
    (hlen : namelen + (wire n).length < maxdname)
    (hroom : pkt.checkLen (p1.getD stop) extrabytes = true) :
    pkt.extractLoop extrabytes fuel p p1 namelen hops name = some (name ++ n, p1.getD stop) := by
  induction h generalizing fuel namelen hops p1 name with
  | root hin hzero =>
    obtain ⟨fuel, rfl⟩ := Nat.exists_eq_add_of_lt hfuel
    rw [extractLoop]
    dsimp only
    rw [hin, hzero]
    simp [hroom]
  | @label p stop k n hin hpos hshort hbytes h ih =>
    cases fuel with
    | zero => omega
    | succ fuel =>
      obtain ⟨-, hlab, hnot⟩ := label_bits (pkt.get p) (pkt.get_lt p)
      simp only [wire_cons, length_cons, length_append, length_bytes] at hlen hfuel
      rw [extractLoop]
      dsimp only
      rw [if_neg (by simp [hin]), if_neg hpos, if_neg (hnot hshort), if_pos (hlab.mpr hshort),
        if_neg (by omega), if_neg (by simp [hbytes]), ih (by omega) hhops (by omega) hroom]
      simp
  | @pointer p stop k n hin hge h ih =>
    cases fuel with
    | zero => omega
    | succ fuel =>
      have hbits : ∀ l < 256, 192 ≤ l → l &&& 0xc0 = 0xc0 ∧ l &&& 0x3f = l - 192 := by decide
      obtain ⟨hptr, hoff⟩ := hbits _ (pkt.get_lt p) hge
      have hin' : p + 2 ≤ pkt.plen := by simpa [checkLen] using hin
      rw [extractLoop]
      rw [if_neg (by simp [checkLen]; omega), if_neg (by omega), if_pos hptr,
        if_neg (by simp [checkLen]; omega), if_neg (by omega), hoff]
      exact ih (by omega) (by omega) hlen hroom

theorem NameAt.labels (h : pkt.NameAt p n stop k) : ∀ l ∈ n, l ≠ [] ∧ l.length < 64 := by
  induction h with
  | root => exact forall_mem_nil _
  | @label p stop k n hin hpos hshort hbytes h ih =>
    refine forall_mem_cons.mpr ⟨⟨?_, by simpa using hshort⟩, ih⟩
    intro hnil
    exact hpos (by simpa using congrArg List.length hnil)
  | pointer hin hge h ih => exact ih

/-- The names that can be read are those that lie inside the message, within the limits. -/
theorem extractName_eq_some_iff :
    pkt.extractName p extrabytes = some (n, q) ↔ pkt.ValidName p extrabytes n q := by
  constructor
  · intro h
    obtain ⟨n', stop, k, hn, rfl, rfl, hk, hwire, hroom⟩ :=
      nameAt_of_extractLoop (by decide) (Nat.zero_le _) h
    exact ⟨⟨k, by omega, hn⟩, by simpa using hwire, hroom⟩
  · rintro ⟨⟨k, hk, hn⟩, hshort, hroom⟩
    have hlen := length_le_wire n
    exact hn.extractLoop_eq (by omega) (by omega) (by omega) hroom

end Packet

section Match

variable {dnssecValid : Bool} {str : ℕ → UInt8}

def restText (dnssecValid : Bool) (m : Label) (n' : Name) : CString :=
  encode dnssecValid m ++ if n' = [] then [] else dot :: (dotted dnssecValid n').dropLast

def matchRest (dnssecValid : Bool) (str : ℕ → UInt8) (s : ℕ × Bool) (l : Label) (n : Name) : Bool :=
  matchEnd str (n.foldl (matchLabel dnssecValid str)
    (matchDot str (l.foldl (matchByte dnssecValid str) s)))

theorem matchRest_cons (s : ℕ × Bool) (c : UInt8) (l : Label) (n : Name) :
    matchRest dnssecValid str s (c :: l) n =
    matchRest dnssecValid str (matchByte dnssecValid str s c) l n := rfl

theorem matchRest_nil_cons (s : ℕ × Bool) (l : Label) (n : Name) :
    matchRest dnssecValid str s [] (l :: n) = matchRest dnssecValid str (matchDot str s) l n := rfl

theorem matchRest_false (cp : ℕ) (l : Label) (n : Name) :
    matchRest dnssecValid str (cp, false) l n = false := by
  have hbyte : ∀ (l : Label) (s : ℕ × Bool), s.2 = false →
      (l.foldl (matchByte dnssecValid str) s).2 = false := by
    intro l
    induction l with
    | nil => exact fun s hs => hs
    | cons c l ih =>
      intro s hs
      apply ih
      unfold matchByte
      split_ifs
      · rfl
      · simp [hs]
  have hdot : ∀ s : ℕ × Bool, s.2 = false → (matchDot str s).2 = false := by
    intro s hs
    unfold matchDot
    split_ifs
    · exact hs
    · simp [hs]
  have hname : ∀ (n : Name) (s : ℕ × Bool), s.2 = false →
      (n.foldl (matchLabel dnssecValid str) s).2 = false := by
    intro n
    induction n with
    | nil => exact fun s hs => hs
    | cons l n ih => exact fun s hs => ih _ (hdot _ (hbyte l s hs))
  unfold matchRest matchEnd
  rw [hname n _ (hdot _ (hbyte l _ rfl)), Bool.false_and]

variable {cp : ℕ} {m : Label} {n' n : Name}

theorem matchByte_encode {c' : UInt8} {rest : CString} (hc : dnssecValid = false →
    c' ≠ 0 ∧ c' ≠ dot) (hstr : Stored str cp ((if dnssecValid then escapeByte c'
      else [c']) ++ rest)) :
    ∃ cp', Stored str cp' rest ∧ ∀ c, matchByte dnssecValid str (cp, true) c =
      (cp', lower c == lower c') := by
  have hbytes : ∀ n : Fin 256, (lower (.ofFin n) == nameEscape) =
      (UInt8.ofFin n == nameEscape) := by decide
  have hesc : ∀ c : UInt8, (lower c == nameEscape) = (c == nameEscape) := fun c => hbytes c.toFin
  cases dnssecValid with
  | false =>
    obtain ⟨hhead, hrest⟩ := hstr
    refine ⟨cp + 1, hrest, fun c => ?_⟩
    rw [matchByte, if_neg (by simpa [hhead] using (hc rfl).1)]
    simp [hhead, BEq.comm]
  | true =>
    rw [if_pos rfl, escapeByte] at hstr
    split_ifs at hstr with hspecial
    · obtain ⟨hhead, hnext, hrest⟩ := hstr
      have hlower : lower c' = c' := by
        rcases hspecial with rfl | rfl | rfl <;> rfl
      refine ⟨cp + 2, hrest, fun c => ?_⟩
      rw [matchByte, if_neg (by simp [hhead, nameEscape])]
      simp [hhead, hnext, hesc, hlower, BEq.comm]
    push Not at hspecial
    obtain ⟨hhead, hrest⟩ := hstr
    refine ⟨cp + 1, hrest, fun c => ?_⟩
    rw [matchByte, if_neg (by simpa [hhead] using hspecial.1)]
    simp [hhead, hesc, hspecial.2.2, BEq.comm]

theorem matchByte_dot (hstr : str cp = dot) (c : UInt8) :
    matchByte dnssecValid str (cp, true) c = (cp + 1, c == dot) := by
  have hbytes : ∀ n : Fin 256, (dot == lower (.ofFin n)) = (UInt8.ofFin n == dot) := by decide
  have hdot : (dot == lower c) = (c == dot) := hbytes c.toFin
  have hesc : (dot == nameEscape) = false := rfl
  have hlower : lower dot = dot := rfl
  rw [matchByte, if_neg (by rw [hstr]; decide)]
  simp only [hstr, hesc, Bool.and_false, hlower, hdot, Bool.true_and, Bool.false_eq_true, if_false]

theorem head_restText (hm : HasText dnssecValid m) (hne : m ≠ [])
    (hstr : Stored str cp (restText dnssecValid m n')) : str cp ≠ 0 ∧ str cp ≠ dot := by
  obtain ⟨c, m, rfl⟩ := exists_cons_of_ne_nil hne
  rw [restText, encode_cons, append_assoc] at hstr
  generalize encode dnssecValid m ++ _ = rest at hstr
  cases dnssecValid with
  | false =>
    obtain ⟨hhead, -⟩ := hstr
    rw [hhead]
    exact (hasText_cons.mp hm).1 rfl
  | true =>
    rw [if_pos rfl, escapeByte] at hstr
    split_ifs at hstr with hspecial
    · obtain ⟨hhead, -⟩ := hstr
      rw [hhead]
      decide
    push Not at hspecial
    obtain ⟨hhead, -⟩ := hstr
    rw [hhead]
    exact ⟨hspecial.1, hspecial.2.1⟩

theorem restText_nil_cons (m : Label) (n' : Name) :
    restText dnssecValid [] (m :: n') = dot :: restText dnssecValid m n' := by
  have hnil : encode dnssecValid [] = [] := by cases dnssecValid <;> rfl
  rw [restText, hnil, dropLast_dotted_cons]
  rfl

theorem stored_restText_nil (hstr : Stored str cp (restText dnssecValid [] [])) : str cp = 0 := by
  have hnil : encode dnssecValid [] = [] := by cases dnssecValid <;> rfl
  rw [restText, hnil] at hstr
  exact hstr

theorem matchRest_end {c : UInt8} (l : Label) (n : Name) (hend : str cp = 0) :
    matchRest dnssecValid str (cp, true) (c :: l) n = false := by
  rw [matchRest_cons, matchByte, if_pos hend, matchRest_false]

theorem matchRest_inside (hzero : str cp ≠ 0) (hdot : str cp ≠ dot) :
    matchRest dnssecValid str (cp, true) [] n = false := by
  have hstep : matchDot str (cp, true) = (cp + 1, false) := by simp [matchDot, hzero, hdot]
  cases n with
  | nil =>
    rw [matchRest, foldl_nil, foldl_nil, hstep]
    rfl
  | cons l n => rw [matchRest_nil_cons, hstep, matchRest_false]

theorem matchRest_eq {l : Label} (hn : WellFormed n)
    (hm : HasText dnssecValid m) (hn' : Storable dnssecValid n')
    (hstr : Stored str cp (restText dnssecValid m n')) : matchRest dnssecValid str (cp, true) l n =
    aligned l n m n' := by
  induction l, n, m, n' using aligned.induct generalizing cp with
  | case1 =>
    have hend := stored_restText_nil hstr
    simp [matchRest, matchDot, matchEnd, hend, aligned]
  | case2 l n m n' ih =>
    obtain ⟨-, hn⟩ := forall_mem_cons.mp hn
    obtain ⟨⟨-, -, hm'⟩, hn'⟩ := storable_cons.mp hn'
    rw [restText_nil_cons] at hstr
    obtain ⟨hdot, hrest⟩ := hstr
    rw [matchRest_nil_cons, matchDot, hdot, aligned]
    exact ih hn hm' hn' hrest
  | case3 c l n c' m n' ih =>
    obtain ⟨hc, hm⟩ := hasText_cons.mp hm
    rw [restText, encode_cons, append_assoc] at hstr
    obtain ⟨cp', hrest, hbyte⟩ := matchByte_encode hc hstr
    rw [matchRest_cons, hbyte, aligned]
    cases lower c == lower c' with
    | false => rw [matchRest_false, Bool.false_and]
    | true => rw [ih hn hm hn' hrest, Bool.true_and]
  | case4 c l n m n' ih =>
    obtain ⟨⟨-, -, hm'⟩, hn'⟩ := storable_cons.mp hn'
    rw [restText_nil_cons] at hstr
    obtain ⟨hdot, hrest⟩ := hstr
    rw [matchRest_cons, matchByte_dot hdot, aligned]
    cases c == dot with
    | false => rw [matchRest_false, Bool.false_and]
    | true => rw [ih hn hm' hn' hrest, Bool.true_and]
  | case5 l n m n' h1 h2 h3 h4 =>
    have hfalse : aligned l n m n' = false := by rw [aligned] <;> assumption
    rw [hfalse]
    cases m with
    | nil =>
      cases n' with
      | nil =>
        have hend := stored_restText_nil hstr
        cases l with
        | nil =>
          cases n with
          | nil => exact (h1 rfl rfl rfl rfl).elim
          | cons l n =>
            obtain ⟨hl, -⟩ := forall_mem_cons.mp hn
            obtain ⟨c, l, rfl⟩ := exists_cons_of_ne_nil hl
            rw [matchRest_nil_cons, matchDot, if_pos hend, matchRest_end l n hend]
        | cons c l => exact matchRest_end l n hend
      | cons m n' =>
        cases l with
        | nil =>
          cases n with
          | nil =>
            obtain ⟨⟨hne, -, hm'⟩, hn'⟩ := storable_cons.mp hn'
            rw [restText_nil_cons] at hstr
            obtain ⟨hdot, hrest⟩ := hstr
            obtain ⟨hzero, -⟩ := head_restText hm' hne hrest
            rw [matchRest, foldl_nil, foldl_nil, matchDot, if_neg (by rw [hdot]; decide)]
            simp [matchEnd, hzero]
          | cons l n => exact (h2 l n m n' rfl rfl rfl rfl).elim
        | cons c l => exact (h4 c l m n' rfl rfl rfl).elim
    | cons c' m =>
      cases l with
      | nil =>
        obtain ⟨hzero, hdot⟩ := head_restText hm (cons_ne_nil _ _) hstr
        exact matchRest_inside hzero hdot
      | cons c l => exact (h3 c l c' m rfl rfl).elim

theorem matchName_eq (hn : WellFormed n) (hn' : Storable dnssecValid n')
    (hstr : Stored str 0 (dotted dnssecValid n').dropLast) :
    matchEnd str (n.foldl (matchLabel dnssecValid str) (0, true)) = alignedNames n n' := by
  cases n' with
  | nil =>
    cases n with
    | nil =>
      have hend : str 0 = 0 := hstr
      simp [matchEnd, alignedNames, hend]
    | cons l n =>
      obtain ⟨hl, -⟩ := forall_mem_cons.mp hn
      obtain ⟨c, l, rfl⟩ := exists_cons_of_ne_nil hl
      exact matchRest_end l n hstr
  | cons m n' =>
    obtain ⟨⟨hne, -, hm⟩, hn'⟩ := storable_cons.mp hn'
    rw [dropLast_dotted_cons] at hstr
    cases n with
    | nil =>
      obtain ⟨hzero, -⟩ := head_restText hm hne hstr
      simp [matchEnd, alignedNames, hzero]
    | cons l n => exact matchRest_eq (forall_mem_cons.mp hn).2 hm hn' hstr

end Match

/-- Comparison and extraction of a name agree: on failure, on equality, and on the position behind
it. -/
structure Agree (compared : Option (Bool × ℕ)) (extracted : Option (CString × ℕ)) (s : CString) :
    Prop where
  fails : compared = none ↔ extracted = none
  equal : ∀ q, compared = some (true, q) ↔ ∃ t, extracted = some (t, q) ∧ foldCase t = foldCase s
  differs : ∀ q, compared = some (false, q) ↔ ∃ t, extracted = some (t, q) ∧ foldCase t ≠ foldCase s

def SameFold (n n' : Name) : Prop := n.map foldCase = n'.map foldCase

/-- The string is the text of the name, but for dots inside labels that have become dots between
labels. -/
def DotsAsEnds (dnssecValid : Bool) (n : Name) (s : CString) : Prop :=
  ∃ n', Storable dnssecValid n' ∧ s = (dotted dnssecValid n').dropLast ∧ alignedNames n n' = true ∧
    ¬ SameFold n n'

theorem foldCase_encode (dnssecValid : Bool) (l : Label) :
    foldCase (encode dnssecValid l) = encode dnssecValid (foldCase l) := by
  have hbyte : ∀ n : Fin 256, foldCase (escapeByte (.ofFin n)) = escapeByte (lower (.ofFin n)) := by
    decide
  cases dnssecValid with
  | false => rfl
  | true =>
    show foldCase (escape l) = escape (foldCase l)
    induction l with
    | nil => rfl
    | cons c l ih =>
      simp only [foldCase, escape, flatMap_cons, map_append, map_cons] at ih ⊢
      rw [ih]
      exact congrArg (· ++ _) (hbyte c.toFin)

theorem foldCase_dotted (dnssecValid : Bool) (n : Name) :
    foldCase (dotted dnssecValid n).dropLast = (dotted dnssecValid (n.map foldCase)).dropLast := by
  have hdotted : foldCase (dotted dnssecValid n) = dotted dnssecValid (n.map foldCase) := by
    induction n with
    | nil => rfl
    | cons l n ih =>
      rw [map_cons, dotted_cons, dotted_cons, ← ih, ← foldCase_encode]
      simp only [foldCase, map_append, map_cons]
      rfl
  rw [← hdotted]
  exact map_dropLast

theorem Storable.foldCase {dnssecValid : Bool} {n : Name} (hn : Storable dnssecValid n) :
    Storable dnssecValid (n.map foldCase) := by
  have hbytes : ∀ n : Fin 256, UInt8.ofFin n ≠ 0 ∧ UInt8.ofFin n ≠ dot → lower (.ofFin n) ≠ 0 ∧
      lower (.ofFin n) ≠ dot := by
    decide
  constructor
  · intro l hl
    obtain ⟨l', hl', rfl⟩ := mem_map.mp hl
    exact fun h => hn.nonempty l' hl' (map_eq_nil_iff.mp h)
  · intro l hl
    obtain ⟨l', hl', rfl⟩ := mem_map.mp hl
    exact (length_map _).trans_lt (hn.short l' hl')
  intro l hl hd c hc
  obtain ⟨l', hl', rfl⟩ := mem_map.mp hl
  obtain ⟨c', hc', rfl⟩ := mem_map.mp hc
  exact hbytes c'.toFin (hn.text l' hl' hd c' hc')

theorem wire_inj {n n' : Name} (hn : ∀ l ∈ n, l.length < 64) (hn' : ∀ l ∈ n', l.length < 64)
    (h : wire n = wire n') : n = n' := by
  induction n generalizing n' with
  | nil =>
    cases n' with
    | nil => rfl
    | cons l' n' => cases h
  | cons l n ih =>
    cases n' with
    | nil => cases h
    | cons l' n' =>
      obtain ⟨hl, htail⟩ := forall_mem_cons.mp hn
      obtain ⟨hl', htail'⟩ := forall_mem_cons.mp hn'
      rw [wire_cons, wire_cons, List.cons.injEq] at h
      have hlen : l.length = l'.length := by
        have h8 := congrArg UInt8.toNat h.1
        rw [UInt8.toNat_ofNat', UInt8.toNat_ofNat'] at h8
        omega
      obtain ⟨rfl, hrest⟩ := append_inj h.2 hlen
      rw [ih htail htail' hrest]

section

variable {dnssecValid : Bool} {n n' : Name} (hn : Storable dnssecValid n)
  (hn' : Storable dnssecValid n')
include hn hn'

theorem text_inj (h : (dotted dnssecValid n).dropLast = (dotted dnssecValid n').dropLast) :
    n = n' := by
  have hwire := writeName_dotted hn (Nat.le_max_left n.length n'.length)
  rw [h, writeName_dotted hn' (Nat.le_max_right _ _), Option.some.injEq] at hwire
  exact wire_inj hn.short hn'.short hwire.symm

theorem foldCase_text_eq_iff :
    foldCase (dotted dnssecValid n).dropLast = foldCase (dotted dnssecValid n').dropLast ↔
    SameFold n n' := by
  rw [foldCase_dotted, foldCase_dotted]
  constructor
  · exact text_inj hn.foldCase hn'.foldCase
  · intro h
    rw [h]

end

theorem aligned_of_sameFold {l m : Label} {n n' : Name} (hl : foldCase l = foldCase m)
    (hn : SameFold n n') : aligned l n m n' = true := by
  induction l, n, m, n' using aligned.induct with
  | case1 => rw [aligned]
  | case2 l n m n' ih =>
    obtain ⟨hl, hn⟩ := List.cons.inj hn
    rw [aligned, ih hl hn]
  | case3 c l n c' m n' ih =>
    obtain ⟨hc, hl⟩ := List.cons.inj hl
    rw [aligned, ih hl hn, hc]
    simp
  | case4 c l n m n' ih => cases hl
  | case5 l n m n' h1 h2 h3 h4 =>
    have hlen := congrArg List.length hl
    have hlens := congrArg List.length hn
    simp only [foldCase, length_map] at hlen hlens
    cases l with
    | nil =>
      have hm := length_eq_zero_iff.mp hlen.symm
      cases n with
      | nil => exact (h1 rfl rfl hm (length_eq_zero_iff.mp hlens.symm)).elim
      | cons l n =>
        obtain ⟨m', n', rfl⟩ := exists_cons_of_length_eq_add_one hlens.symm
        exact (h2 l n m' n' rfl rfl hm rfl).elim
    | cons c l =>
      obtain ⟨c', m, rfl⟩ := exists_cons_of_length_eq_add_one hlen.symm
      exact (h3 c l c' m rfl rfl).elim

theorem alignedNames_of_sameFold {n n' : Name} (h : SameFold n n') : alignedNames n n' = true := by
  cases n with
  | nil =>
    obtain rfl : n' = [] := map_eq_nil_iff.mp h.symm
    rfl
  | cons l n =>
    cases n' with
    | nil => cases h
    | cons m n' =>
      obtain ⟨hl, hn⟩ := List.cons.inj h
      exact aligned_of_sameFold hl hn

theorem agree_some_iff {matched : Bool} {q : ℕ} {s t : CString} :
    Agree (some (matched, q)) (some (t, q)) s ↔ (matched = true ↔ foldCase t = foldCase s) := by
  constructor
  · intro h
    simpa using h.equal q
  intro h
  constructor
  · simp
  · simp [h, and_comm]
  · simp [← h, and_comm]

theorem agree_none (s : CString) : Agree none none s := by
  constructor <;> simp

variable {pkt pkt' : Packet} {dnssecValid : Bool} {str : ℕ → UInt8} {s : CString}
  {p extrabytes p' extrabytes' q' : ℕ}

/-- Comparison with a string that was extracted agrees with extraction on just those names that have
a text and whose dots inside labels are not taken for the ends of labels. -/
theorem compareName_agrees_iff
    (hs : pkt'.extractText dnssecValid p' extrabytes' = some (s, q')) (hstr : Stored str 0 s) :
    Agree (pkt.compareName dnssecValid str p extrabytes)
    (pkt.extractText dnssecValid p extrabytes) s ↔
      ∀ n q, pkt.ValidName p extrabytes n q → (∀ l ∈ n, HasText dnssecValid l) ∧
        ¬ DotsAsEnds dnssecValid n s := by
  obtain ⟨n', -, hstore', rfl, -⟩ := Packet.textLoop_sound (by decide) hs
  rw [nil_append] at *
  simp only [← Packet.extractName_eq_some_iff]
  rw [Packet.compareName_eq]
  cases hread : pkt.extractName p extrabytes with
  | none =>
    have hnone : pkt.extractText dnssecValid p extrabytes = none := by
      rw [Option.eq_none_iff_forall_ne_some]
      rintro ⟨t, q⟩ ht
      obtain ⟨n, hn, -⟩ := Packet.extractText_eq_some_iff.mp ht
      rw [hread] at hn
      cases hn
    rw [hnone]
    simp [agree_none]
  | some r =>
    obtain ⟨n, q⟩ := r
    obtain ⟨⟨k, -, hn⟩, -, -⟩ := Packet.extractName_eq_some_iff.mp hread
    have hmatch := matchName_eq (fun l hl => (hn.labels l hl).1) hstore' hstr
    rw [Option.map_some, hmatch]
    by_cases htext : ∀ l ∈ n, HasText dnssecValid l
    · have hstore : Storable dnssecValid n :=
        ⟨fun l hl => (hn.labels l hl).1, fun l hl => (hn.labels l hl).2, htext⟩
      rw [Packet.extractText_eq_some_iff.mpr ⟨n, hread, htext, rfl⟩, agree_some_iff,
        foldCase_text_eq_iff hstore hstore']
      constructor
      · rintro h n1 q1 h1
        cases h1
        refine ⟨htext, ?_⟩
        rintro ⟨n2, hstore2, heq, hal, hne⟩
        obtain rfl := text_inj hstore' hstore2 heq
        exact hne (h.mp hal)
      intro h
      obtain ⟨-, hdots⟩ := h n q rfl
      refine ⟨fun hal => ?_, alignedNames_of_sameFold⟩
      by_contra hne
      exact hdots ⟨n', hstore', rfl, hal, hne⟩
    have hnone : pkt.extractText dnssecValid p extrabytes = none := by
      rw [Option.eq_none_iff_forall_ne_some]
      rintro ⟨t, q⟩ ht
      obtain ⟨n1, hn1, htext1, -⟩ := Packet.extractText_eq_some_iff.mp ht
      rw [hread] at hn1
      cases hn1
      exact htext htext1
    rw [hnone]
    constructor
    · intro h
      simpa using h.fails
    · intro h
      exact absurd (h n q rfl).1 htext

/-- The name `a.b` of two labels. -/
def twoLabels : Packet := .ofBytes [1, 97, 1, 98, 0]

def dottedLabel : Packet := .ofBytes [3, 97, 46, 98, 0]

def twoLabelsText : ℕ → UInt8
  | 0 => 97
  | 1 => 46
  | 2 => 98
  | _ => 0

theorem compareName_twoLabels :
    Agree (twoLabels.compareName true twoLabelsText 0 0) (twoLabels.extractText true 0 0)
    [97, 46, 98] ↔
      ∀ n q, twoLabels.ValidName 0 0 n q → (∀ l ∈ n, HasText true l) ∧
        ¬ DotsAsEnds true n [97, 46, 98] :=
  @compareName_agrees_iff twoLabels twoLabels true twoLabelsText [97, 46, 98] 0 0 0 0 5 (by decide)
    ⟨rfl, rfl, rfl, rfl⟩

/-- The one label is extracted with an escape, but it compares equal to the text of two labels. -/
theorem compareName_dottedLabel :
    twoLabels.extractText true 0 0 = some ([97, 46, 98], 5) ∧ Stored twoLabelsText 0 [97, 46, 98] ∧
      dottedLabel.extractText true 0 0 = some ([97, 1, 47, 98], 5) ∧
      dottedLabel.compareName true twoLabelsText 0 0 = some (true, 5) ∧
      ¬ Agree (dottedLabel.compareName true twoLabelsText 0 0) (dottedLabel.extractText true 0 0)
      [97, 46, 98] := by
  have htext : dottedLabel.extractText true 0 0 = some ([97, 1, 47, 98], 5) := by decide
  have hmatch : dottedLabel.compareName true twoLabelsText 0 0 = some (true, 5) := by decide
  refine ⟨by decide, ⟨rfl, rfl, rfl, rfl⟩, htext, hmatch, ?_⟩
  rw [htext, hmatch, agree_some_iff]
  decide

end Dnsmasq.Dns
