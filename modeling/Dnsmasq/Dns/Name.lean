import Dnsmasq.Lib.ThreeWay
import Dnsmasq.Util.Hostname

/-!
Domain names on the wire and in the text form of `extract_name`, and the canonical order of DNSSEC,
for which a NUL, a dot or the escape character within a label is written as two characters.
-/
namespace Dnsmasq.Dns

set_option maxRecDepth 20000

open List ThreeWay

abbrev Label := List UInt8
abbrev Name := List Label

def nameEscape : UInt8 := 1

def escapeByte (c : UInt8) : List UInt8 :=
  if c = 0 ∨ c = dot ∨ c = nameEscape then [nameEscape, c + 1] else [c]

def escape (l : Label) : CString := l.flatMap escapeByte

def present (n : Name) : CString := [dot].intercalate (n.map escape)

/-- The labels from the last one on, in lower case. RFC 4034 sorts names by comparing these
one after the other, byte by byte, and a missing label or byte sorts first. -/
def canonicalKey (n : Name) : List (List ℕ) := n.reverse.map fun l => l.map fun c => (lower c).toNat

/-- Compares the labels of two texts from the last one on. -/
def cmpLabels : List CString → List CString → ℤ
  | la :: as, lb :: bs =>
    let rc := hostnameOrder la lb
    if rc ≠ 0 then rc
    else match as, bs with
      | [], [] => 0
      | [], _ :: _ => -1
      | _ :: _, [] => 1
      | a :: as, b :: bs => cmpLabels (a :: as) (b :: bs)
  | [], [] => 0
  | [], _ => -1
  | _, [] => 1

def hostnameCmp (a b : CString) : ℤ :=
  cmpLabels (a.splitOn dot).reverse (b.splitOn dot).reverse

def lowKey (l : CString) : List ℕ := l.map fun c => (lower c).toNat

theorem hostnameOrder_reports (a b : CString) :
    Reports (hostnameOrder a b) (lowKey a) (lowKey b) := by
  induction a generalizing b with
  | nil =>
    cases b with
    | nil => exact .of_eq rfl rfl
    | cons y ys => exact .of_lt (by simp [hostnameOrder]) (by simp [lowKey])
  | cons x xs ih =>
    cases b with
    | nil => exact .of_gt (by simp [hostnameOrder]) (by simp [lowKey])
    | cons y ys =>
      simp only [hostnameOrder]
      split_ifs with h1 h2
      · exact .of_lt (by omega) (by simp [lowKey, cons_lt_cons_iff, h1])
      · exact .of_gt (by omega) (by simp [lowKey, cons_lt_cons_iff, h2])
      · exact (ih ys).cons (le_antisymm (not_lt.mp h2) (not_lt.mp h1))

theorem cmpLabels_reports (as bs : List CString) :
    Reports (cmpLabels as bs) (as.map lowKey) (bs.map lowKey) := by
  induction as generalizing bs with
  | nil =>
    cases bs with
    | nil => exact .of_eq rfl rfl
    | cons b bs => exact .of_lt (by simp [cmpLabels]) (by simp)
  | cons a as ih =>
    cases bs with
    | nil => exact .of_gt (by simp [cmpLabels]) (by simp)
    | cons b bs =>
      have hlabel := hostnameOrder_reports a b
      by_cases hrc : hostnameOrder a b = 0
      · have hrest : cmpLabels (a :: as) (b :: bs) = cmpLabels as bs := by
          cases as <;> cases bs <;> simp [cmpLabels, hrc]
        rw [hrest]
        exact (ih bs).cons (hlabel.2.mp hrc)
      have hfirst : cmpLabels (a :: as) (b :: bs) = hostnameOrder a b := by
        cases as <;> cases bs <;> simp [cmpLabels, hrc]
      rw [hfirst]
      rcases lt_or_gt_of_ne hrc with h | h
      · exact .of_lt h (by simp [cons_lt_cons_iff, hlabel.1.mp h])
      · exact .of_gt h (by simp [cons_lt_cons_iff, hlabel.pos.mp h])

def escapeNat (c : ℕ) : List ℕ := if c = 0 ∨ c = 46 ∨ c = 1 then [1, c + 1] else [c]

theorem lowKey_escape (l : Label) : lowKey (escape l) = (lowKey l).flatMap escapeNat := by
  have hbyte : ∀ n : Fin 256, lowKey (escapeByte (.ofFin n)) =
      escapeNat (lower (.ofFin n)).toNat := by
    decide
  induction l with
  | nil => rfl
  | cons c l ih =>
    simp only [escape, lowKey, flatMap_cons, map_append, map_cons] at ih ⊢
    congr 1
    exact hbyte c.toFin

variable {x y : List ℕ} {n a b : Name}

theorem flatMap_escapeNat_inj : x.flatMap escapeNat = y.flatMap escapeNat ↔ x = y := by
  induction x generalizing y with
  | nil =>
    cases y with
    | nil => simp
    | cons b y => simp only [flatMap_cons, escapeNat]; split_ifs <;> simp
  | cons a x ih =>
    cases y with
    | nil => simp only [flatMap_cons, escapeNat]; split_ifs <;> simp
    | cons b y =>
      simp only [flatMap_cons, escapeNat]
      split_ifs with ha hb hb
      · simp [ih]
      · simp only [cons_append, nil_append, List.cons.injEq]
        omega
      · simp only [cons_append, nil_append, List.cons.injEq]
        omega
      · simp [ih]

theorem dot_notMem_escape (l : Label) : dot ∉ escape l := by
  have hbyte : ∀ n : Fin 256, dot ∉ escapeByte (.ofFin n) := by decide
  simp only [escape, mem_flatMap, not_exists, not_and]
  exact fun c _ => hbyte c.toFin

theorem splitOn_present (hn : n ≠ []) : (present n).splitOn dot = n.map escape := by
  apply splitOn_intercalate
  · simp only [mem_map, forall_exists_index, and_imp, forall_apply_eq_imp_iff₂]
    exact fun l _ => dot_notMem_escape l
  · simpa using hn

/-- What `hostname_cmp` compares for the text of a name. -/
def textKey (n : Name) : List (List ℕ) := ((present n).splitOn dot).reverse.map lowKey

theorem hostnameCmp_reports (a b : Name) :
    Reports (hostnameCmp (present a) (present b)) (textKey a) (textKey b) :=
  cmpLabels_reports _ _

theorem textKey_eq (hn : n ≠ []) :
    textKey n = (canonicalKey n).map fun l => l.flatMap escapeNat := by
  simp only [textKey, splitOn_present hn, canonicalKey, ← map_reverse, map_map]
  exact map_congr_left fun l _ => lowKey_escape l

/-- A name that can come from the wire: no label is empty. -/
def WellFormed (n : Name) : Prop := ∀ l ∈ n, l ≠ []

instance (n : Name) : Decidable (WellFormed n) := inferInstanceAs (Decidable (∀ l ∈ n, l ≠ []))

/-- The empty text has one empty label, which still sorts before every other name. -/
theorem root_textKey_lt (hn : n ≠ []) (hwf : WellFormed n) :
    textKey [] < textKey n ∧ canonicalKey [] < canonicalKey n := by
  obtain ⟨l, rest, hrev⟩ := exists_cons_of_ne_nil (show n.reverse ≠ [] by simpa using hn)
  have hl : l ≠ [] := hwf l (by rw [← mem_reverse, hrev]; simp)
  obtain ⟨c, l, rfl⟩ := exists_cons_of_ne_nil hl
  rw [textKey_eq hn]
  simp only [canonicalKey, hrev, textKey, present, map_cons]
  simp only [map_nil, intercalate_nil, splitOn_nil, reverse_singleton,
    map_singleton, lowKey, flatMap_cons, cons_lt_cons_iff]
  unfold escapeNat
  split_ifs <;> simp

theorem textKey_eq_iff (ha : WellFormed a) (hb : WellFormed b) :
    textKey a = textKey b ↔ canonicalKey a = canonicalKey b := by
  by_cases ha' : a = [] <;> by_cases hb' : b = []
  · simp [ha', hb']
  · subst ha'
    have := root_textKey_lt hb' hb
    simp [this.1.ne, this.2.ne]
  · subst hb'
    have := root_textKey_lt ha' ha
    simp [this.1.ne', this.2.ne']
  · rw [textKey_eq ha', textKey_eq hb']
    exact (map_injective_iff.mpr fun _ _ => flatMap_escapeNat_inj.mp).eq_iff

theorem hostnameCmp_eq_zero (ha : WellFormed a) (hb : WellFormed b) :
    hostnameCmp (present a) (present b) = 0 ↔ canonicalKey a = canonicalKey b :=
  (hostnameCmp_reports a b).2.trans (textKey_eq_iff ha hb)

/-!
A message is the memory from its header on and its length: reads behind the length see what an
earlier message left in the buffer.
-/
structure Packet where
  mem : ℕ → UInt8
  plen : ℕ

/-- The message with the given bytes, in a buffer that was cleared before. -/
def Packet.ofBytes (bytes : List UInt8) : Packet where
  mem i := bytes.getD i 0
  plen := bytes.length

namespace Packet

variable (pkt : Packet)

def checkLen (p len : ℕ) : Bool := p + len ≤ pkt.plen

def get (p : ℕ) : ℕ := (pkt.mem p).toNat

def getShort (p : ℕ) : ℕ := pkt.get p * 256 + pkt.get (p + 1)

def bytes (p len : ℕ) : List UInt8 := (List.range len).map fun i => pkt.mem (p + i)

/-- The loop of `extract_name`: `p` moves through the message, `p1` is where to go back to
after the first compression pointer. Every turn is a hop or makes the name longer. -/
def extractLoop (pkt : Packet) (extrabytes : ℕ) :
    ℕ → ℕ → Option ℕ → ℕ → ℕ → Name → Option (Name × ℕ)
  | 0, _, _, _, _, _ => none
  | fuel + 1, p, p1, namelen, hops, name =>
    if !pkt.checkLen p 1 then none
    else
      let l := pkt.get p
      let p := p + 1
      if l = 0 then
        if !pkt.checkLen (p1.getD p) extrabytes then none
        else some (name, p1.getD p)
      else if l &&& 0xc0 = 0xc0 then
        if !pkt.checkLen p 1 then none
        else if 255 < hops + 1 then none
        else
          extractLoop pkt extrabytes fuel ((l &&& 0x3f) * 256 + pkt.get p) (p1.getD (p + 1))
            namelen (hops + 1) name
      else if l &&& 0xc0 = 0 then
        if maxdname ≤ namelen + l + 1 then none
        else if !pkt.checkLen p l then none
        else
          extractLoop pkt extrabytes fuel (p + l) p1 (namelen + l + 1) hops
            (name ++ [pkt.bytes p l])
      else none

/-- The name at `p`, which the caller gets as `present`ed text, and the position behind it. -/
def extractName (p extrabytes : ℕ) : Option (Name × ℕ) :=
  extractLoop pkt extrabytes (256 + maxdname) p none 0 0 []

theorem extractLoop_wellFormed {pkt : Packet} {extrabytes fuel p : ℕ} {p1 : Option ℕ}
    {namelen hops : ℕ} {name name' : Name} {q : ℕ} (hname : WellFormed name)
    (h : extractLoop pkt extrabytes fuel p p1 namelen hops name = some (name', q)) :
    WellFormed name' := by
  induction fuel generalizing p p1 namelen hops name with
  | zero => simp [extractLoop] at h
  | succ fuel ih =>
    rw [extractLoop] at h
    dsimp only at h
    split_ifs at h with h1 h2 h3 h4 h5 h6 h7 h8 h9
    · cases h
      exact hname
    · exact ih hname h
    refine ih (fun l hl => ?_) h
    rcases mem_append.mp hl with hl | hl
    · exact hname l hl
    · obtain rfl := mem_singleton.mp hl
      simpa [bytes] using h2

theorem extractName_wellFormed {pkt : Packet} {p extrabytes : ℕ} {name : Name} {q : ℕ}
    (h : pkt.extractName p extrabytes = some (name, q)) : WellFormed name :=
  extractLoop_wellFormed (fun _ hl => by cases hl) h

end Packet

/-!
The text form of names, with or without the escapes that are in use when DNSSEC is validated.
-/
variable (dnssecValid : Bool)

def byteText (c : UInt8) : Option CString :=
  if dnssecValid then some (escapeByte c)
  else if c ≠ 0 ∧ c ≠ dot then some [c] else none

def labelText (dnssecValid : Bool) : Label → Option CString
  | [] => some []
  | c :: l => (byteText dnssecValid c).bind fun s => (labelText dnssecValid l).map (s ++ ·)

/-- The loop of `extract_name` that writes to `cp`. -/
def Packet.textLoop (pkt : Packet) (dnssecValid : Bool) (extrabytes : ℕ) :
    ℕ → ℕ → Option ℕ → ℕ → ℕ → CString → Option (CString × ℕ)
  | 0, _, _, _, _, _ => none
  | fuel + 1, p, p1, namelen, hops, cp =>
    if !pkt.checkLen p 1 then none
    else
      let l := pkt.get p
      let p := p + 1
      if l = 0 then
        if !pkt.checkLen (p1.getD p) extrabytes then none
        else some (cp.dropLast, p1.getD p)
      else if l &&& 0xc0 = 0xc0 then
        if !pkt.checkLen p 1 then none
        else if 255 < hops + 1 then none
        else
          pkt.textLoop dnssecValid extrabytes fuel ((l &&& 0x3f) * 256 + pkt.get p)
            (p1.getD (p + 1)) namelen (hops + 1) cp
      else if l &&& 0xc0 = 0 then
        if maxdname ≤ namelen + l + 1 then none
        else if !pkt.checkLen p l then none
        else
          match labelText dnssecValid (pkt.bytes p l) with
          | none => none
          | some s =>
            pkt.textLoop dnssecValid extrabytes fuel (p + l) p1 (namelen + l + 1)
              hops (cp ++ s ++ [dot])
      else none

def Packet.extractText (pkt : Packet) (dnssecValid : Bool) (p extrabytes : ℕ) :
    Option (CString × ℕ) :=
  pkt.textLoop dnssecValid extrabytes (256 + maxdname) p none 0 0 []

/-- There is room for one more byte, where there is a limit. -/
def takeRoom : Option ℕ → Option (Option ℕ)
  | none => some none
  | some 0 => none
  | some (room + 1) => some (some room)

/-- The bytes up to the next dot or the end, and what is left from there. A text that ends
within an escape is not read beyond its end. -/
def writeLabel (dnssecValid : Bool) : CString → Option ℕ → Option (Label × CString × Option ℕ)
  | [], room => some ([], [], room)
  | c :: s, room =>
    if c = dot then some ([], c :: s, room)
    else
      (takeRoom room).bind fun room =>
        if dnssecValid && c = nameEscape then
          match s with
          | [] => none
          | e :: s => (writeLabel dnssecValid s room).map fun r => ((e - 1) :: r.1, r.2)
        else (writeLabel dnssecValid s room).map fun r => (c :: r.1, r.2)

def writeName (dnssecValid : Bool) : ℕ → CString → Option ℕ → Option (List UInt8)
  | _, [], _ => some []
  | 0, _ :: _, _ => none
  | fuel + 1, c :: s, room =>
    (takeRoom room).bind fun room =>
      (writeLabel dnssecValid (c :: s) room).bind fun r =>
        (writeName dnssecValid fuel (r.2.1.drop 1) r.2.2).map fun tail =>
          UInt8.ofNat r.1.length :: r.1 ++ tail

/-- The bytes that `do_rfc1035_name` writes, unless they reach the limit. -/
def doRfc1035Name (limit : Option ℕ) (sval : CString) : Option (List UInt8) :=
  writeName dnssecValid sval.length sval limit

/-- `canonicalise` without IDN: a copy of what `check_name` leaves. -/
def canonicalise (name : CString) : Option CString := checkName name

/-- The uncompressed label sequence, without the final zero. -/
def wire (n : Name) : List UInt8 := n.flatMap fun l => UInt8.ofNat l.length :: l

/-- The labels at a position of a message, through all compression pointers. -/
inductive Packet.Labels (pkt : Packet) : ℕ → Name → Prop
  | root {p : ℕ} (hlen : pkt.get p = 0) : pkt.Labels p []
  | label {p : ℕ} {n : Name} (hpos : pkt.get p ≠ 0) (hlen : pkt.get p < 64)
      (h : pkt.Labels (p + 1 + pkt.get p) n) : pkt.Labels p (pkt.bytes (p + 1) (pkt.get p) :: n)
  | pointer {p : ℕ} {n : Name} (hlen : 192 ≤ pkt.get p)
      (h : pkt.Labels ((pkt.get p - 192) * 256 + pkt.get (p + 1)) n) : pkt.Labels p n

structure Packet.Holds (pkt : Packet) (p : ℕ) (bs : List UInt8) : Prop where
  mem : pkt.bytes p bs.length = bs
  inside : p + bs.length ≤ pkt.plen

/-- A name that was written to the message, with the zero behind it. -/
def Packet.HoldsName (pkt : Packet) (dnssecValid : Bool) (p : ℕ) (name : CString) : Prop :=
  ∃ limit bs, doRfc1035Name dnssecValid limit name = some bs ∧ pkt.Holds p (bs ++ [0])

def encode (l : Label) : CString := if dnssecValid then escape l else l

/-- The label can be text: without escapes it holds no NUL and no dot. -/
def HasText (l : Label) : Prop := dnssecValid = false → ∀ c ∈ l, c ≠ 0 ∧ c ≠ dot

def dotted (n : Name) : CString := n.flatMap fun l => encode dnssecValid l ++ [dot]

theorem encode_cons (c : UInt8) (l : Label) :
    encode dnssecValid (c :: l) = (if dnssecValid then escapeByte c
      else [c]) ++ encode dnssecValid l := by
  cases dnssecValid <;> rfl

variable {dnssecValid : Bool} {c : UInt8} {s : CString} {l : Label}

theorem byteText_eq_some : byteText dnssecValid c = some s ↔
      (dnssecValid = false → c ≠ 0 ∧ c ≠ dot) ∧ s = if dnssecValid then escapeByte c else [c] := by
  cases dnssecValid <;> simp [byteText, eq_comm]

theorem hasText_cons :
    HasText dnssecValid (c :: l) ↔ (dnssecValid = false → c ≠ 0 ∧ c ≠ dot) ∧
    HasText dnssecValid l := by
  unfold HasText
  rw [forall_mem_cons]
  exact imp_and

theorem labelText_eq_some :
    labelText dnssecValid l = some s ↔ HasText dnssecValid l ∧ s = encode dnssecValid l := by
  induction l generalizing s with
  | nil => cases dnssecValid <;> simp [labelText, HasText, encode, escape, eq_comm]
  | cons c l ih =>
    rw [labelText, Option.bind_eq_some_iff, encode_cons, hasText_cons]
    constructor
    · rintro ⟨t, ht, h⟩
      obtain ⟨s', hs', rfl⟩ := Option.map_eq_some_iff.mp h
      obtain ⟨hl, rfl⟩ := ih.mp hs'
      obtain ⟨hc, rfl⟩ := byteText_eq_some.mp ht
      exact ⟨⟨hc, hl⟩, rfl⟩
    rintro ⟨⟨hc, hl⟩, rfl⟩
    refine ⟨_, byteText_eq_some.mpr ⟨hc, rfl⟩, ?_⟩
    rw [ih.mpr ⟨hl, rfl⟩]
    rfl

@[simp] theorem wire_nil : wire [] = [] := rfl

@[simp] theorem wire_cons (l : Label) (n : Name) :
    wire (l :: n) = UInt8.ofNat l.length :: (l ++ wire n) := rfl

@[simp] theorem dotted_cons (l : Label) (n : Name) :
    dotted dnssecValid (l :: n) = encode dnssecValid l ++ dot :: dotted dnssecValid n := by
  simp [dotted]

theorem length_le_wire (n : Name) : n.length ≤ (wire n).length := by
  induction n with
  | nil => exact Nat.le_refl 0
  | cons l n ih =>
    simp only [length_cons, wire_cons, length_append]
    omega

end Dnsmasq.Dns
