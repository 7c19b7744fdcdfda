import Dnsmasq.Dns.Name

/-!
Names written to a message and read back. Of the names that `canonicalise` lets through, those with
an empty label and the two longest lengths are lost.
-/
namespace Dnsmasq.Dns

open List Option

variable {pkt : Packet} {dnssecValid : Bool} {n : Name} {p : ℕ}

structure Storable (dnssecValid : Bool) (n : Name) : Prop where
  nonempty : WellFormed n
  short : ∀ l ∈ n, l.length < 64
  text : ∀ l ∈ n, HasText dnssecValid l

theorem storable_nil (dnssecValid : Bool) : Storable dnssecValid [] :=
  ⟨forall_mem_nil _, forall_mem_nil _, forall_mem_nil _⟩

theorem storable_cons {l : Label} :
    Storable dnssecValid (l :: n) ↔ (l ≠ [] ∧ l.length < 64 ∧ HasText dnssecValid l) ∧
    Storable dnssecValid n := by
  constructor
  · rintro ⟨h1, h2, h3⟩
    obtain ⟨hl1, hn1⟩ := forall_mem_cons.mp h1
    obtain ⟨hl2, hn2⟩ := forall_mem_cons.mp h2
    obtain ⟨hl3, hn3⟩ := forall_mem_cons.mp h3
    exact ⟨⟨hl1, hl2, hl3⟩, hn1, hn2, hn3⟩
  · rintro ⟨⟨hl1, hl2, hl3⟩, hn1, hn2, hn3⟩
    exact ⟨forall_mem_cons.mpr ⟨hl1, hn1⟩, forall_mem_cons.mpr ⟨hl2, hn2⟩,
      forall_mem_cons.mpr ⟨hl3, hn3⟩⟩

namespace Packet

theorem get_lt (pkt : Packet) (p : ℕ) : pkt.get p < 256 := UInt8.toNat_lt_size _

@[simp] theorem length_bytes (pkt : Packet) (p len : ℕ) : (pkt.bytes p len).length = len := by
  simp [bytes]

theorem bytes_succ (pkt : Packet) (p len : ℕ) : pkt.bytes p (len + 1) = pkt.mem p :: pkt.bytes
    (p + 1) len := by
  simp only [bytes, range_succ_eq_map, map_cons, List.map_map, Nat.add_zero,
    List.cons.injEq, true_and]
  apply map_congr_left
  intro i _
  simp [Nat.add_comm 1 i, Nat.add_assoc]

theorem bytes_add (pkt : Packet) (p len len' : ℕ) :
    pkt.bytes p (len + len') = pkt.bytes p len ++ pkt.bytes (p + len) len' := by
  simp [bytes, range_add, Nat.add_assoc]

theorem holds_cons {c : UInt8} {bs : List UInt8} (h : pkt.Holds p (c :: bs)) :
    pkt.mem p = c ∧ pkt.Holds (p + 1) bs := by
  have hmem := h.mem
  have hin := h.inside
  rw [length_cons, bytes_succ, List.cons.injEq] at hmem
  rw [length_cons] at hin
  exact ⟨hmem.1, hmem.2, by omega⟩

theorem holds_append {bs bs' : List UInt8} (h : pkt.Holds p (bs ++ bs')) :
    pkt.Holds p bs ∧ pkt.Holds (p + bs.length) bs' := by
  have hmem := h.mem
  have hin := h.inside
  rw [length_append] at hin
  rw [length_append, bytes_add] at hmem
  obtain ⟨h1, h2⟩ := append_inj hmem (length_bytes _ _ _)
  exact ⟨⟨h1, by omega⟩, h2, by omega⟩

set_option maxRecDepth 20000 in
theorem label_bits : ∀ l < 256, (l &&& 0xc0 = 0xc0 → 192 ≤ l ∧ l &&& 0x3f = l - 192) ∧
    (l &&& 0xc0 = 0 ↔ l < 64) ∧ (l < 64 → l &&& 0xc0 ≠ 0xc0) := by
  decide

theorem textLoop_sound {extrabytes fuel : ℕ} {p1 : Option ℕ} {namelen hops : ℕ}
    {cp t : CString} {q : ℕ} (hlen : namelen < maxdname)
    (h : pkt.textLoop dnssecValid extrabytes fuel p p1 namelen hops cp = some (t, q)) :
    ∃ n, pkt.Labels p n ∧ Storable dnssecValid n ∧ t = (cp ++ dotted dnssecValid n).dropLast ∧
      namelen + (wire n).length < maxdname := by
  induction fuel generalizing p p1 namelen hops cp with
  | zero => simp [textLoop] at h
  | succ fuel ih =>
    obtain ⟨hptr, hlab, -⟩ := label_bits (pkt.get p) (pkt.get_lt p)
    rw [textLoop] at h
    dsimp only at h
    split_ifs at h with h1 h2 h3 h4 h5 h6 h7 h8 h9
    · cases h
      exact ⟨[], .root h2, storable_nil _, by simp [dotted], by simpa using hlen⟩
    · obtain ⟨hge, hoff⟩ := hptr h4
      obtain ⟨n, hn, hrest⟩ := ih hlen h
      rw [hoff] at hn
      exact ⟨n, .pointer hge hn, hrest⟩
    split at h
    · cases h
    next s hs =>
    obtain ⟨htext, rfl⟩ := labelText_eq_some.mp hs
    obtain ⟨n, hn, hstore, rfl, hwire⟩ := ih (by omega) h
    have hshort := hlab.mp h7
    refine ⟨pkt.bytes (p + 1) (pkt.get p) :: n, .label h2 hshort hn, ?_, ?_, ?_⟩
    · refine storable_cons.mpr ⟨⟨?_, by simpa using hshort, htext⟩, hstore⟩
      intro hnil
      exact h2 (by simpa using congrArg List.length hnil)
    · simp
    · simp only [wire_cons, length_cons, length_append, length_bytes]
      omega

theorem textLoop_wire {fuel namelen hops : ℕ} {cp : CString} (hn : Storable dnssecValid n)
    (h : pkt.Holds p (wire n ++ [0])) (hlen : namelen + (wire n).length < maxdname)
    (hfuel : n.length < fuel) : pkt.textLoop dnssecValid 0 fuel p none namelen hops cp =
      some ((cp ++ dotted dnssecValid n).dropLast, p + (wire n).length + 1) := by
  induction n generalizing p fuel namelen cp with
  | nil =>
    obtain ⟨fuel, rfl⟩ := Nat.exists_eq_add_of_lt hfuel
    obtain ⟨hmem, -⟩ := holds_cons h
    have hin := h.inside
    simp only [wire_nil, nil_append, length_singleton] at hin
    simp [textLoop, checkLen, get, hmem, hin, dotted]
  | cons l n ih =>
    cases fuel with
    | zero => omega
    | succ fuel =>
      obtain ⟨⟨hne, hshort, htext⟩, hrest⟩ := storable_cons.mp hn
      rw [wire_cons, cons_append, append_assoc] at h
      obtain ⟨hmem, h⟩ := holds_cons h
      obtain ⟨hl, h⟩ := holds_append h
      have hget : pkt.get p = l.length := by
        rw [get, hmem, UInt8.toNat_ofNat']
        omega
      have hin := hl.inside
      have hpos : l.length ≠ 0 := fun h0 => hne (length_eq_zero_iff.mp h0)
      obtain ⟨-, hlab, hnot⟩ := label_bits l.length (by omega)
      simp only [wire_cons, length_cons, length_append] at hlen hfuel ⊢
      rw [textLoop]
      rw [hget, if_neg (by simp [checkLen]; omega), if_neg hpos, if_neg (hnot hshort),
        if_pos (hlab.mpr hshort),
        if_neg (by omega), if_neg (by simp [checkLen]; omega), hl.mem,
        labelText_eq_some.mpr ⟨htext, rfl⟩]
      dsimp only
      rw [ih hrest h (by omega) (by omega)]
      simp only [dotted_cons, append_assoc, cons_append, nil_append, Option.some.injEq,
        Prod.mk.injEq, true_and]
      omega

end Packet

theorem writeLabel_encode {l : Label} (hl : HasText dnssecValid l) {rest : CString}
    (hrest : ∀ c ∈ rest.head?, c = dot) :
    writeLabel dnssecValid (encode dnssecValid l ++ rest) none = some (l, rest, none) := by
  induction l with
  | nil =>
    have hnil : encode dnssecValid [] = [] := by cases dnssecValid <;> rfl
    rw [hnil, nil_append]
    cases rest with
    | nil => rfl
    | cons c rest => rw [writeLabel, if_pos (hrest c rfl)]
  | cons c l ih =>
    obtain ⟨hc, hl⟩ := hasText_cons.mp hl
    rw [encode_cons]
    cases dnssecValid with
    | false =>
      rw [if_neg (by decide), append_assoc, singleton_append, writeLabel, if_neg (hc rfl).2]
      simp [takeRoom, ih hl]
    | true =>
      rw [if_pos rfl, escapeByte]
      split_ifs with hesc
      · rw [append_assoc, cons_append, writeLabel, if_neg (by decide)]
        simp [takeRoom, ih hl]
      · push Not at hesc
        rw [append_assoc, singleton_append, writeLabel, if_neg hesc.2.1]
        simp [takeRoom, ih hl, hesc.2.2]

theorem encode_ne_nil {l : Label} (hl : l ≠ []) : encode dnssecValid l ≠ [] := by
  obtain ⟨c, l, rfl⟩ := exists_cons_of_ne_nil hl
  rw [encode_cons]
  cases dnssecValid with
  | false => simp
  | true =>
    rw [escapeByte]
    split_ifs <;> simp

theorem dropLast_dotted_cons (l : Label) (n : Name) : (dotted dnssecValid (l :: n)).dropLast =
      encode dnssecValid l ++ if n = [] then [] else dot :: (dotted dnssecValid n).dropLast := by
  cases n with
  | nil => simp [dotted]
  | cons l' n =>
    rw [dotted_cons, dropLast_append_of_ne_nil (cons_ne_nil _ _), dropLast_cons_of_ne_nil (by simp)]
    simp

variable {fuel : ℕ} {s l name : CString} {limit : Option ℕ} {bs : List UInt8}

theorem writeName_dotted (hn : Storable dnssecValid n) (hfuel : n.length ≤ fuel) :
    writeName dnssecValid fuel (dotted dnssecValid n).dropLast none = some (wire n) := by
  induction n generalizing fuel with
  | nil => cases fuel <;> rfl
  | cons l n ih =>
    obtain ⟨⟨hne, -, htext⟩, hrest⟩ := storable_cons.mp hn
    cases fuel with
    | zero => simp at hfuel
    | succ fuel =>
      have hlabel := @writeLabel_encode dnssecValid l htext
        (if n = [] then [] else dot :: (dotted dnssecValid n).dropLast) (by split <;> simp)
      rw [dropLast_dotted_cons]
      obtain ⟨c, s, hcs⟩ := exists_cons_of_ne_nil (@encode_ne_nil dnssecValid l hne)
      rw [hcs, cons_append] at hlabel ⊢
      have htail : (if n = [] then [] else dot :: (dotted dnssecValid n).dropLast).drop 1 =
          (dotted dnssecValid n).dropLast := by
        split_ifs with hnil
        · subst hnil
          rfl
        · rfl
      rw [writeName]
      simp only [takeRoom, bind_some, hlabel, htail,
        ih hrest (Nat.le_of_succ_le_succ hfuel), map_some]
      simp

theorem writeLabel_none {r : Label × CString × Option ℕ}
    (h : writeLabel dnssecValid s limit = some r) :
    writeLabel dnssecValid s none = some (r.1, r.2.1, none) := by
  fun_induction writeLabel dnssecValid s limit generalizing r with
  | case1 room =>
    cases h
    rfl
  | case2 s room =>
    cases h
    rw [writeLabel, if_pos rfl]
  | case3 c s room hc ih2 ih1 =>
    obtain ⟨room', -, h⟩ := bind_eq_some_iff.mp h
    rw [writeLabel, if_neg hc]
    simp only [takeRoom, bind_some]
    split_ifs at h ⊢ with hesc
    · cases s with
      | nil => cases h
      | cons e s =>
        obtain ⟨r', hr', rfl⟩ := map_eq_some_iff.mp h
        have hnone : writeLabel dnssecValid s none = _ := ih2 room' hr'
        simp [hnone]
    · obtain ⟨r', hr', rfl⟩ := map_eq_some_iff.mp h
      simp [ih1 room' hr']

theorem writeName_none (h : writeName dnssecValid fuel s limit = some bs) :
    writeName dnssecValid fuel s none = some bs := by
  induction fuel generalizing s limit bs with
  | zero =>
    cases s with
    | nil => exact h
    | cons c s => cases h
  | succ fuel ih =>
    cases s with
    | nil => exact h
    | cons c s =>
      rw [writeName] at h ⊢
      obtain ⟨room, -, h⟩ := bind_eq_some_iff.mp h
      obtain ⟨r, hr, h⟩ := bind_eq_some_iff.mp h
      obtain ⟨tail, htail, rfl⟩ := map_eq_some_iff.mp h
      simp only [takeRoom, bind_some, writeLabel_none hr, ih htail, map_some]

theorem writeLabel_isSome {s : CString} (h : nameEscape ∉ s) :
    ∃ l rest, writeLabel dnssecValid s none = some (l, rest, none) ∧ rest.length ≤ s.length ∧
      nameEscape ∉ rest := by
  induction s with
  | nil => exact ⟨[], [], rfl, Nat.le_refl 0, h⟩
  | cons c s ih =>
    by_cases hc : c = dot
    · exact ⟨[], c :: s, by rw [writeLabel, if_pos hc], Nat.le_refl _, h⟩
    obtain ⟨l, rest, hl, hle, hesc⟩ := ih (fun hm => h (mem_cons_of_mem c hm))
    have hne : c ≠ nameEscape := fun e => h (e ▸ mem_cons_self)
    refine ⟨c :: l, rest, ?_, hle.trans (Nat.le_succ _), hesc⟩
    rw [writeLabel, if_neg hc]
    simp [takeRoom, hne, hl]

theorem writeName_isSome (h : nameEscape ∉ s) (hfuel : s.length ≤ fuel) :
    ∃ bs, writeName dnssecValid fuel s none = some bs := by
  induction fuel generalizing s with
  | zero =>
    cases s with
    | nil => exact ⟨[], rfl⟩
    | cons c s => simp at hfuel
  | succ fuel ih =>
    cases s with
    | nil => exact ⟨[], rfl⟩
    | cons c s =>
      obtain ⟨l, rest, hl, hle, hesc⟩ := @writeLabel_isSome dnssecValid (c :: s) h
      have hshort : (rest.drop 1).length ≤ fuel := by
        rw [length_drop]
        omega
      obtain ⟨tail, htail⟩ := ih (fun hm => hesc (mem_of_mem_drop hm)) hshort
      refine ⟨UInt8.ofNat l.length :: l ++ tail, ?_⟩
      rw [writeName]
      simp only [takeRoom, bind_some, hl, htail, map_some]

section

variable (hn : Storable dnssecValid n)
include hn

theorem length_dotted : n.length ≤ (dotted dnssecValid n).dropLast.length := by
  induction n with
  | nil => exact Nat.le_refl 0
  | cons l n ih =>
    obtain ⟨⟨hne, -, -⟩, hrest⟩ := storable_cons.mp hn
    have hpos := length_pos_iff.mpr (@encode_ne_nil dnssecValid l hne)
    have hle := ih hrest
    rw [dropLast_dotted_cons, length_append, length_cons]
    split_ifs with hnil
    · subst hnil
      exact hpos
    · rw [length_cons]
      omega

theorem doRfc1035Name_dotted (h : doRfc1035Name dnssecValid limit (dotted dnssecValid n).dropLast =
    some bs) : bs = wire n := by
  have hnone := writeName_none h
  rw [writeName_dotted hn (length_dotted hn)] at hnone
  exact (Option.some.inj hnone).symm

theorem extractText_holdsName (hlen : (wire n).length < maxdname)
    (h : pkt.HoldsName dnssecValid p (dotted dnssecValid n).dropLast) :
    (pkt.extractText dnssecValid p 0).map Prod.fst = some (dotted dnssecValid n).dropLast := by
  obtain ⟨limit, bs, hbs, hholds⟩ := h
  rw [doRfc1035Name_dotted hn hbs] at hholds
  have hfuel : n.length < 256 + maxdname := by
    have := length_le_wire n
    omega
  rw [Packet.extractText, Packet.textLoop_wire hn hholds (by simpa using hlen) hfuel]
  simp

end

/-- What a reader can give back: no empty label, and not too long. -/
def Readable (name : CString) : Prop := name.length < 1024 ∧ (name = [] ∨ [] ∉ name.splitOn dot)

instance (name : CString) : Decidable (Readable name) :=
  inferInstanceAs (Decidable (_ ∧ _))

theorem mem_splitOn (h : l ∈ s.splitOn dot) : dot ∉ l ∧ ∀ c ∈ l, c ∈ s := by
  induction s generalizing l with
  | nil =>
    rw [splitOn_nil, mem_singleton] at h
    subst h
    simp
  | cons c s ih =>
    rw [splitOn_cons_eq_if_modifyHead] at h
    split_ifs at h with hc
    · rcases mem_cons.mp h with rfl | h
      · simp
      · exact ⟨(ih h).1, fun c' hc' => mem_cons_of_mem c ((ih h).2 c' hc')⟩
    obtain ⟨first, rest, hsplit⟩ := exists_cons_of_ne_nil (splitOn_ne_nil dot s)
    rw [hsplit] at h
    rcases mem_cons.mp h with rfl | h
    · obtain ⟨hdot, hmem⟩ := ih (hsplit ▸ mem_cons_self)
      constructor
      · intro hm
        rcases mem_cons.mp hm with rfl | hm
        · simp at hc
        · exact hdot hm
      intro c' hc'
      rcases mem_cons.mp hc' with rfl | hc'
      · exact mem_cons_self
      · exact mem_cons_of_mem c (hmem c' hc')
    · have hl := ih (hsplit ▸ mem_cons_of_mem first h)
      exact ⟨hl.1, fun c' hc' => mem_cons_of_mem c (hl.2 c' hc')⟩

theorem length_of_labelsFit {gap : ℕ} (h : labelsFit gap s = true) (hgap : gap < 64) :
    ∃ first rest, s.splitOn dot = first :: rest ∧ gap + first.length < 64 ∧ ∀ l ∈ rest,
      l.length < 64 := by
  induction s generalizing gap with
  | nil => exact ⟨[], [], splitOn_nil dot, by simpa using hgap, forall_mem_nil _⟩
  | cons c s ih =>
    rw [labelsFit] at h
    rw [splitOn_cons_eq_if_modifyHead]
    split_ifs at h with hc
    · obtain ⟨first, rest, hsplit, hfirst, hrest⟩ := ih h (by decide)
      rw [if_pos (beq_iff_eq.mpr hc), hsplit]
      exact ⟨[],
        first :: rest, rfl, by simpa using hgap, forall_mem_cons.mpr ⟨by simpa using hfirst, hrest⟩⟩
    obtain ⟨hlt, h⟩ := Bool.and_eq_true_iff.mp h
    obtain ⟨first, rest, hsplit, hfirst, hrest⟩ := ih h (Nat.succ_lt_succ (of_decide_eq_true hlt))
    rw [if_neg (by simpa using hc), hsplit]
    exact ⟨c :: first, rest, rfl, by rw [length_cons]; omega, hrest⟩

theorem encode_printable {l : Label} (h : ∀ c ∈ l, 32 ≤ c) (hdot : dot ∉ l) :
    encode dnssecValid l = l := by
  induction l with
  | nil => cases dnssecValid <;> rfl
  | cons c l ih =>
    obtain ⟨hc, hl⟩ := forall_mem_cons.mp h
    obtain ⟨hcd, hld⟩ := not_or.mp (fun hm => hdot (mem_cons.mpr hm))
    have hesc : escapeByte c = [c] := by
      rw [escapeByte, if_neg]
      rintro (rfl | rfl | rfl)
      · exact absurd hc (by decide)
      · exact hcd rfl
      · exact absurd hc (by decide)
    rw [encode_cons, hesc, ih hl hld]
    simp

theorem dropLast_dotted_eq (n : Name) :
    (dotted dnssecValid n).dropLast = [dot].intercalate (n.map (encode dnssecValid)) := by
  induction n with
  | nil => rfl
  | cons l n ih =>
    rw [dropLast_dotted_cons, ih]
    split_ifs with hnil
    · subst hnil
      simp
    · rw [map_cons, intercalate_cons_of_ne_nil (by simpa using hnil)]
      simp

theorem length_wire_intercalate {n : Name} (hn : n ≠ []) :
    (wire n).length = ([dot].intercalate n).length + 1 := by
  induction n with
  | nil => exact absurd rfl hn
  | cons l n ih =>
    by_cases hnil : n = []
    · subst hnil
      simp
    · rw [intercalate_cons_of_ne_nil hnil, wire_cons, length_cons, length_append, ih hnil]
      simp only [length_append, length_singleton]
      omega

/-- The parts of a name that `check_name` lets through. -/
structure Checked (name : CString) : Prop where
  printable : ∀ c ∈ name, 32 ≤ c
  fits : labelsFit 0 name = true

theorem checked_of_canonicalise (h : canonicalise s = some name) : Checked name := by
  unfold canonicalise checkName at h
  dsimp only at h
  split at h
  · cases h
  generalize (if s.getLast? = some dot then s.dropLast else s) = s' at h
  split at h
  · next hc =>
    cases h
    simp only [Bool.and_eq_true, List.all_eq_true, decide_eq_true_eq] at hc
    exact ⟨fun c hmem => (hc.1.2 c hmem).1, hc.1.1⟩
  · cases h

theorem Checked.labels (h : Checked name) (hread : Readable name) (dnssecValid : Bool) :
    ∃ n, Storable dnssecValid n ∧ name = (dotted dnssecValid n).dropLast ∧
      (wire n).length < maxdname := by
  obtain ⟨hlen, rfl | hlabels⟩ := hread
  · exact ⟨[], storable_nil _, rfl, by decide⟩
  have hmem (l : Label) (hl : l ∈ name.splitOn dot) : dot ∉ l ∧ ∀ c ∈ l, 32 ≤ c :=
    ⟨(mem_splitOn hl).1, fun c hc => h.printable c ((mem_splitOn hl).2 c hc)⟩
  have hshort : ∀ l ∈ name.splitOn dot, l.length < 64 := by
    obtain ⟨first, rest, hsplit, hfirst, hrest⟩ := length_of_labelsFit h.fits (by decide)
    rw [hsplit]
    exact forall_mem_cons.mpr ⟨by simpa using hfirst, hrest⟩
  have htext : (name.splitOn dot).map (encode dnssecValid) = name.splitOn dot := by
    rw [map_congr_left fun l hl => encode_printable (hmem l hl).2 (hmem l hl).1, List.map_id']
  refine ⟨name.splitOn dot, ⟨?_, hshort, ?_⟩, ?_, ?_⟩
  · intro l hl hnil
    exact hlabels (hnil ▸ hl)
  · intro l hl _ c hc
    constructor
    · rintro rfl
      exact absurd ((hmem l hl).2 0 hc) (by decide)
    · rintro rfl
      exact (hmem l hl).1 hc
  · rw [dropLast_dotted_eq, htext, intercalate_splitOn]
  · rw [length_wire_intercalate (splitOn_ne_nil _ _), intercalate_splitOn]
    exact Nat.succ_lt_succ hlen

theorem mem_intercalate {c : UInt8} {n : List CString} (hl : l ∈ n) (hc : c ∈ l) :
    c ∈ [dot].intercalate n := by
  induction n with
  | nil => cases hl
  | cons l' n ih =>
    rcases mem_cons.mp hl with rfl | hl
    · cases n with
      | nil => simpa using hc
      | cons l'' n => simp [intercalate_cons_cons, hc]
    · have hne : n ≠ [] := ne_nil_of_mem hl
      rw [intercalate_cons_of_ne_nil hne]
      simp [ih hl]

theorem encode_eq_self {l : Label} (h : HasText dnssecValid l) (hesc : nameEscape ∉
    encode dnssecValid l) : encode dnssecValid l = l ∧ dot ∉ l := by
  induction l with
  | nil => cases dnssecValid <;> simp [encode, escape]
  | cons c l ih =>
    obtain ⟨hc, hl⟩ := hasText_cons.mp h
    rw [encode_cons, mem_append, not_or] at hesc
    obtain ⟨hrest, hdot⟩ := ih hl hesc.2
    rw [encode_cons, hrest]
    cases dnssecValid with
    | false => exact ⟨rfl, fun hm => (mem_cons.mp hm).elim (fun e => (hc rfl).2 e.symm) hdot⟩
    | true =>
      have hplain : ¬ (c = 0 ∨ c = dot ∨ c = nameEscape) := by
        intro hspecial
        apply hesc.1
        simp [escapeByte, hspecial]
      rw [escapeByte, if_neg hplain]
      push Not at hplain
      exact ⟨rfl, fun hm => (mem_cons.mp hm).elim (fun e => hplain.2.1 e.symm) hdot⟩

theorem Checked.readable (h : Checked name) (hn : Storable dnssecValid n)
    (hname : name = (dotted dnssecValid n).dropLast) (hlen : (wire n).length < maxdname) :
    Readable name := by
  rw [dropLast_dotted_eq] at hname
  by_cases hnil : n = []
  · subst hnil
    subst hname
    exact ⟨by simp, Or.inl rfl⟩
  -- The name has no escape character, so that the labels are their own text.
  have hplain : ∀ l ∈ n, encode dnssecValid l = l ∧ dot ∉ l := by
    intro l hl
    apply encode_eq_self (hn.text l hl)
    intro hm
    have hmem := mem_intercalate (mem_map_of_mem hl) hm
    rw [← hname] at hmem
    exact absurd (h.printable _ hmem) (by decide)
  have hmap : n.map (encode dnssecValid) = n := by
    rw [map_congr_left fun l hl => (hplain l hl).1, List.map_id']
  rw [hmap] at hname
  subst hname
  constructor
  · have := length_wire_intercalate hnil
    have : maxdname = 1025 := rfl
    omega
  · right
    rw [splitOn_intercalate dot (fun l hl => (hplain l hl).2) hnil]
    exact fun hm => hn.nonempty [] hm rfl

/-- A name from the configuration is read back exactly if it has no empty label and at most
1023 characters. A name from a message is read back, and its labels are those that were read. -/
theorem extractText_roundTrip (dnssecValid : Bool) : (∀ s name, canonicalise s = some name →
      (∃ bs, doRfc1035Name dnssecValid none name = some bs) ∧
      ∀ (pkt : Packet) (p : ℕ), pkt.HoldsName dnssecValid p name →
        ((pkt.extractText dnssecValid p 0).map Prod.fst = some name ↔ Readable name)) ∧
    (∀ (pkt : Packet) (p extrabytes : ℕ) (name : CString) (q : ℕ),
      pkt.extractText dnssecValid p extrabytes = some (name, q) →
      (∀ (pkt' : Packet) (p' : ℕ), pkt'.HoldsName dnssecValid p' name →
        (pkt'.extractText dnssecValid p' 0).map Prod.fst = some name) ∧
      ∃ n, pkt.Labels p n ∧ doRfc1035Name dnssecValid none name = some (wire n)) := by
  constructor
  · intro s name hname
    have hchecked := checked_of_canonicalise hname
    constructor
    · apply writeName_isSome _ (Nat.le_refl _)
      intro hm
      exact absurd (hchecked.printable _ hm) (by decide)
    intro pkt p hholds
    constructor
    · intro hread
      obtain ⟨⟨name', q⟩, hq, rfl⟩ := map_eq_some_iff.mp hread
      obtain ⟨n, -, hn, htext, hlen⟩ := Packet.textLoop_sound (by decide) hq
      exact hchecked.readable hn (by simpa using htext) (by simpa using hlen)
    · intro hread
      obtain ⟨n, hn, rfl, hlen⟩ := hchecked.labels hread dnssecValid
      exact extractText_holdsName hn hlen hholds
  intro pkt p extrabytes name q hq
  obtain ⟨n, hlabels, hn, rfl, hlen⟩ := Packet.textLoop_sound (by decide) hq
  rw [Nat.zero_add] at hlen
  exact ⟨fun pkt' p' h => extractText_holdsName hn hlen h, n, hlabels,
    writeName_dotted hn (length_dotted hn)⟩

/-- The name `a..b` is let through, and only `a` is read back. -/
theorem extractText_emptyLabel : canonicalise [97, 46, 46, 98] = some [97, 46, 46, 98] ∧
      doRfc1035Name false none [97, 46, 46, 98] = some [1, 97, 0, 1, 98] ∧
      (Packet.ofBytes [1, 97, 0, 1, 98, 0]).extractText false 0 0 = some ([97], 3) := by
  decide +kernel

end Dnsmasq.Dns
