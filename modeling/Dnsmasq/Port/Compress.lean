import Dnsmasq.Port.WireName

/-!
The Rust port: `compress_name` of `dns/compression.rs`. Every entry of the shared map is the
place of a label in the packet from which the rest of a name can be read; names are written
rightly as long as no call needs an entry that a pointer cannot reach.
-/
namespace Dnsmasq.Port

open List Option Lib Outcome

/-- `HashMap<String, usize>`, the last insertion first. -/
abbrev CompressionMap := List (Text × ℕ)

def joinLabels (labels : List Text) : Text := [dot].intercalate labels

def pointerTo (offset : ℕ) : Bytes :=
    [(0xC0 : UInt8) ||| UInt8.ofNat (offset >>> 8), UInt8.ofNat (offset &&& 0xFF)]

def compressLabels : List Text → Bytes → CompressionMap → Outcome CompressionError
    (Bytes × CompressionMap)
  | [], packet, map => .ok (packet ++ [0], map)
  | label :: rest, packet, map =>
    match map.lookup (joinLabels (label :: rest)) with
    | some offset =>
      if 0x3FFF < offset then .err (.invalidOffset offset packet.length)
        else .ok (packet ++ pointerTo offset, map)
    | none =>
      if 63 < label.length then .err (.nameTooLong label.length)
      else compressLabels rest (packet ++ UInt8.ofNat label.length :: label)
        ((joinLabels (label :: rest), packet.length) :: map)

def compressName (name : Text) (packet : Bytes) (map : CompressionMap) :
    Outcome CompressionError (Bytes × CompressionMap) :=
  if name = [dot] ∨ name = [] then .ok (packet ++ [0], map)
  else compressLabels ((name.rdropWhile (· == dot)).splitOn dot) packet map

/-- Names written one after the other, each behind some other bytes; with where each starts and
stops. -/
def writeNames : List (Bytes × List Text) → Bytes → CompressionMap → Outcome CompressionError
    (Bytes × List (ℕ × ℕ))
  | [], packet, _ => .ok (packet, [])
  | (between, labels) :: items, packet, map => do
      let (packet', map') ← compressName (nameToString labels) (packet ++ between) map
      let (final, spans) ← writeNames items packet' map'
      return (final, ((packet ++ between).length, packet'.length) :: spans)

def pointerTarget (map : CompressionMap) : List Text → Option ℕ
  | [] => none
  | label :: rest => (map.lookup (joinLabels (label :: rest))).or (pointerTarget map rest)

/-- A pointer reaches the suffix that the next name shares with the map, for every name in turn. -/
def InReach : List (Bytes × List Text) → Bytes → CompressionMap → Prop
  | [], _, _ => True
  | (between, labels) :: items, packet, map =>
    (∀ offset, pointerTarget map labels = some offset → offset ≤ 0x3FFF) ∧
      ∀ packet' map', compressName (nameToString labels) (packet ++ between) map =
        .ok (packet', map') → InReach items packet' map'

/-- An octet that stands for itself in the text of a label. -/
def Plain (c : UInt8) : Prop := c ≠ 0 ∧ c ≠ dot ∧ c ≠ nameEscape ∧ c < 0x80

def PlainLabels (labels : List Text) : Prop := ∀ label ∈ labels, label ≠ [] ∧ label.length ≤ 63 ∧
    ∀ c ∈ label, Plain c

variable {c : UInt8} {label packet packet' : Bytes} {labels : List Text} {offset stop hops : ℕ}
    {map : CompressionMap} {key : Text} {items : List (Bytes × List Text)}

theorem pushChar_plain (h : Plain c) : pushChar c = [c] := if_pos h.2.2.2

theorem decodeEscaped_plain (h : ∀ c ∈ label, Plain c) : decodeEscaped label = .ok label := by
  induction label with
  | nil => rfl
  | cons c label ih =>
    have hc := h c mem_cons_self
    rw [decodeEscaped.eq_def]
    dsimp only
    rw [if_neg fun hesc => hc.2.2.1 hesc.1, if_neg fun hbad => hbad.elim hc.1 hc.2.1,
      ih fun d hd => h d (mem_cons_of_mem c hd), pushChar_plain hc]
    rfl

variable (b : Build)

theorem decodePlain_plain (h : ∀ c ∈ label, Plain c) : decodePlain b label = .ok label := by
  have hfind : (label.find? fun byte => byte == 0 || byte == dot) = none := by
    rw [find?_eq_none]
    intro c hc
    simp [(h c hc).1, (h c hc).2.1]
  rw [decodePlain, hfind, Build.fromUtf8Lossy, if_pos (isUtf8_of_ascii fun c hc => (h c hc).2.2.2)]

theorem decodeLabels_plain (h : PlainLabels labels) : decodeLabels b labels = .ok labels := by
  induction labels with
  | nil => rfl
  | cons label labels ih =>
    have hlabel : decodeLabel b label = .ok label := by
      unfold decodeLabel
      split
      · exact decodeEscaped_plain (h label mem_cons_self).2.2
      · exact decodePlain_plain b (h label mem_cons_self).2.2
    rw [decodeLabels, hlabel, ih fun l hl => h l (mem_cons_of_mem label hl)]
    rfl

theorem PlainLabels.tail {label : Text} {labels : List Text} (h : PlainLabels (label :: labels)) :
    PlainLabels labels :=
  fun l hl => h l (mem_cons_of_mem label hl)

section

variable (h : PlainLabels labels) (hne : labels ≠ [])
include h hne

theorem splitOn_joinLabels : (joinLabels labels).splitOn dot = labels :=
  splitOn_intercalate dot (fun label hlabel hdot => ((h label hlabel).2.2 dot hdot).2.1 rfl) hne

theorem joinLabels_last : ∃ s c, joinLabels labels = s ++ [c] ∧ c ≠ dot := by
  induction labels with
  | nil => exact absurd rfl hne
  | cons label labels ih =>
    cases labels with
    | nil =>
      obtain ⟨hpos, -, hplain⟩ := h label mem_cons_self
      refine ⟨label.dropLast, label.getLast hpos, ?_, (hplain _ (getLast_mem hpos)).2.1⟩
      rw [dropLast_append_getLast]
      simp [joinLabels]
    | cons label' labels =>
      obtain ⟨s, c, hs, hc⟩ := ih h.tail (cons_ne_nil _ _)
      refine ⟨label ++ [dot] ++ s, c, ?_, hc⟩
      rw [joinLabels] at hs ⊢
      rw [intercalate_cons_cons, hs, append_assoc, append_assoc, append_assoc]

theorem splitOn_nameToString : nameToString labels ≠ [dot] ∧ nameToString labels ≠ [] ∧
      ((nameToString labels).rdropWhile (· == dot)).splitOn dot = labels := by
  have hname : nameToString labels = joinLabels labels := if_neg (by simpa using hne)
  obtain ⟨s, c, hs, hc⟩ := joinLabels_last h hne
  rw [hname]
  refine ⟨?_, ?_, ?_⟩
  · intro hdot
    have hlast := congrArg getLast? (hs.symm.trans hdot)
    rw [getLast?_concat] at hlast
    exact hc (Option.some.inj hlast)
  · simp [hs]
  · have htrim : (joinLabels labels).rdropWhile (· == dot) = joinLabels labels := by
      rw [hs, rdropWhile_concat_neg _ _ _ (by simpa using hc)]
    rw [htrim, splitOn_joinLabels h hne]

end

section

variable {labels : List Bytes} (h : NameAt packet offset labels stop hops)
include h

theorem NameAt.append (more : Bytes) : NameAt (packet ++ more) offset labels stop hops := by
  have hget : ∀ {i : ℕ} {byte : UInt8}, packet[i]? = some byte →
      (packet ++ more)[i]? = some byte := by
    intro i byte hi
    rw [getElem?_append_left (lt_length_of_getElem? hi), hi]
  induction h with
  | root h => exact .root (hget h)
  | @label offset stop hops label labels hpos hlen hbyte hbytes _ ih =>
    refine .label hpos hlen (hget hbyte) ?_ ih
    have hroom : label.length ≤ (packet.drop (offset + 1)).length := by
      have := congrArg List.length hbytes
      rw [length_take] at this
      omega
    have hstart : offset + 1 ≤ packet.length := lt_length_of_getElem? hbyte
    rw [drop_append_of_le_length hstart, take_append_of_le_length hroom, hbytes]
  | pointer hhigh hpointer hlow _ ih => exact .pointer (hget hhigh) hpointer (hget hlow) ih

theorem NameAt.of_isPrefix (hpre : packet <+: packet') :
    NameAt packet' offset labels stop hops := by
  obtain ⟨more, rfl⟩ := hpre
  exact h.append more

end

/-- From the place of an entry the suffix it is for can be read. -/
def Entry (packet : Bytes) (e : Text × ℕ) : Prop :=
  ∃ labels stop hops, labels ≠ [] ∧ PlainLabels labels ∧ e.1 = joinLabels labels ∧
    NameAt packet e.2 labels stop hops ∧ hops < labels.length

def MapInv (packet : Bytes) (map : CompressionMap) : Prop := ∀ e ∈ map, Entry packet e

theorem Entry.of_isPrefix {e : Text × ℕ} (h : Entry packet e) (hpre : packet <+: packet') :
    Entry packet' e := by
  obtain ⟨labels, stop, hops, hne, hplain, hkey, hat, hhops⟩ := h
  exact ⟨labels, stop, hops, hne, hplain, hkey, hat.of_isPrefix hpre, hhops⟩

theorem MapInv.of_isPrefix (h : MapInv packet map) (hpre : packet <+: packet') :
    MapInv packet' map := fun e he => (h e he).of_isPrefix hpre

theorem mem_of_lookup (h : map.lookup key = some offset) : (key, offset) ∈ map := by
  induction map with
  | nil => cases h
  | cons e map ih =>
    rw [lookup_cons] at h
    split at h
    · rename_i heq
      cases h
      rw [eq_of_beq heq]
      exact mem_cons_self
    · exact mem_cons_of_mem _ (ih h)

set_option maxRecDepth 20000 in
theorem nameAt_pointerTo {labels : List Bytes} (hreach : offset ≤ 0x3FFF)
    (h : NameAt packet offset labels stop hops) :
    NameAt (packet ++ pointerTo offset) packet.length labels (packet.length + 2) (hops + 1) := by
  have hhigh : ((0xC0 : UInt8) ||| UInt8.ofNat (offset >>> 8)).toNat = 192 + offset / 256 := by
    have hbyte : ∀ n : Fin 64, ((0xC0 : UInt8) ||| UInt8.ofNat n).toNat = 192 + n := by decide
    rw [Nat.shiftRight_eq_div_pow]
    exact hbyte ⟨offset / 256, by omega⟩
  have hlow : (UInt8.ofNat (offset &&& 0xFF)).toNat = offset % 256 := by
    rw [show (0xFF : ℕ) = 2 ^ 8 - 1 from rfl, Nat.and_two_pow_sub_one_eq_mod]
    simp
  have htarget : NameAt (packet ++ pointerTo offset)
      ((((0xC0 : UInt8) ||| UInt8.ofNat (offset >>> 8)).toNat - 192) * 256 +
        (UInt8.ofNat (offset &&& 0xFF)).toNat) labels stop hops := by
    rw [hhigh, hlow, show (192 + offset / 256 - 192) * 256 + offset % 256 = offset by omega]
    exact h.append _
  refine .pointer ?_ ?_ ?_ htarget
  · simp [pointerTo]
  · omega
  · simp [pointerTo]

theorem length_joinLabels_lt {label : Text} (rest : List Text) (h : label ≠ []) :
    (joinLabels rest).length < (joinLabels (label :: rest)).length := by
  have hpos := length_pos_iff.mpr h
  cases rest with
  | nil => simpa [joinLabels] using hpos
  | cons l rest =>
    rw [joinLabels, joinLabels, intercalate_cons_cons, length_append, length_append]
    omega

theorem lookup_pending {pend : CompressionMap} (hpend : ∀ e ∈ pend, key.length < e.1.length) :
    (pend ++ map).lookup key = map.lookup key := by
  induction pend with
  | nil => rfl
  | cons e pend ih =>
    obtain ⟨k, o⟩ := e
    have hne : (key == k) = false := by
      have := hpend (k, o) mem_cons_self
      simp only [beq_eq_false_iff_ne]
      rintro rfl
      exact lt_irrefl _ this
    rw [cons_append, lookup_cons, hne]
    exact ih fun e he => hpend e (mem_cons_of_mem _ he)

theorem nameAt_label {label : Text} {rest : List Text} (hpos : label ≠ [])
    (hlen : label.length ≤ 63) (hpre : packet ++ UInt8.ofNat label.length :: label <+: packet')
    (h : NameAt packet' (packet ++ UInt8.ofNat label.length :: label).length rest stop hops) :
    NameAt packet' packet.length (label :: rest) stop hops := by
  obtain ⟨more, rfl⟩ := hpre
  refine .label hpos hlen ?_ ?_ ?_
  · simp
  · simp
  · rw [length_append] at h
    rwa [show packet.length + 1 + label.length = packet.length + (label.length + 1) by omega]

section

variable {labels : List Text} {packet : Bytes} {pend map : CompressionMap}

theorem compressLabels_ok (hplain : PlainLabels labels)
    (hinv : MapInv packet map) (hpend : ∀ e ∈ pend, (joinLabels labels).length < e.1.length)
    (hreach : ∀ offset, pointerTarget map labels = some offset → offset ≤ 0x3FFF) :
    ∃ packet' new hops, compressLabels labels packet (pend ++ map) =
      .ok (packet', new ++ (pend ++ map)) ∧ packet <+: packet' ∧
      NameAt packet' packet.length labels packet'.length hops ∧ hops ≤ labels.length ∧ ∀ e ∈ new,
      Entry packet' e := by
  induction labels generalizing packet pend with
  | nil =>
    refine ⟨packet ++ [0], [], 0, rfl, prefix_append _ _, ?_, le_rfl, nofun⟩
    rw [length_append]
    exact .root (by simp)
  | cons label rest ih =>
    obtain ⟨hpos, hlen, -⟩ := hplain label mem_cons_self
    rw [compressLabels, lookup_pending hpend]
    rw [pointerTarget] at hreach
    cases hlookup : map.lookup (joinLabels (label :: rest)) with
    | some offset =>
      rw [hlookup] at hreach
      have hoffset := hreach offset rfl
      obtain ⟨labels', stop, hops, hne, hplain', hkey, hat, hhops⟩ := hinv _ (mem_of_lookup hlookup)
      obtain rfl : labels' = label :: rest := by
        rw [← splitOn_joinLabels hplain' hne, ← hkey, splitOn_joinLabels hplain (cons_ne_nil _ _)]
      refine ⟨packet ++ pointerTo offset, [], hops + 1, if_neg (by omega), prefix_append _ _, ?_,
        hhops, nofun⟩
      rw [length_append]
      exact nameAt_pointerTo hoffset hat
    | none =>
      rw [hlookup] at hreach
      rw [if_neg (by omega)]
      have hshort := length_joinLabels_lt rest hpos
      obtain ⟨packet', new, hops, heq, hpre, hat, hhops, hnew⟩ :=
        @ih (packet ++ UInt8.ofNat label.length :: label)
          ((joinLabels (label :: rest), packet.length) :: pend)
          hplain.tail (hinv.of_isPrefix (prefix_append _ _)) (fun e he => by
            rcases mem_cons.mp he with rfl | he
            · exact hshort
            · exact hshort.trans (hpend e he)) hreach
      have hname := nameAt_label hpos hlen hpre hat
      refine ⟨packet', new ++ [(joinLabels (label :: rest), packet.length)], hops, ?_,
        (prefix_append _ _).trans hpre, hname, by rw [length_cons]; omega, ?_⟩
      · rw [append_assoc]
        exact heq
      intro e he
      rcases mem_append.mp he with he | he
      · exact hnew e he
      · rw [mem_singleton.mp he]
        exact ⟨label :: rest, _, hops, cons_ne_nil _ _, hplain, rfl,
          hname, by rw [length_cons]; omega⟩

theorem compressLabels_err {offset : ℕ}
    (hplain : PlainLabels labels) (hpend : ∀ e ∈ pend, (joinLabels labels).length < e.1.length)
    (htarget : pointerTarget map labels = some offset) (hfar : 0x3FFF < offset)
    (r : Bytes × CompressionMap) : compressLabels labels packet (pend ++ map) ≠ .ok r := by
  induction labels generalizing packet pend with
  | nil => cases htarget
  | cons label rest ih =>
    obtain ⟨hpos, hlen, -⟩ := hplain label mem_cons_self
    rw [compressLabels, lookup_pending hpend]
    rw [pointerTarget] at htarget
    cases hlookup : map.lookup (joinLabels (label :: rest)) with
    | some o =>
      rw [hlookup] at htarget
      cases htarget
      dsimp only
      rw [if_pos hfar]
      nofun
    | none =>
      rw [hlookup] at htarget
      rw [if_neg (by omega)]
      have hshort := length_joinLabels_lt rest hpos
      refine @ih _ ((joinLabels (label :: rest), packet.length) :: pend)
        hplain.tail (fun e he => ?_) htarget
      rcases mem_cons.mp he with rfl | he
      · exact hshort
      · exact hshort.trans (hpend e he)

end

theorem compressName_nameToString
    (hplain : PlainLabels labels) (packet : Bytes) (map : CompressionMap) :
    compressName (nameToString labels) packet map = compressLabels labels packet map := by
  by_cases hne : labels = []
  · subst hne
    rfl
  · obtain ⟨hdot, hnil, hsplit⟩ := splitOn_nameToString hplain hne
    rw [compressName, if_neg (by simp [hdot, hnil]), hsplit]

def isHostChar (c : UInt8) : Bool :=
  (0x61 ≤ c && c ≤ 0x7A) || (0x41 ≤ c && c ≤ 0x5A) || (0x30 ≤ c && c ≤ 0x39) ||
    c == 0x2D || c == 0x5F

/-- Labels of 1 to 63 such characters, in a name of at most 255 bytes on the wire. -/
def HostName (labels : List Text) : Prop :=
  (∀ label ∈ labels, label ≠ [] ∧ label.length ≤ 63 ∧ ∀ c ∈ label, isHostChar c) ∧
    nameLength labels + 1 ≤ 255

-- Through `List.all`, so that the check runs over the label and not over all the bytes there are.
instance (labels : List Text) : Decidable (HostName labels) :=
  decidable_of_iff
    ((labels.all fun label => !label.isEmpty && decide (label.length ≤ 63) &&
      label.all isHostChar) = true ∧ nameLength labels + 1 ≤ 255)
    (by simp [HostName, and_assoc])

set_option maxRecDepth 20000 in
theorem plain_of_isHostChar (h : isHostChar c) : Plain c := by
  have hbyte : ∀ n : Fin 256, isHostChar (.ofFin n) → (UInt8.ofFin n) ≠ 0 ∧ (UInt8.ofFin n) ≠ dot ∧
      (UInt8.ofFin n) ≠ nameEscape ∧ (UInt8.ofFin n) < 0x80 := by decide
  exact hbyte c.toFin h

theorem HostName.plain {labels : List Text} (h : HostName labels) : PlainLabels labels :=
    fun label hlabel =>
  ⟨(h.1 label hlabel).1, (h.1 label hlabel).2.1,
    fun c hc => plain_of_isHostChar ((h.1 label hlabel).2.2 c hc)⟩

/-- The name of an item can be read back from its start, up to where its bytes end. -/
def ReadsBack (final : Bytes) (labels : List Text) (span : ℕ × ℕ) : Prop :=
  ∀ extrabytes, span.2 + extrabytes ≤ final.length → extractLabels b final span.1 extrabytes =
    .ok (labels, span.2)

theorem readsBack_of_nameAt {final : Bytes} {start : ℕ} (hhost : HostName labels)
    (hat : NameAt packet start labels stop hops) (hhops : hops ≤ labels.length)
    (hpre : packet <+: final) : ReadsBack b final labels (start, stop) := by
  intro extrabytes hroom
  have hlength := length_le_nameLength labels
  have hwire := hhost.2
  refine (hat.of_isPrefix hpre).extractLabels_eq ?_ (by omega)
    (decodeLabels_plain b hhost.plain) hroom
  unfold maxCompressionHops
  omega

theorem compressName_ok (hhost : HostName labels)
    (hinv : MapInv packet map) (hreach : ∀ offset, pointerTarget map labels = some offset →
      offset ≤ 0x3FFF) :
    ∃ packet' map' hops, compressName (nameToString labels) packet map = .ok (packet', map') ∧
      packet <+: packet' ∧
      NameAt packet' packet.length labels packet'.length hops ∧ hops ≤ labels.length ∧
      MapInv packet' map' := by
  rw [compressName_nameToString hhost.plain]
  obtain ⟨packet', new, hops, heq, hpre, hat, hhops, hnew⟩ :=
    @compressLabels_ok labels packet [] map hhost.plain hinv nofun hreach
  refine ⟨packet', new ++ map, hops, heq, hpre, hat, hhops, fun e he => ?_⟩
  rcases mem_append.mp he with he | he
  · exact hnew e he
  · exact (hinv e he).of_isPrefix hpre

theorem reach_of_compressName {r : Bytes × CompressionMap}
    (hhost : HostName labels) (h : compressName (nameToString labels) packet map = .ok r) :
    ∀ offset, pointerTarget map labels = some offset → offset ≤ 0x3FFF := by
  intro offset htarget
  rw [compressName_nameToString hhost.plain] at h
  by_contra hfar
  exact @compressLabels_err labels packet [] map offset hhost.plain nofun htarget (by omega) r h

def WritesNames (items : List (Bytes × List Text)) (packet : Bytes) (map : CompressionMap) : Prop :=
  ∃ final spans, writeNames items packet map = .ok (final, spans) ∧
    List.Forall₂ (fun item span => ReadsBack b final item.2 span) items spans

theorem writeNames_ok
    (hhost : ∀ item ∈ items, HostName item.2) (hinv : MapInv packet map)
    (hreach : InReach items packet map) :
    ∃ final spans, writeNames items packet map = .ok (final, spans) ∧ packet <+: final ∧
      List.Forall₂ (fun item span => ReadsBack b final item.2 span) items spans := by
  induction items generalizing packet map with
  | nil => exact ⟨packet, [], rfl, prefix_rfl, .nil⟩
  | cons item items ih =>
    obtain ⟨between, labels⟩ := item
    obtain ⟨hfirst, hrest⟩ := hreach
    have hname : HostName labels := hhost (between, labels) mem_cons_self
    have hinv' := hinv.of_isPrefix (prefix_append packet between)
    obtain ⟨packet', map', hops, heq, hpre, hat, hhops, hinv''⟩ :=
      compressName_ok hname hinv' hfirst
    obtain ⟨final, spans, heq', hpre', hall⟩ :=
      ih (fun i hi => hhost i (mem_cons_of_mem _ hi)) hinv'' (hrest _ _ heq)
    refine ⟨final, ((packet ++ between).length, packet'.length) :: spans, ?_,
      ((prefix_append _ _).trans hpre).trans hpre',
      .cons (readsBack_of_nameAt b hname hat hhops hpre') hall⟩
    rw [writeNames, heq, ok_bind]
    dsimp only
    rw [heq']
    rfl

theorem inReach_of_writeNames {r : Bytes × List (ℕ × ℕ)} (hhost : ∀ item ∈ items, HostName item.2)
    (h : writeNames items packet map = .ok r) :
    InReach items packet map := by
  induction items generalizing packet map r with
  | nil => trivial
  | cons item items ih =>
    obtain ⟨between, labels⟩ := item
    obtain ⟨⟨packet', map'⟩, hname, h⟩ := bind_eq_ok.mp h
    obtain ⟨⟨final, spans⟩, hrest, -⟩ := bind_eq_ok.mp h
    refine ⟨reach_of_compressName (hhost (between, labels) mem_cons_self) hname,
      fun packet'' map'' hname' => ?_⟩
    rw [hname] at hname'
    cases hname'
    exact ih (fun i hi => hhost i (mem_cons_of_mem _ hi)) hrest

/-- Names written into one packet with one map, from an empty map on, read back exactly when a
pointer reaches every suffix that is used again. -/
theorem writesNames_iff_inReach (b : Build) {items : List (Bytes × List Text)} (packet : Bytes)
    (hhost : ∀ item ∈ items, HostName item.2) : WritesNames b items packet [] ↔
    InReach items packet [] := by
  constructor
  · rintro ⟨final, spans, h, -⟩
    exact inReach_of_writeNames hhost h
  · intro h
    obtain ⟨final, spans, heq, -, hall⟩ := writeNames_ok b hhost (fun e he => by cases he) h
    exact ⟨final, spans, heq, hall⟩

/-- `a.b`, and behind two other bytes `c.b`. -/
def twoNames : List (Bytes × List Text) :=
    [([], [[0x61], [0x62]]), ([0xFF, 0xFF], [[0x63], [0x62]])]

theorem writesNames_twoNames :
    WritesNames { dnssec := true, lossy := id } twoNames [] [] ↔ InReach twoNames [] [] :=
  writesNames_iff_inReach { dnssec := true, lossy := id } [] (by decide)

/-- The name `a` twice, the first time behind 16384 other bytes. -/
def farNames : List (Bytes × List Text) := [(List.replicate 0x4000 0, [[0x61]]), ([], [[0x61]])]

theorem compressName_a (packet : Bytes) (map : CompressionMap) :
    compressName [0x61] packet map = compressLabels [[0x61]] packet map := by
  rw [compressName, if_neg (by decide), show (([0x61] : Text).rdropWhile (· == dot)).splitOn dot =
    [[0x61]] by decide]

theorem writeNames_twice (between : Bytes) (h : 0x3FFF < between.length) :
    writeNames [(between, [[0x61]]), ([], [[0x61]])] [] [] =
    .err (.invalidOffset between.length (between.length + 3)) := by
  simp only [writeNames, show nameToString [[0x61]] = [0x61] from rfl, compressName_a,
    compressLabels, show joinLabels [[0x61]] = [0x61] from rfl, nil_append, lookup_nil,
    length_singleton, append_nil]
  simp [h]

/-- The second `a` is refused, although it could be written in full. -/
theorem farNames_refused : (∀ item ∈ farNames, HostName item.2) ∧
    writeNames farNames [] [] = .err (.invalidOffset 0x4000 0x4003) := by
  refine ⟨by decide, ?_⟩
  have h := writeNames_twice (List.replicate 0x4000 0) (by rw [length_replicate]; decide)
  rwa [length_replicate] at h

end Dnsmasq.Port
