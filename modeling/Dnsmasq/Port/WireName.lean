import Dnsmasq.Port.Names

/-!
The Rust port: what a name in a packet is, apart from the code that reads it, and that
`extract_name` gives the text of the labels that are there.
-/
namespace Dnsmasq.Port

set_option maxRecDepth 20000

open List Lib Outcome

/-- From `offset` on the packet has a name with the given labels. It ends at `stop`, behind its
final zero or its first compression pointer, and takes `hops` pointers. -/
inductive NameAt (packet : Bytes) : ℕ → List Bytes → ℕ → ℕ → Prop
  | root {offset : ℕ} (h : packet[offset]? = some 0) : NameAt packet offset [] (offset + 1) 0
  | label {offset stop hops : ℕ} {label : Bytes} {labels : List Bytes} (hpos : label ≠ [])
      (hlen : label.length ≤ 63) (hbyte : packet[offset]? = some (UInt8.ofNat label.length))
      (hbytes : (packet.drop (offset + 1)).take label.length = label)
      (h : NameAt packet (offset + 1 + label.length) labels stop hops) :
      NameAt packet offset (label :: labels) stop hops
  | pointer {offset stop hops : ℕ} {labels : List Bytes} {high low : UInt8}
      (hhigh : packet[offset]? = some high) (hpointer : 192 ≤ high.toNat)
      (hlow : packet[offset + 1]? = some low)
      (h : NameAt packet ((high.toNat - 192) * 256 + low.toNat) labels stop hops) :
      NameAt packet offset labels (offset + 2) (hops + 1)

/-- The length that `extract_name` counts. -/
def nameLength (labels : List Bytes) : ℕ := (labels.map fun label => label.length + 1).sum

@[simp] theorem nameLength_cons (label : Bytes) (labels : List Bytes) :
    nameLength (label :: labels) = label.length + 1 + nameLength labels := by
  simp [nameLength]

theorem length_le_nameLength (labels : List Bytes) : labels.length ≤ nameLength labels := by
  induction labels with
  | nil => exact le_rfl
  | cons label labels ih =>
    rw [nameLength_cons, length_cons]
    omega

def decodeLabels (b : Build) : List Bytes → Outcome CompressionError (List Text)
  | [] => .ok []
  | label :: labels => do
      let text ← decodeLabel b label
      let texts ← decodeLabels b labels
      return text :: texts

theorem isPointer_iff (byte : UInt8) : byte &&& compressionPointerMask = compressionPointerMask ↔
    192 ≤ byte.toNat := by
  have h : ∀ n : Fin 256, (UInt8.ofFin n) &&& compressionPointerMask = compressionPointerMask ↔
      192 ≤ (UInt8.ofFin n).toNat := by
    decide
  exact h byte.toFin

theorem isNormal_iff (byte : UInt8) : byte &&& compressionPointerMask = labelTypeNormal ↔
    byte.toNat < 64 := by
  have h : ∀ n : Fin 256, (UInt8.ofFin n) &&& compressionPointerMask = labelTypeNormal ↔
      (UInt8.ofFin n).toNat < 64 := by
    decide
  exact h byte.toFin

theorem toNat_offsetMask (byte : UInt8) :
    (byte &&& compressionOffsetMask).toNat = byte.toNat % 64 := by
  have h : ∀ n : Fin 256, ((UInt8.ofFin n) &&& compressionOffsetMask).toNat =
      (UInt8.ofFin n).toNat % 64 := by
    decide
  exact h byte.toFin

variable {high : UInt8}

theorem pointerOffset_eq (low : UInt8) (h : 192 ≤ high.toNat) :
    ((high &&& compressionOffsetMask).toNat <<< 8) ||| low.toNat =
    (high.toNat - 192) * 256 + low.toNat := by
  have hhigh := high.toNat_lt
  rw [← Nat.shiftLeft_add_eq_or_of_lt low.toNat_lt, toNat_offsetMask]
  omega

variable {label : Bytes}

theorem toNat_labelByte (hlen : label.length ≤ 63) :
    (UInt8.ofNat label.length).toNat = label.length := by
  rw [UInt8.toNat_ofNat', Nat.mod_eq_of_lt (by omega)]

variable {i : ℕ} {byte : UInt8} {ε : Type}

section Steps

variable {b : Build} {packet : Bytes} {extrabytes : ℕ} {w : Walk}

theorem lt_length_of_getElem? (h : packet[i]? = some byte) : i < packet.length :=
  (List.getElem?_eq_some_iff.mp h).1

theorem index_of_getElem? (h : packet[i]? = some byte) :
    (index packet i : Outcome ε UInt8) = .ok byte := by
  rw [index, h]

theorem extractStep_root (h : packet[w.currentOffset]? = some 0)
    (hroom : w.firstJump.getD (w.currentOffset + 1) + extrabytes ≤ packet.length) :
    extractStep b packet extrabytes w =
    .ok (.inr (w.labels, w.firstJump.getD (w.currentOffset + 1))) := by
  simp only [extractStep, decide_eq_true (lt_length_of_getElem? h), check_true, ok_bind,
    index_of_getElem? h, endName, decide_eq_true hroom, if_true, pure_eq]

theorem extractStep_pointer {low : UInt8} (hhigh : packet[w.currentOffset]? = some high)
    (hpointer : 192 ≤ high.toNat)
    (hlow : packet[w.currentOffset + 1]? = some low)
    (htarget : (high.toNat - 192) * 256 + low.toNat < packet.length)
    (hhops : w.hops < maxCompressionHops) : extractStep b packet extrabytes w = .ok (.inl { w with
      currentOffset := (high.toNat - 192) * 256 + low.toNat
      firstJump := some (w.firstJump.getD (w.currentOffset + 2))
      hops := w.hops + 1 }) := by
  have hne : high ≠ 0 := by
    rintro rfl
    simp at hpointer
  simp only [extractStep, decide_eq_true (lt_length_of_getElem? hhigh), check_true, ok_bind,
    index_of_getElem? hhigh,
    if_neg hne, (isPointer_iff high).mpr hpointer, if_true, followPointer,
    decide_eq_true (lt_length_of_getElem? hlow),
    index_of_getElem? hlow, pointerOffset_eq low hpointer, decide_eq_true htarget,
    decide_eq_true (show w.hops + 1 ≤ maxCompressionHops from hhops), pure_eq]

theorem extractStep_label {text : Text} (hpos : label ≠ []) (hlen : label.length ≤ 63)
    (hbyte : packet[w.currentOffset]? = some (UInt8.ofNat label.length))
    (hbytes : (packet.drop (w.currentOffset + 1)).take label.length = label)
    (htotal : w.totalLength + (label.length + 1) < 255) (htext : decodeLabel b label = .ok text) :
    extractStep b packet extrabytes w = .ok (.inl { w with
      labels := w.labels ++ [text]
      currentOffset := w.currentOffset + 1 + label.length
      totalLength := w.totalLength + (label.length + 1) }) := by
  have hnat := toNat_labelByte hlen
  have hne : UInt8.ofNat label.length ≠ 0 := by
    intro h
    rw [h] at hnat
    exact hpos (length_eq_zero_iff.mp hnat.symm)
  have hnot : ¬ labelTypeNormal = compressionPointerMask := by decide
  have hnormal : (UInt8.ofNat label.length) &&& compressionPointerMask = labelTypeNormal := by
    rw [isNormal_iff]
    omega
  have hlength : (UInt8.ofNat label.length &&& compressionOffsetMask).toNat = label.length := by
    rw [toNat_offsetMask]
    omega
  have hroom : w.currentOffset + 1 + label.length ≤ packet.length := by
    have := congrArg List.length hbytes
    simp only [length_take, length_drop] at this
    have := length_pos_iff.mpr hpos
    omega
  have hslice :
      (slice packet (w.currentOffset + 1) (w.currentOffset + 1 + label.length) :
        Outcome CompressionError Bytes) =
      .ok label := by
    rw [slice, if_pos ⟨Nat.le_add_right _ _, hroom⟩, ← take_drop, hbytes]
  simp only [extractStep, decide_eq_true (lt_length_of_getElem? hbyte), check_true, ok_bind,
    index_of_getElem? hbyte,
    if_neg hne, if_neg hnot, hnormal, if_true, takeLabel, hlength, decide_eq_true htotal,
    decide_eq_true hroom, hslice, htext, pure_eq]

end Steps

variable {packet : Bytes} {offset stop hops extrabytes : ℕ} {labels : List Bytes} {b : Build}
    {texts : List Text}

variable {fuel : ℕ}

section

variable (h : NameAt packet offset labels stop hops)
include h

theorem NameAt.start_lt : offset < packet.length := by
  cases h with
  | root h => exact lt_length_of_getElem? h
  | label _ _ hbyte _ _ => exact lt_length_of_getElem? hbyte
  | pointer hhigh _ _ _ => exact lt_length_of_getElem? hhigh

theorem NameAt.loop_eq {w : Walk} (hoffset : w.currentOffset = offset)
    (hhops : w.hops + hops ≤ maxCompressionHops) (htotal : w.totalLength + nameLength labels < 255)
    (hfuel : labels.length + hops < fuel) (htexts : decodeLabels b labels = .ok texts)
    (hroom : w.firstJump.getD stop + extrabytes ≤ packet.length) :
    loop (extractStep b packet extrabytes) fuel w =
    .ok (w.labels ++ texts, w.firstJump.getD stop) := by
  induction h generalizing w fuel texts with
  | root h =>
    subst hoffset
    cases htexts
    obtain ⟨fuel, rfl⟩ := Nat.exists_eq_succ_of_ne_zero (by omega : fuel ≠ 0)
    rw [loop_succ, extractStep_root h hroom, append_nil]
    rfl
  | label hpos hlen hbyte hbytes _ ih =>
    subst hoffset
    obtain ⟨text, htext, htexts⟩ := bind_eq_ok.mp htexts
    obtain ⟨texts', htexts', htexts⟩ := bind_eq_ok.mp htexts
    cases htexts
    rw [nameLength_cons] at htotal
    rw [length_cons] at hfuel
    obtain ⟨fuel, rfl⟩ := Nat.exists_eq_succ_of_ne_zero (by omega : fuel ≠ 0)
    rw [loop_succ, extractStep_label hpos hlen hbyte hbytes (by omega) htext]
    refine Eq.trans (ih ?_ ?_ ?_ ?_ htexts' ?_) ?_
    · rfl
    · exact hhops
    · simp only
      omega
    · omega
    · exact hroom
    · rw [append_assoc]
      rfl
  | pointer hhigh hpointer hlow h ih =>
    subst hoffset
    obtain ⟨fuel, rfl⟩ := Nat.exists_eq_succ_of_ne_zero (by omega : fuel ≠ 0)
    rw [loop_succ, extractStep_pointer hhigh hpointer hlow h.start_lt (by omega)]
    refine Eq.trans (ih ?_ ?_ ?_ ?_ htexts ?_) ?_
    · rfl
    · simp only
      omega
    · exact htotal
    · omega
    · exact hroom
    · rfl

theorem NameAt.extractLabels_eq (hhops : hops ≤ maxCompressionHops)
    (hlength : nameLength labels < 255) (htexts : decodeLabels b labels = .ok texts)
    (hroom : stop + extrabytes ≤ packet.length) : extractLabels b packet offset extrabytes =
    .ok (texts, stop) := by
  have hlabels := length_le_nameLength labels
  have hfuel : labels.length + hops < extractFuel := by
    unfold extractFuel
    omega
  refine h.loop_eq rfl ?_ ?_ hfuel htexts hroom
  · rw [Nat.zero_add]
    exact hhops
  · rw [Nat.zero_add]
    exact hlength

end

section Steps

variable {b : Build} {packet : Bytes} {extrabytes : ℕ} {w w' : Walk} {labelByte : UInt8}

theorem getElem?_of_index (h : (index packet i : Outcome ε UInt8) = .ok byte) :
    packet[i]? = some byte := by
  unfold index at h
  split at h
  · cases h
    assumption
  · cases h

theorem extractStep_inl (h : extractStep b packet extrabytes w = .ok (.inl w')) :
    (∃ high low, packet[w.currentOffset]? = some high ∧ 192 ≤ high.toNat ∧
      packet[w.currentOffset + 1]? = some low ∧
        w' = { w with
          currentOffset := (high.toNat - 192) * 256 + low.toNat
          firstJump := some (w.firstJump.getD (w.currentOffset + 2))
          hops := w.hops + 1 }) ∨
      ∃ label text, label ≠ [] ∧ label.length ≤ 63 ∧
        packet[w.currentOffset]? = some (UInt8.ofNat label.length) ∧
        (packet.drop (w.currentOffset + 1)).take label.length = label ∧
        decodeLabel b label = .ok text ∧
          w' = { w with
            labels := w.labels ++ [text]
            currentOffset := w.currentOffset + 1 + label.length
            totalLength := w.totalLength + (label.length + 1) } := by
  simp only [extractStep, bind_eq_ok] at h
  obtain ⟨-, -, labelByte, hbyte, h⟩ := h
  have hbyte := getElem?_of_index hbyte
  split_ifs at h with hzero hpointer hnormal
  · obtain ⟨r, -, h⟩ := bind_eq_ok.mp h
    cases h
  · obtain ⟨w'', hfollow, h⟩ := bind_eq_ok.mp h
    cases h
    simp only [followPointer, bind_eq_ok] at hfollow
    obtain ⟨-, -, low, hlow, -, -, -, -, hfollow⟩ := hfollow
    cases hfollow
    have hpointer := (isPointer_iff labelByte).mp hpointer
    refine .inl ⟨labelByte, low, hbyte, hpointer, getElem?_of_index hlow, ?_⟩
    rw [pointerOffset_eq low hpointer]
  obtain ⟨w'', htake, h⟩ := bind_eq_ok.mp h
  cases h
  simp only [takeLabel, bind_eq_ok, check_eq_ok, decide_eq_true_eq] at htake
  obtain ⟨-, htotal, -, hroom, label, hslice, text, htext, htake⟩ := htake
  cases htake
  have hlt := (isNormal_iff labelByte).mp hnormal
  have hmask : (labelByte &&& compressionOffsetMask).toNat = labelByte.toNat := by
    rw [toNat_offsetMask]
    omega
  rw [hmask] at htotal hroom hslice
  have hlen := length_of_slice hslice
  rw [slice, if_pos ⟨Nat.le_add_right _ _, hroom⟩, ← take_drop] at hslice
  have hslice : (packet.drop (w.currentOffset + 1)).take labelByte.toNat = label := by
    simpa using hslice
  have hlen : label.length = labelByte.toNat := by omega
  refine .inr ⟨label, text, ?_, by omega, ?_, ?_, htext, ?_⟩
  · rintro rfl
    exact hzero (UInt8.toNat_inj.mp hlen.symm)
  · rw [hbyte, hlen, UInt8.ofNat_toNat]
  · rw [hlen, hslice]
  · rw [hlen, hmask]

theorem extractStep_inr {r : List Text × ℕ} (h : extractStep b packet extrabytes w = .ok (.inr r)) :
    packet[w.currentOffset]? = some 0 ∧ r = (w.labels, w.firstJump.getD (w.currentOffset + 1)) := by
  simp only [extractStep, bind_eq_ok] at h
  obtain ⟨-, -, labelByte, hbyte, h⟩ := h
  split_ifs at h with hzero hpointer hnormal
  · obtain ⟨r', hend, h⟩ := bind_eq_ok.mp h
    cases h
    simp only [endName, bind_eq_ok] at hend
    obtain ⟨-, -, hend⟩ := hend
    cases hend
    exact ⟨hzero ▸ getElem?_of_index hbyte, rfl⟩
  · obtain ⟨w', -, h⟩ := bind_eq_ok.mp h
    cases h
  · obtain ⟨w', -, h⟩ := bind_eq_ok.mp h
    cases h

end Steps

variable {b : Build} {packet : Bytes} {extrabytes stop offset hops : ℕ} {texts : List Text}
    {labels : List Bytes}

theorem exists_nameAt_of_loop {w : Walk}
    (h : loop (extractStep b packet extrabytes) fuel w = .ok (texts, stop)) :
    ∃ labels stop' hops texts', NameAt packet w.currentOffset labels stop' hops ∧
      decodeLabels b labels = .ok texts' ∧ texts = w.labels ++ texts' := by
  induction fuel generalizing w with
  | zero => cases h
  | succ fuel ih =>
    obtain ⟨turn, hturn, h⟩ := bind_eq_ok.mp h
    cases turn with
    | inl w' =>
      obtain ⟨labels, stop', hops, texts', hat, hdecode, htexts⟩ := ih h
      rcases extractStep_inl hturn with ⟨high, low, hhigh, hpointer, hlow, rfl⟩ |
        ⟨label, text, hpos, hlen, hbyte, hbytes, htext, rfl⟩
      · exact ⟨labels, _, _, texts', .pointer hhigh hpointer hlow hat, hdecode, htexts⟩
      refine ⟨label :: labels, _, _, text :: texts', .label hpos hlen hbyte hbytes hat, ?_, ?_⟩
      · rw [decodeLabels, htext, hdecode]
        rfl
      · rw [htexts, append_assoc]
        rfl
    | inr r =>
      cases h
      obtain ⟨hzero, hr⟩ := extractStep_inr hturn
      cases hr
      exact ⟨[], _, _, [], .root hzero, rfl, (append_nil _).symm⟩

theorem exists_nameAt_of_extractLabels
    (h : extractLabels b packet offset extrabytes = .ok (texts, stop)) :
    ∃ labels stop' hops, NameAt packet offset labels stop' hops ∧
      decodeLabels b labels = .ok texts := by
  obtain ⟨labels, stop', hops, texts', hat, hdecode, htexts⟩ := exists_nameAt_of_loop h
  exact ⟨labels, stop', hops, hat, htexts ▸ hdecode⟩

/-- The first byte tells which kind of label a name starts with. -/
theorem NameAt.first
    (h : NameAt packet offset labels stop hops) (hbyte : packet[offset]? = some byte) :
    (byte = 0 ∧ labels = []) ∨
      (0 < byte.toNat ∧ byte.toNat < 64 ∧ ∃ rest stop' hops',
        labels = (packet.drop (offset + 1)).take byte.toNat :: rest ∧
        NameAt packet (offset + 1 + byte.toNat) rest stop' hops') ∨
      (192 ≤ byte.toNat ∧ ∃ low stop' hops', packet[offset + 1]? = some low ∧
        NameAt packet ((byte.toNat - 192) * 256 + low.toNat) labels stop' hops') := by
  cases h with
  | root h =>
    rw [hbyte] at h
    exact .inl ⟨Option.some.inj h, rfl⟩
  | label hpos hlen hlabel hbytes h =>
    rw [hbyte] at hlabel
    have hnat : byte.toNat = _ :=
      (congrArg UInt8.toNat (Option.some.inj hlabel)).trans (toNat_labelByte hlen)
    rw [← hnat] at hbytes h hlen
    refine .inr (.inl ⟨?_, by omega, _, _, _, by rw [hbytes], h⟩)
    rw [hnat]
    exact length_pos_iff.mpr hpos
  | pointer hhigh hpointer hlow h =>
    rw [hbyte] at hhigh
    cases hhigh
    exact .inr (.inr ⟨hpointer, _, _, _, hlow, h⟩)

theorem NameAt.unique {stop' hops' : ℕ} {labels' : List Bytes}
    (h : NameAt packet offset labels stop hops) (h' : NameAt packet offset labels' stop' hops') :
    labels = labels' := by
  induction h generalizing labels' stop' hops' with
  | root h =>
    obtain ⟨-, rfl⟩ | ⟨hpos, -⟩ | ⟨hpointer, -⟩ := h'.first h
    · rfl
    · simp at hpos
    · simp at hpointer
  | label hpos hlen hbyte hbytes _ ih =>
    have hnat := toNat_labelByte hlen
    have hlength := length_pos_iff.mpr hpos
    obtain ⟨hzero, -⟩ | ⟨-, -, rest, _, _, rfl, hrest⟩ | ⟨hpointer, -⟩ := h'.first hbyte
    · rw [hzero, UInt8.toNat_zero] at hnat
      omega
    · rw [hnat] at hrest ⊢
      rw [hbytes, ih hrest]
    · omega
  | pointer hhigh hpointer hlow _ ih =>
    obtain ⟨rfl, -⟩ | ⟨-, hlt, -⟩ | ⟨-, low, _, _, hlow', hrest⟩ := h'.first hhigh
    · simp at hpointer
    · omega
    · rw [hlow] at hlow'
      cases hlow'
      exact ih hrest

end Dnsmasq.Port
