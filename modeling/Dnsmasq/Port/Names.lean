import Dnsmasq.Port.Message
import Mathlib.Data.List.DropRight

/-!
The Rust port: `extract_name` of `dns/compression.rs` and `serialize_name` of `dns/protocol.rs`.
-/
namespace Dnsmasq.Port

open Option Lib Outcome

def isContinuation (b : UInt8) : Bool := 0x80 ≤ b && b ≤ 0xBF

/-- The bytes that `String::from_utf8` accepts. -/
def isUtf8 : Bytes → Bool
  | [] => true
  | a :: rest =>
    if a < 0x80 then isUtf8 rest
    else if 0xC2 ≤ a && a ≤ 0xDF then
      match rest with
      | b :: rest => isContinuation b && isUtf8 rest
      | _ => false
    else if 0xE0 ≤ a && a ≤ 0xEF then
      match rest with
      | b :: c :: rest =>
        isContinuation b && (a != 0xE0 || 0xA0 ≤ b) && (a != 0xED || b ≤ 0x9F) &&
          isContinuation c && isUtf8 rest
      | _ => false
    else if 0xF0 ≤ a && a ≤ 0xF4 then
      match rest with
      | b :: c :: d :: rest =>
        isContinuation b && (a != 0xF0 || 0x90 ≤ b) && (a != 0xF4 || b ≤ 0x8F) &&
          isContinuation c && isContinuation d && isUtf8 rest
      | _ => false
    else false

/-- What a build of the port fixes: the feature `dnssec`, and what `String::from_utf8_lossy`
puts in the place of bytes that are not UTF-8. -/
structure Build where
  dnssec : Bool
  lossy : Bytes → Text

def Build.fromUtf8Lossy (b : Build) (data : Bytes) : Text := if isUtf8 data then data
    else b.lossy data

theorem isUtf8_of_ascii {data : Bytes} (h : ∀ c ∈ data, c < 0x80) : isUtf8 data := by
  induction data with
  | nil => rfl
  | cons a rest ih =>
    unfold isUtf8
    rw [if_pos (h a List.mem_cons_self)]
    exact ih fun c hc => h c (List.mem_cons_of_mem a hc)

def dot : UInt8 := 0x2E

def nameEscape : UInt8 := 0x01

/-- `push(byte as char)` -/
def pushChar (byte : UInt8) : Text := if byte < 0x80 then [byte]
    else [(0xC0 : UInt8) ||| (byte >>> 6), (0x80 : UInt8) ||| (byte &&& 0x3F)]

/-- `decode_label` with the feature `dnssec`. -/
def decodeEscaped : Bytes → Outcome CompressionError Text
  | [] => .ok []
  | byte :: rest =>
    if byte = nameEscape ∧ rest ≠ [] then
      match rest with
      | [] => .ok []
      | escaped :: rest => do
          let result ← decodeEscaped rest
          return pushChar (escaped - 1) ++ result
    else if byte = 0 ∨ byte = dot then .err (.invalidLabelType byte)
    else do
      let result ← decodeEscaped rest
      return pushChar byte ++ result

/-- `decode_label` without it. -/
def decodePlain (b : Build) (labelBytes : Bytes) : Outcome CompressionError Text :=
  match labelBytes.find? fun byte => byte == 0 || byte == dot with
  | some byte => .err (.invalidLabelType byte)
  | none => .ok (b.fromUtf8Lossy labelBytes)

def decodeLabel (b : Build) (labelBytes : Bytes) : Outcome CompressionError Text :=
  if b.dnssec then decodeEscaped labelBytes else decodePlain b labelBytes

def compressionPointerMask : UInt8 := 0xC0
def compressionOffsetMask : UInt8 := 0x3F
def labelTypeNormal : UInt8 := 0x00
def maxCompressionHops : ℕ := 255

/-- The variables of the loop of `extract_name`. -/
structure Walk where
  labels : List Text
  currentOffset : ℕ
  firstJump : Option ℕ
  hops : ℕ
  totalLength : ℕ

section Steps

variable (b : Build) (packet : Bytes) (extrabytes : ℕ)

def endName (w : Walk) : Outcome CompressionError (List Text × ℕ) := do
  let finalOffset := w.firstJump.getD w.currentOffset
  check (decide (finalOffset + extrabytes ≤ packet.length))
    (.packetTooShort finalOffset extrabytes packet.length)
  return (w.labels, finalOffset)

def followPointer (labelByte : UInt8) (w : Walk) : Outcome CompressionError Walk := do
  check (decide (w.currentOffset < packet.length)) (.packetTooShort w.currentOffset 1 packet.length)
  let second ← index packet w.currentOffset
  let pointerOffset := ((labelByte &&& compressionOffsetMask).toNat <<< 8) ||| second.toNat
  let firstJump := w.firstJump.getD (w.currentOffset + 1)
  check (decide (pointerOffset < packet.length)) (.invalidOffset pointerOffset packet.length)
  check (decide (w.hops + 1 ≤ maxCompressionHops)) .tooManyHops
  return { w with currentOffset := pointerOffset, firstJump := some firstJump, hops := w.hops + 1 }

def takeLabel (labelByte : UInt8) (w : Walk) : Outcome CompressionError Walk := do
  let labelLength := (labelByte &&& compressionOffsetMask).toNat
  let totalLength := w.totalLength + (labelLength + 1)
  check (decide (totalLength < 255)) (.nameTooLong totalLength)
  check (decide (w.currentOffset + labelLength ≤ packet.length))
    (.packetTooShort w.currentOffset labelLength packet.length)
  let labelBytes ← slice packet w.currentOffset (w.currentOffset + labelLength)
  let label ← decodeLabel b labelBytes
  return { w with labels := w.labels ++ [label], currentOffset := w.currentOffset + labelLength,
                  totalLength }

def extractStep (w : Walk) : Outcome CompressionError (Walk ⊕ List Text × ℕ) := do
  check (decide (w.currentOffset < packet.length)) (.packetTooShort w.currentOffset 1 packet.length)
  let labelByte ← index packet w.currentOffset
  let w := { w with currentOffset := w.currentOffset + 1 }
  if labelByte = 0 then do
    let r ← endName packet extrabytes w
    return .inr r
  else if labelByte &&& compressionPointerMask = compressionPointerMask then do
    let w ← followPointer packet labelByte w
    return .inl w
  else if labelByte &&& compressionPointerMask = labelTypeNormal then do
    let w ← takeLabel b packet labelByte w
    return .inl w
  else .err (.invalidLabelType labelByte)

end Steps

def extractFuel : ℕ := maxCompressionHops + 255 + 1

/-- The labels of the name at `offset`, and the offset behind it. -/
def extractLabels (b : Build) (packet : Bytes) (offset extrabytes : ℕ) :
    Outcome CompressionError (List Text × ℕ) :=
  loop (extractStep b packet extrabytes) extractFuel
    { labels := [], currentOffset := offset, firstJump := none, hops := 0, totalLength := 0 }

def nameToString (labels : List Text) : Text := if labels.isEmpty then [dot]
    else [dot].intercalate labels

def extractName (b : Build) (packet : Bytes) (offset extrabytes : ℕ) : Parse (Text × ℕ) := do
  let (labels, offset) ← (extractLabels b packet offset extrabytes).mapErr .from
  return (nameToString labels, offset)

theorem safe_decodeEscaped (labelBytes : Bytes) : (decodeEscaped labelBytes).Safe := by
  fun_induction decodeEscaped labelBytes with
  | case1 => exact safe_ok _
  | case2 => exact safe_ok _
  | case3 byte escaped rest h ih => exact ih.bind fun _ _ => safe_ok _
  | case4 byte rest h h' => exact safe_err _
  | case5 byte rest h h' ih => exact ih.bind fun _ _ => safe_ok _

theorem safe_decodeLabel (b : Build) (labelBytes : Bytes) : (decodeLabel b labelBytes).Safe := by
  unfold decodeLabel decodePlain
  split
  · exact safe_decodeEscaped labelBytes
  · split <;> nofun

/-- What the loop keeps: until the first jump it moves forward from `start`, and it returns to
the place of the first jump, inside the packet. -/
structure Walk.Inside (packet : Bytes) (start : ℕ) (w : Walk) : Prop where
  hops : w.hops ≤ maxCompressionHops
  total : w.totalLength < 255
  final : start ≤ w.firstJump.getD w.currentOffset
  jumped : ∀ j, w.firstJump = some j → start < j ∧ j ≤ packet.length

def Walk.left (w : Walk) : ℕ := (maxCompressionHops - w.hops) + (255 - w.totalLength)

section Steps

variable {b : Build} {packet : Bytes} {extrabytes start : ℕ} {w w' : Walk} {labelByte : UInt8}

theorem safe_followPointer : (followPointer packet labelByte w).Safe := by
  refine (safe_check _ _).bind fun _ hlt => (safe_index ?_).bind fun _ _ =>
    (safe_check _ _).bind fun _ _ =>
    (safe_check _ _).bind fun _ _ => safe_ok _
  simpa using check_eq_ok.mp hlt

theorem safe_takeLabel : (takeLabel b packet labelByte w).Safe := by
  refine (safe_check _ _).bind fun _ _ => (safe_check _ _).bind fun _ hle =>
    (safe_slice_iff.mpr ?_).bind fun _ _ =>
    (safe_decodeLabel b _).bind fun _ _ => safe_ok _
  have hle := check_eq_ok.mp hle
  simp only [decide_eq_true_eq] at hle
  omega

theorem safe_extractStep : (extractStep b packet extrabytes w).Safe := by
  refine (safe_check _ _).bind fun _ hlt => (safe_index ?_).bind fun labelByte _ => ?_
  · simpa using check_eq_ok.mp hlt
  split_ifs
  · exact Safe.bind ((safe_check _ _).bind fun _ _ => safe_ok _) fun _ _ => safe_ok _
  · exact safe_followPointer.bind fun _ _ => safe_ok _
  · exact safe_takeLabel.bind fun _ _ => safe_ok _
  · exact safe_err _

theorem followPointer_inside (hw : w.Inside packet start) (hstart : w.firstJump = none →
    start < w.currentOffset)
    (h : followPointer packet labelByte w = .ok w') : w'.Inside packet start ∧
    w'.left < w.left := by
  simp only [followPointer, bind_eq_ok, check_eq_ok, decide_eq_true_eq] at h
  obtain ⟨-, hlt, second, -, -, -, -, hhops, h⟩ := h
  cases h
  refine ⟨⟨hhops, hw.total, ?_, ?_⟩, ?_⟩
  · cases hjump : w.firstJump with
    | none => simpa using (hstart hjump).le.trans (Nat.le_succ _)
    | some j => simpa using (hw.jumped j hjump).1.le
  · intro j hj
    cases hjump : w.firstJump with
    | none =>
      have := hstart hjump
      simp only [hjump, getD_none, Option.some.injEq] at hj
      omega
    | some j' =>
      simp only [hjump, getD_some, Option.some.injEq] at hj
      exact hj ▸ hw.jumped j' hjump
  · simp only [Walk.left]
    omega

theorem Walk.Inside.start_le (hw : w.Inside packet start) {n : ℕ} (h : w.currentOffset ≤ n) :
    start ≤ w.firstJump.getD n := by
  have hfinal := hw.final
  cases hjump : w.firstJump with
  | none =>
    simp only [hjump, getD_none] at hfinal ⊢
    omega
  | some j => simpa [hjump] using hfinal

theorem takeLabel_inside (hw : w.Inside packet start)
    (h : takeLabel b packet labelByte w = .ok w') : w'.Inside packet start ∧ w'.left < w.left := by
  simp only [takeLabel, bind_eq_ok, check_eq_ok, decide_eq_true_eq] at h
  obtain ⟨-, htotal, -, -, labelBytes, -, label, -, h⟩ := h
  cases h
  refine ⟨⟨hw.hops, htotal, hw.start_le (Nat.le_add_right _ _), hw.jumped⟩, ?_⟩
  simp only [Walk.left]
  omega

theorem extractStep_cases {turn : Walk ⊕ List Text × ℕ}
    (h : extractStep b packet extrabytes w = .ok turn) : w.currentOffset < packet.length ∧
      ((∃ r, turn = .inr r ∧
        endName packet extrabytes { w with currentOffset := w.currentOffset + 1 } = .ok r) ∨
        ∃ labelByte w', turn = .inl w' ∧
          (followPointer packet labelByte { w with currentOffset := w.currentOffset + 1 } = .ok w' ∨
            takeLabel b packet labelByte { w with currentOffset := w.currentOffset + 1 } =
            .ok w')) := by
  simp only [extractStep, bind_eq_ok, check_eq_ok, decide_eq_true_eq] at h
  obtain ⟨-, hlt, labelByte, -, h⟩ := h
  refine ⟨hlt, ?_⟩
  split_ifs at h
  · obtain ⟨r, hr, h⟩ := bind_eq_ok.mp h
    cases h
    exact .inl ⟨r, rfl, hr⟩
  · obtain ⟨w', hw', h⟩ := bind_eq_ok.mp h
    cases h
    exact .inr ⟨labelByte, w', rfl, .inl hw'⟩
  · obtain ⟨w', hw', h⟩ := bind_eq_ok.mp h
    cases h
    exact .inr ⟨labelByte, w', rfl, .inr hw'⟩

theorem Walk.Inside.next (hw : w.Inside packet start) :
    Walk.Inside packet start { w with currentOffset := w.currentOffset + 1 } :=
  ⟨hw.hops, hw.total, hw.start_le (Nat.le_succ _), hw.jumped⟩

theorem extractStep_inside (hw : w.Inside packet start) (h : extractStep b packet extrabytes w =
    .ok (.inl w')) : w'.Inside packet start ∧ w'.left < w.left := by
  obtain ⟨-, ⟨r, hr, -⟩ | ⟨labelByte, w'', hw'', hstep⟩⟩ := extractStep_cases h
  · cases hr
  cases hw''
  rcases hstep with hstep | hstep
  · refine followPointer_inside (w := { w with currentOffset := w.currentOffset + 1 })
      hw.next (fun hnone => ?_) hstep
    have hfinal := hw.final
    simp only [show w.firstJump = none from hnone, getD_none] at hfinal
    simp only
    omega
  · exact takeLabel_inside (w := { w with currentOffset := w.currentOffset + 1 }) hw.next hstep

end Steps

theorem Walk.inside_start (packet : Bytes) (offset : ℕ) :
    Walk.Inside packet offset { labels := [], currentOffset := offset, firstJump := none, hops := 0,
                                totalLength := 0 } :=
  ⟨Nat.zero_le _, by simp, le_refl _, nofun⟩

@[simp] theorem safe_extractName (b : Build) (packet : Bytes) (offset extrabytes : ℕ) :
    (extractName b packet offset extrabytes).Safe := by
  apply Safe.bind _ fun _ _ => safe_ok _
  rw [safe_mapErr_iff]
  exact safe_loop (Walk.Inside packet offset) Walk.left (fun _ _ => safe_extractStep)
    (fun _ _ => extractStep_inside) (Walk.inside_start packet offset) (Nat.lt_succ_self _)

theorem extractName_bounds {b : Build} {packet : Bytes} {offset extrabytes stop : ℕ} {name : Text}
    (h : extractName b packet offset extrabytes = .ok (name, stop)) : offset < stop ∧
    stop + extrabytes ≤ packet.length := by
  obtain ⟨⟨labels, stop'⟩, hlabels, h⟩ := bind_eq_ok.mp h
  cases h
  obtain ⟨w, hw, hexit⟩ := exit_of_loop (fun _ _ hw h => (extractStep_inside hw h).1)
    (Walk.inside_start packet offset) (mapErr_eq_ok.mp hlabels)
  obtain ⟨hlt, ⟨r, hr, hend⟩ | ⟨labelByte, w', hw', -⟩⟩ := extractStep_cases hexit
  · cases hr
    simp only [endName, bind_eq_ok, check_eq_ok, decide_eq_true_eq] at hend
    obtain ⟨-, hfits, hend⟩ := hend
    cases hend
    refine ⟨?_, hfits⟩
    have hfinal := hw.final
    cases hjump : w.firstJump with
    | none =>
      simp only [hjump, getD_none] at hfinal ⊢
      omega
    | some j => simpa [hjump] using (hw.jumped j hjump).1
  · cases hw'

end Dnsmasq.Port
