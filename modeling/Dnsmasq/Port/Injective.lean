import Dnsmasq.Port.WireName

/-!
The Rust port: which names print alike. With the feature `dnssec` `decode_label` takes an octet
behind `NAME_ESCAPE` for the escape of another octet, although nothing was escaped on the wire.
-/
namespace Dnsmasq.Port

set_option maxRecDepth 20000

open List Lib Outcome

def toAsciiLowercase (c : UInt8) : UInt8 := if 0x41 ≤ c ∧ c ≤ 0x5A then c + 0x20 else c

def EqIgnoreAsciiCase (s t : Bytes) : Prop := s.map toAsciiLowercase = t.map toAsciiLowercase

instance (s t : Bytes) : Decidable (EqIgnoreAsciiCase s t) :=
  inferInstanceAs (Decidable (s.map toAsciiLowercase = t.map toAsciiLowercase))

def SameLabels (m n : List Bytes) : Prop := m.map (List.map toAsciiLowercase) = n.map
    (List.map toAsciiLowercase)

instance (m n : List Bytes) : Decidable (SameLabels m n) :=
  inferInstanceAs (Decidable (m.map (List.map toAsciiLowercase) =
    n.map (List.map toAsciiLowercase)))

inductive Token where
  | plain (octet : UInt8)
  | escaped (octet : UInt8)
  deriving DecidableEq

namespace Token

def char : Token → UInt8
  | plain octet => octet
  | escaped octet => octet - 1

def octets : Token → Bytes
  | plain octet => [octet]
  | escaped octet => [nameEscape, octet]

def behindEscape : Token → Option UInt8
  | plain _ => none
  | escaped octet => some (toAsciiLowercase octet)

end Token

def tokens : Bytes → List Token
  | [] => []
  | byte :: rest =>
    if byte = nameEscape ∧ rest ≠ [] then
      match rest with
      | [] => []
      | escaped :: rest => .escaped escaped :: tokens rest
    else .plain byte :: tokens rest

theorem tokens_escaped (escaped : UInt8) (rest : Bytes) :
    tokens (nameEscape :: escaped :: rest) = .escaped escaped :: tokens rest := by
  simp [tokens]

theorem tokens_plain {byte : UInt8} {rest : Bytes} (h : ¬ (byte = nameEscape ∧ rest ≠ [])) :
    tokens (byte :: rest) = .plain byte :: tokens rest := by
  rw [tokens.eq_def]
  dsimp only
  rw [if_neg h]

/-- The escapes of two names stand in the same places of the same labels, in front of the same
octets. -/
def SameEscapes (m n : List Bytes) : Prop :=
  m.map (fun label => (tokens label).map Token.behindEscape) = n.map fun label =>
    (tokens label).map Token.behindEscape

instance (m n : List Bytes) : Decidable (SameEscapes m n) :=
  inferInstanceAs (Decidable (m.map (fun label => (tokens label).map Token.behindEscape) =
    n.map fun label => (tokens label).map Token.behindEscape))

theorem flatMap_octets_tokens (label : Bytes) : (tokens label).flatMap Token.octets = label := by
  fun_induction tokens label with
  | case1 => rfl
  | case2 byte h => exact absurd rfl h.2
  | case3 byte escaped rest h ih =>
    rw [flatMap_cons, ih, h.1]
    rfl
  | case4 byte rest h ih =>
    rw [flatMap_cons, ih]
    rfl

theorem decodeEscaped_eq_ok {label : Bytes} {text : Text} (h : decodeEscaped label = .ok text) :
    text = ((tokens label).map Token.char).flatMap pushChar := by
  fun_induction decodeEscaped label generalizing text with
  | case1 =>
    cases h
    rfl
  | case2 byte hesc => exact absurd rfl hesc.2
  | case3 byte escaped rest hesc ih =>
    obtain ⟨result, hresult, h⟩ := bind_eq_ok.mp h
    cases h
    rw [ih hresult, hesc.1]
    rfl
  | case4 byte rest hesc hbad => cases h
  | case5 byte rest hesc hbad ih =>
    obtain ⟨result, hresult, h⟩ := bind_eq_ok.mp h
    cases h
    rw [ih hresult, tokens_plain hesc]
    rfl

variable {c : UInt8} {s t : Bytes} {m n labels : List Bytes} {b : Build}

theorem toAsciiLowercase_eq_nameEscape : toAsciiLowercase c = nameEscape ↔ c = nameEscape := by
  have h : ∀ n : Fin 256, toAsciiLowercase (.ofFin n) = nameEscape ↔
      (UInt8.ofFin n) = nameEscape := by decide
  exact h c.toFin

theorem behindEscape_of_eq {l m : Bytes} (h : EqIgnoreAsciiCase l m) :
    (tokens l).map Token.behindEscape = (tokens m).map Token.behindEscape := by
  fun_induction tokens l generalizing m with
  | case1 =>
    cases m with
    | nil => rfl
    | cons c m => cases h
  | case2 byte hesc => exact absurd rfl hesc.2
  | case3 byte escaped rest hesc ih =>
    obtain _ | ⟨c, _ | ⟨d, m⟩⟩ := m
    · simp [EqIgnoreAsciiCase] at h
    · simp [EqIgnoreAsciiCase] at h
    simp only [EqIgnoreAsciiCase, map_cons, List.cons.injEq] at h
    obtain ⟨hc, hd, hrest⟩ := h
    rw [toAsciiLowercase_eq_nameEscape.mpr hesc.1] at hc
    rw [toAsciiLowercase_eq_nameEscape.mp hc.symm, tokens_escaped, map_cons, map_cons, ih hrest]
    simp only [Token.behindEscape, hd]
  | case4 byte rest hesc ih =>
    cases m with
    | nil => cases h
    | cons c m =>
      simp only [EqIgnoreAsciiCase, map_cons, List.cons.injEq] at h
      obtain ⟨hc, hrest⟩ := h
      have hesc' : ¬ (c = nameEscape ∧ m ≠ []) := by
        rintro ⟨rfl, hm⟩
        refine hesc ⟨toAsciiLowercase_eq_nameEscape.mp hc, ?_⟩
        rintro rfl
        exact hm (map_eq_nil_iff.mp hrest.symm)
      rw [tokens_plain hesc', map_cons, ih hrest]
      rfl

theorem eq_of_char_of_behindEscape
    {s t : List Token} (hesc : s.map Token.behindEscape = t.map Token.behindEscape)
    (hchar : EqIgnoreAsciiCase (s.map Token.char) (t.map Token.char)) :
    EqIgnoreAsciiCase (s.flatMap Token.octets) (t.flatMap Token.octets) := by
  induction s generalizing t with
  | nil =>
    cases t with
    | nil => rfl
    | cons b t => cases hesc
  | cons a s ih =>
    cases t with
    | nil => cases hesc
    | cons b t =>
      simp only [EqIgnoreAsciiCase, map_cons, List.cons.injEq] at hesc hchar
      have hrest := ih hesc.2 hchar.2
      cases a <;> cases b <;>
        simp_all [EqIgnoreAsciiCase, Token.octets, Token.behindEscape, Token.char]

theorem map_pushChar (c : UInt8) : (pushChar c).map toAsciiLowercase = pushChar
    (toAsciiLowercase c) := by
  have h : ∀ n : Fin 256, (pushChar (.ofFin n)).map toAsciiLowercase =
      pushChar (toAsciiLowercase (.ofFin n)) := by
    decide
  exact h c.toFin

def popChar : Text → UInt8
  | [a, b] => (a <<< 6) ||| (b &&& 0x3F)
  | a :: _ => a
  | [] => 0

theorem popChar_pushChar (c : UInt8) : popChar (pushChar c) = c := by
  have h : ∀ n : Fin 256, popChar (pushChar (.ofFin n)) = UInt8.ofFin n := by decide
  exact h c.toFin

theorem length_pushChar (c : UInt8) :
    (pushChar c).length = if (pushChar c).headD 0 < 0x80 then 1 else 2 := by
  have h : ∀ n : Fin 256, (pushChar (.ofFin n)).length = if (pushChar (.ofFin n)).headD 0 < 0x80
      then 1 else 2 := by
    decide
  exact h c.toFin

theorem pushChar_ne_nil (c : UInt8) : pushChar c ≠ [] := by
  unfold pushChar
  split <;> simp

theorem pushChar_append_inj {d : UInt8} {s t : Text} (h : pushChar c ++ s = pushChar d ++ t) :
    c = d ∧ s = t := by
  have hhead : (pushChar c).headD 0 = (pushChar d).headD 0 := by
    obtain ⟨a, s', hs⟩ := exists_cons_of_ne_nil (pushChar_ne_nil c)
    obtain ⟨b, t', ht⟩ := exists_cons_of_ne_nil (pushChar_ne_nil d)
    rw [hs, ht] at h ⊢
    exact (List.cons.inj h).1
  have hlen : (pushChar c).length = (pushChar d).length := by
    rw [length_pushChar, length_pushChar, hhead]
  obtain ⟨hc, hs⟩ := append_inj h hlen
  exact ⟨by rw [← popChar_pushChar c, hc, popChar_pushChar], hs⟩

theorem flatMap_pushChar_inj (h : s.flatMap pushChar = t.flatMap pushChar) : s = t := by
  induction s generalizing t with
  | nil =>
    cases t with
    | nil => rfl
    | cons d t => simp [pushChar_ne_nil] at h
  | cons c s ih =>
    cases t with
    | nil => simp [pushChar_ne_nil] at h
    | cons d t =>
      obtain ⟨rfl, hrest⟩ := pushChar_append_inj h
      rw [ih hrest]

theorem eq_of_flatMap_pushChar (h : EqIgnoreAsciiCase (s.flatMap pushChar) (t.flatMap pushChar)) :
    EqIgnoreAsciiCase s t := by
  apply flatMap_pushChar_inj
  simpa only [EqIgnoreAsciiCase, map_flatMap, map_pushChar, ← flatMap_map] using h

def printed (labels : List Bytes) : Bytes :=
    labels.flatMap fun label => (tokens label).map Token.char ++ [dot]

theorem sameLabels_of_printed (hesc : SameEscapes m n)
    (hprint : EqIgnoreAsciiCase (printed m) (printed n)) :
    SameLabels m n := by
  induction m generalizing n with
  | nil =>
    cases n with
    | nil => rfl
    | cons l n => simp [SameEscapes] at hesc
  | cons k m ih =>
    cases n with
    | nil => simp [SameEscapes] at hesc
    | cons l n =>
      simp only [SameEscapes, map_cons, List.cons.injEq] at hesc
      simp only [EqIgnoreAsciiCase, printed, flatMap_cons, map_append] at hprint
      have hlen : (tokens k).length = (tokens l).length := by
        simpa using congrArg List.length hesc.1
      obtain ⟨hfirst, hrest⟩ := append_inj hprint (by simp [hlen])
      obtain ⟨hchars, -⟩ := append_inj hfirst (by simp [hlen])
      have hlabel := eq_of_char_of_behindEscape hesc.1 hchars
      rw [flatMap_octets_tokens, flatMap_octets_tokens] at hlabel
      have htail : SameLabels m n := ih hesc.2 hrest
      simp only [SameLabels, map_cons, List.cons.injEq]
      exact ⟨hlabel, htail⟩

theorem sameEscapes_of_sameLabels (h : SameLabels m n) : SameEscapes m n := by
  induction m generalizing n with
  | nil =>
    cases n with
    | nil => rfl
    | cons l n => simp [SameLabels] at h
  | cons k m ih =>
    cases n with
    | nil => simp [SameLabels] at h
    | cons l n =>
      simp only [SameLabels, SameEscapes, map_cons, List.cons.injEq] at h ⊢
      exact ⟨behindEscape_of_eq h.1, ih h.2⟩

theorem decodeLabels_eq_ok (hb : b.dnssec) {texts : List Text}
    (h : decodeLabels b labels = .ok texts) :
    texts = labels.map fun label => ((tokens label).map Token.char).flatMap pushChar := by
  induction labels generalizing texts with
  | nil =>
    cases h
    rfl
  | cons label labels ih =>
    obtain ⟨text, htext, h⟩ := bind_eq_ok.mp h
    obtain ⟨texts', htexts, h⟩ := bind_eq_ok.mp h
    cases h
    rw [decodeLabel, if_pos hb] at htext
    rw [map_cons, ← decodeEscaped_eq_ok htext, ih htexts]

theorem nameToString_append_dot (h : labels ≠ []) :
    nameToString (labels.map fun label => ((tokens label).map Token.char).flatMap pushChar) ++
    [dot] =
      (printed labels).flatMap pushChar := by
  have hdot : pushChar dot = [dot] := rfl
  rw [nameToString, if_neg (by simpa using h)]
  induction labels with
  | nil => exact absurd rfl h
  | cons label labels ih =>
    cases labels with
    | nil => simp [printed, hdot]
    | cons label' labels =>
      have hrest := ih (cons_ne_nil _ _)
      simp only [printed, map_cons, flatMap_cons, flatMap_append] at hrest ⊢
      rw [intercalate_cons_cons, append_assoc, hrest]
      simp [hdot]

theorem extractName_eq_ok (hb : b.dnssec) {packet : Bytes} {offset extrabytes stop stop' hops : ℕ}
    {name : Text} (h : extractName b packet offset extrabytes = .ok (name, stop))
    (hlabels : NameAt packet offset labels stop' hops) :
    name = nameToString (labels.map fun label =>
      ((tokens label).map Token.char).flatMap pushChar) := by
  obtain ⟨⟨texts, _⟩, htexts, h⟩ := bind_eq_ok.mp h
  cases h
  obtain ⟨labels', _, _, hat, hdecode⟩ := exists_nameAt_of_extractLabels (mapErr_eq_ok.mp htexts)
  rw [hlabels.unique hat, decodeLabels_eq_ok hb hdecode]

/-- Two names that print alike have the same labels exactly when their escapes agree. -/
theorem sameLabels_iff_sameEscapes {b : Build} (hb : b.dnssec) {packet packet' : Bytes}
    {offset offset' extrabytes extrabytes' stop stop' : ℕ} {name name' : Text}
    {labels labels' : List Bytes} {last last' hops hops' : ℕ}
    (h : extractName b packet offset extrabytes = .ok (name, stop))
    (h' : extractName b packet' offset' extrabytes' = .ok (name', stop'))
    (hlabels : NameAt packet offset labels last hops)
    (hlabels' : NameAt packet' offset' labels' last' hops')
    (hprint : EqIgnoreAsciiCase name name') : SameLabels labels labels' ↔
    SameEscapes labels labels' := by
  refine ⟨sameEscapes_of_sameLabels, fun hesc => ?_⟩
  by_cases hroot : labels = []
  · subst hroot
    cases labels' with
    | nil => rfl
    | cons l n => simp [SameEscapes] at hesc
  have hroot' : labels' ≠ [] := by
    rintro rfl
    simp [SameEscapes, hroot] at hesc
  apply sameLabels_of_printed hesc
  apply eq_of_flatMap_pushChar
  rw [← nameToString_append_dot hroot, ← nameToString_append_dot hroot',
    ← extractName_eq_ok hb h hlabels, ← extractName_eq_ok hb h' hlabels']
  simpa [EqIgnoreAsciiCase] using hprint

/-- The name `a`. -/
def plainPacket : Bytes := [1, 0x61, 0]

/-- The name of one label, the octets `NAME_ESCAPE` and `b`. -/
def escapedPacket : Bytes := [2, 1, 0x62, 0]

def dnssecBuild : Build := { dnssec := true, lossy := id }

theorem nameAt_plainPacket : NameAt plainPacket 0 [[0x61]] 3 0 :=
  .label (by simp) (by decide) rfl rfl (.root rfl)

theorem nameAt_escapedPacket : NameAt escapedPacket 0 [[1, 0x62]] 4 0 :=
  .label (by simp) (by decide) rfl rfl (.root rfl)

/-- The name `A`, behind an octet that is not part of it. -/
def capitalPacket : Bytes := [7, 1, 0x41, 0]

theorem nameAt_capitalPacket : NameAt capitalPacket 1 [[0x41]] 4 0 :=
  .label (by simp) (by decide) rfl rfl (.root rfl)

theorem sameLabels_plainPacket : SameLabels [[0x61]] [[0x41]] := by
  have hplain : extractName dnssecBuild plainPacket 0 0 = .ok ([0x61], 3) := rfl
  have hcapital : extractName dnssecBuild capitalPacket 1 0 = .ok ([0x41], 4) := rfl
  exact (sameLabels_iff_sameEscapes (b := dnssecBuild) rfl hplain hcapital nameAt_plainPacket
    nameAt_capitalPacket rfl).mpr (by decide)

/-- Both print as `a`. -/
theorem escaped_prints_as_plain :
    extractName dnssecBuild plainPacket 0 0 = .ok ([0x61], 3) ∧
    extractName dnssecBuild escapedPacket 0 0 = .ok ([0x61], 4) ∧
      NameAt plainPacket 0 [[0x61]] 3 0 ∧ NameAt escapedPacket 0 [[1, 0x62]] 4 0 ∧
      ¬ SameLabels [[0x61]] [[1, 0x62]] :=
  ⟨rfl, rfl, nameAt_plainPacket, nameAt_escapedPacket, by decide⟩

end Dnsmasq.Port
