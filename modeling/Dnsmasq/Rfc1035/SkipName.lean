import Dnsmasq.Lib.StepLoop
import Dnsmasq.Dns.Compare
import Dnsmasq.Dnssec.Nsec3

/-!
The two readers of names, `extract_name` and `skip_name`, as loops of steps: they come to an end,
they read nothing behind the message, and the second stops where the first does.
-/
namespace Dnsmasq.Rfc1035

open Dns StepLoop Packet
open Dnssec.Nsec3 (skipLoop skipName)

/-- The variables of `extract_name`; `acc` is `cp` or what has been compared. -/
structure Cursor (α : Type) where
  p : ℕ
  p1 : Option ℕ
  namelen : ℕ
  hops : ℕ
  acc : α

def Cursor.start {α : Type} (p : ℕ) (acc : α) : Cursor α := ⟨p, none, 0, 0, acc⟩

section Step

variable {α β : Type} (pkt : Packet) (label : α → Label → Option α) (finish : α →
  β) (extrabytes : ℕ)

/-- One turn of the loop of `extract_name`, up to what it does with a label and at the end. -/
def nameStep (s : Cursor α) : Cursor α ⊕ Option (β × ℕ) :=
  if !pkt.checkLen s.p 1 then .inr none
  else
    let l := pkt.get s.p
    let p := s.p + 1
    if l = 0 then
      if !pkt.checkLen (s.p1.getD p) extrabytes then .inr none
      else .inr (some (finish s.acc, s.p1.getD p))
    else if l &&& 0xc0 = 0xc0 then
      if !pkt.checkLen p 1 then .inr none
      else if 255 < s.hops + 1 then .inr none
      else
        .inl ⟨(l &&& 0x3f) * 256 + pkt.get p, some (s.p1.getD (p + 1)), s.namelen,
          s.hops + 1, s.acc⟩
    else if l &&& 0xc0 = 0 then
      if maxdname ≤ s.namelen + l + 1 then .inr none
      else if !pkt.checkLen p l then .inr none
      else
        match label s.acc (pkt.bytes p l) with
        | none => .inr none
        | some acc => .inl ⟨p + l, s.p1, s.namelen + l + 1, s.hops, acc⟩
    else .inr none

end Step

/-- A turn of `extract_name` with `isExtract` 1. -/
def textStep (pkt : Packet) (dnssecValid : Bool) (extrabytes : ℕ) : Cursor CString →
    Cursor CString ⊕ Option (CString × ℕ) :=
  nameStep pkt (fun cp l => (labelText dnssecValid l).map fun s => cp ++ s ++ [dot])
    List.dropLast extrabytes

/-- A turn of `extract_name` with `isExtract` 0. -/
def compareStep (pkt : Packet) (dnssecValid : Bool) (str : ℕ → UInt8) (extrabytes : ℕ) :
    Cursor (ℕ × Bool) → Cursor (ℕ × Bool) ⊕ Option (Bool × ℕ) :=
  nameStep pkt (fun s l => some (matchLabel dnssecValid str s l)) (matchEnd str) extrabytes

/-- A turn of `skip_name`. -/
def skipStep (pkt : Packet) (ansp : ℕ) : ℕ ⊕ Option ℕ :=
  if !pkt.checkLen ansp 1 then .inr none
  else if pkt.get ansp &&& 0xc0 = 0xc0 then .inr (some (ansp + 2))
  else if pkt.get ansp &&& 0xc0 = 0x80 then .inr none
  else if pkt.get ansp &&& 0xc0 = 0x40 then
    if !pkt.checkLen ansp 2 then .inr none
    else if pkt.get ansp &&& 0x3f ≠ 1 then .inr none
    else
      let count := pkt.get (ansp + 1)
      .inl (ansp + 2 + if count = 0 then 32 else (count - 1) >>> 3 + 1)
  else
    let len := pkt.get ansp &&& 0x3f
    if !pkt.checkLen (ansp + 1) len then .inr none
    else if len = 0 then .inr (some (ansp + 1))
    else .inl (ansp + 1 + len)

variable {fuel p ansp : ℕ}

section Loops

variable {pkt : Packet} {dnssecValid : Bool} {str : ℕ → UInt8} {extrabytes : ℕ}

variable {namelen hops : ℕ} {p1 : Option ℕ}

theorem textLoop_eq_runLoop {cp : CString} :
    pkt.textLoop dnssecValid extrabytes fuel p p1 namelen hops cp =
      (runLoop (textStep pkt dnssecValid extrabytes) fuel ⟨p, p1, namelen, hops, cp⟩).join := by
  induction fuel generalizing p p1 namelen hops cp with
  | zero => rfl
  | succ fuel ih =>
    rw [textLoop, runLoop, textStep, nameStep]
    dsimp only
    split_ifs with h1 h2 h3 h4 h5 h6 h7 h8 h9
    · rfl
    · rfl
    · rfl
    · rfl
    · rfl
    · exact ih
    · rfl
    · rfl
    · cases labelText dnssecValid (pkt.bytes (p + 1) (pkt.get p)) with
      | none => rfl
      | some s => exact ih
    · rfl

theorem compareLoop_eq_runLoop {s : ℕ × Bool} :
    pkt.compareLoop dnssecValid str extrabytes fuel p p1 namelen hops s =
      (runLoop (compareStep pkt dnssecValid str extrabytes) fuel ⟨p, p1, namelen, hops,
        s⟩).join := by
  induction fuel generalizing p p1 namelen hops s with
  | zero => rfl
  | succ fuel ih =>
    rw [compareLoop, runLoop, compareStep, nameStep]
    dsimp only
    split_ifs with h1 h2 h3 h4 h5 h6 h7 h8 h9
    · rfl
    · rfl
    · rfl
    · rfl
    · rfl
    · exact ih
    · rfl
    · rfl
    · exact ih
    · rfl

theorem skipLoop_eq_runLoop : skipLoop pkt fuel ansp = (runLoop (skipStep pkt) fuel ansp).join := by
  induction fuel generalizing ansp with
  | zero => rfl
  | succ fuel ih =>
    rw [skipLoop, runLoop, skipStep]
    dsimp only
    split_ifs
    · rfl
    · rfl
    · rfl
    · rfl
    · rfl
    · exact ih
    · exact ih
    · rfl
    · rfl
    · exact ih

end Loops

section Termination

variable {α β : Type} {pkt : Packet} {label : α → Label → Option α} {finish : α →
  β} {extrabytes : ℕ}

structure Cursor.Within (s : Cursor α) : Prop where
  namelen : s.namelen < maxdname
  hops : s.hops ≤ 255

def Cursor.left (s : Cursor α) : ℕ := (255 - s.hops) + (maxdname - s.namelen)

theorem nameStep_left {s s' : Cursor α} (hs : s.Within)
    (h : nameStep pkt label finish extrabytes s = .inl s') : s'.Within ∧ s'.left < s.left := by
  obtain ⟨hlen, hhops⟩ := hs
  rw [nameStep] at h
  dsimp only at h
  split_ifs at h with h1 h2 h3 h4 h5 h6 h7 h8 h9
  · cases h
    have hhop : s.hops + 1 ≤ 255 := by omega
    refine ⟨⟨hlen, hhop⟩, ?_⟩
    dsimp only [Cursor.left]
    omega
  split at h
  · cases h
  cases h
  have hroom : s.namelen + pkt.get s.p + 1 < maxdname := by omega
  refine ⟨⟨hroom, hhops⟩, ?_⟩
  dsimp only [Cursor.left]
  omega

variable (pkt label finish extrabytes) in
theorem nameStep_exits (p : ℕ) (acc : α) :
    ∃ r, runLoop (nameStep pkt label finish extrabytes) (256 + maxdname)
      (.start p acc) = some r := by
  have hroom : 0 < maxdname := by decide
  have hstart : (Cursor.start p acc).Within := ⟨hroom, Nat.zero_le _⟩
  apply runLoop_exits Cursor.Within Cursor.left _ hstart
  · dsimp only [Cursor.left, Cursor.start]
    omega
  · intro s s' hs h
    exact nameStep_left hs h

theorem skipStep_left {ansp' : ℕ} (h : skipStep pkt ansp = .inl ansp') :
    pkt.plen - ansp' < pkt.plen - ansp := by
  rw [skipStep] at h
  dsimp only at h
  split_ifs at h with h1 h2 h3 h4 h5 h6 h7 h8 h9 <;> cases h <;>
    simp only [checkLen, Bool.not_eq_true', decide_eq_false_iff_not, not_not] at h1 <;> omega

theorem skipStep_exits (pkt : Packet) (ansp : ℕ) :
    ∃ r, runLoop (skipStep pkt) (pkt.plen + 1) ansp = some r := by
  apply runLoop_exits (fun _ => True) (pkt.plen - ·) _ trivial (by omega)
  intro s s' _ h
  exact ⟨trivial, skipStep_left h⟩

end Termination

/-- The same message, in buffers that may differ behind it. -/
structure SameMessage (pkt pkt' : Packet) : Prop where
  plen : pkt'.plen = pkt.plen
  mem : ∀ i < pkt.plen, pkt'.mem i = pkt.mem i

namespace SameMessage

variable {α β : Type} {pkt pkt' : Packet} (h : SameMessage pkt pkt')
include h

theorem checkLen (p len : ℕ) : pkt'.checkLen p len = pkt.checkLen p len := by
  simp only [Packet.checkLen, h.plen]

variable {len : ℕ}

theorem get {i : ℕ} (hp : pkt.checkLen p len = true) (hi : i < len) :
    pkt'.get (p + i) = pkt.get (p + i) := by
  have hin : p + len ≤ pkt.plen := by simpa [Packet.checkLen] using hp
  rw [Packet.get, Packet.get, h.mem _ (by omega)]

theorem get_self (hp : pkt.checkLen p 1 = true) : pkt'.get p = pkt.get p := h.get hp Nat.one_pos

theorem bytes (hp : pkt.checkLen p len = true) : pkt'.bytes p len = pkt.bytes p len := by
  have hin : p + len ≤ pkt.plen := by simpa [Packet.checkLen] using hp
  refine List.map_congr_left fun i hi => h.mem _ ?_
  have := List.mem_range.mp hi
  omega

theorem nameStep (label : α → Label → Option α) (finish : α → β) (extrabytes : ℕ) :
    nameStep pkt' label finish extrabytes = nameStep pkt label finish extrabytes := by
  funext s
  simp only [Rfc1035.nameStep, h.checkLen]
  by_cases hp : pkt.checkLen s.p 1 = true
  · rw [h.get_self hp]
    by_cases hq : pkt.checkLen (s.p + 1) 1 = true
    · rw [h.get_self hq]
      by_cases hl : pkt.checkLen (s.p + 1) (pkt.get s.p) = true
      · rw [h.bytes hl]
      · simp only [hl, Bool.not_false, if_true]
    · by_cases hl : pkt.checkLen (s.p + 1) (pkt.get s.p) = true
      · simp only [hq, h.bytes hl, Bool.not_false, if_true]
      · simp only [hq, hl, Bool.not_false, if_true]
  · simp only [hp, Bool.not_false, if_true]

theorem skipStep : skipStep pkt' = skipStep pkt := by
  funext ansp
  simp only [Rfc1035.skipStep, h.checkLen]
  by_cases hp : pkt.checkLen ansp 1 = true
  · rw [h.get_self hp]
    by_cases hq : pkt.checkLen ansp 2 = true
    · rw [h.get hq Nat.one_lt_two]
    · simp only [hq, Bool.not_false, if_true]
  · simp only [hp, Bool.not_false, if_true]

theorem extractText (dnssecValid : Bool) (p extrabytes : ℕ) :
    pkt'.extractText dnssecValid p extrabytes = pkt.extractText dnssecValid p extrabytes := by
  simp only [Packet.extractText, textLoop_eq_runLoop, textStep, h.nameStep]

theorem compareName (dnssecValid : Bool) (str : ℕ → UInt8) (p extrabytes : ℕ) :
    pkt'.compareName dnssecValid str p extrabytes =
    pkt.compareName dnssecValid str p extrabytes := by
  simp only [Packet.compareName, compareLoop_eq_runLoop, compareStep, h.nameStep]

theorem skipName (p extrabytes : ℕ) : skipName pkt' p extrabytes = skipName pkt p extrabytes := by
  simp only [Dnssec.Nsec3.skipName, skipLoop_eq_runLoop, h.skipStep, h.plen, h.checkLen]

end SameMessage

set_option maxRecDepth 20000 in
theorem label_kinds : ∀ l < 256, (192 ≤ l → l &&& 0xc0 = 0xc0) ∧
    (l < 64 → l &&& 0xc0 = 0 ∧ l &&& 0x3f = l) := by decide

theorem skipLoop_of_nameAt {pkt : Packet} {stop k : ℕ} {n : Name} (h : pkt.NameAt p n stop k)
    (hfuel : pkt.plen - p < fuel) : skipLoop pkt fuel p = some stop := by
  induction h generalizing fuel with
  | @root p hin hzero =>
    obtain ⟨fuel, rfl⟩ := Nat.exists_eq_add_of_lt hfuel
    have hend : pkt.checkLen (p + 1) 0 = true := hin
    rw [skipLoop, if_neg (by simp [hin]), hzero]
    simp [hend]
  | @label p stop k n hin hpos hshort hbytes h ih =>
    obtain ⟨fuel, rfl⟩ := Nat.exists_eq_add_of_lt hfuel
    obtain ⟨hkind, hmask⟩ := (label_kinds _ (pkt.get_lt p)).2 hshort
    have hp : p + 1 ≤ pkt.plen := by simpa [checkLen] using hin
    rw [skipLoop, if_neg (by simp [hin]), hkind, if_neg (by decide), if_neg (by decide),
      if_neg (by decide), hmask]
    rw [if_neg (by simp [hbytes]), if_neg hpos]
    exact ih (by omega)
  | @pointer p stop k n hin hge h ih =>
    obtain ⟨fuel, rfl⟩ := Nat.exists_eq_add_of_lt hfuel
    have hp : p + 2 ≤ pkt.plen := by simpa [checkLen] using hin
    have hfirst : pkt.checkLen p 1 = true := by
      simp only [checkLen, decide_eq_true_eq]; omega
    rw [skipLoop, if_neg (by simp [hfirst]), if_pos ((label_kinds _ (pkt.get_lt p)).1 hge)]

theorem skipName_of_extractText {pkt : Packet} {dnssecValid : Bool} {extrabytes q : ℕ} {t : CString}
    (h : pkt.extractText dnssecValid p extrabytes = some (t, q)) :
    skipName pkt p extrabytes = some q := by
  obtain ⟨n, hn, -, -⟩ := extractText_eq_some_iff.mp h
  obtain ⟨⟨k, -, hname⟩, -, hroom⟩ := extractName_eq_some_iff.mp hn
  rw [skipName, skipLoop_of_nameAt hname (by omega)]
  simp [hroom]

/-- Both readers end, look at the message alone, and stop at the same place. -/
theorem readers_agree (pkt : Packet) (dnssecValid : Bool) (str : ℕ → UInt8) (p extrabytes : ℕ) :
    runLoop (textStep pkt dnssecValid extrabytes) (256 + maxdname) (.start p []) =
        some (pkt.extractText dnssecValid p extrabytes) ∧
      runLoop (compareStep pkt dnssecValid str extrabytes) (256 + maxdname) (.start p (0, true)) =
        some (pkt.compareName dnssecValid str p extrabytes) ∧
      (runLoop (skipStep pkt) (pkt.plen + 1) p).map (Option.filter fun ansp =>
        pkt.checkLen ansp extrabytes) = some (skipName pkt p extrabytes) ∧
          (∀ pkt', SameMessage pkt pkt' →
        pkt'.extractText dnssecValid p extrabytes = pkt.extractText dnssecValid p extrabytes ∧
        pkt'.compareName dnssecValid str p extrabytes =
          pkt.compareName dnssecValid str p extrabytes ∧
        skipName pkt' p extrabytes = skipName pkt p extrabytes) ∧
      ∀ t q, pkt.extractText dnssecValid p extrabytes = some (t, q) →
        skipName pkt p extrabytes = some q := by
  constructor
  · rw [extractText, textLoop_eq_runLoop]
    exact eq_some_join (nameStep_exits _ _ _ _ p [])
  constructor
  · rw [compareName, compareLoop_eq_runLoop]
    exact eq_some_join (nameStep_exits _ _ _ _ p (0, true))
  constructor
  · rw [skipName, skipLoop_eq_runLoop, eq_some_join (skipStep_exits pkt p)]
    rfl
  constructor
  · intro pkt' h
    exact ⟨h.extractText dnssecValid p extrabytes, h.compareName dnssecValid str p extrabytes,
      h.skipName p extrabytes⟩
  · intro t q h
    exact skipName_of_extractText h

/-- A name that ends with a pointer to the name before it. -/
theorem readers_agree_pointer :
    (ofBytes [1, 97, 0, 1, 98, 0xc0, 0, 7]).extractText false 3 1 = some ([98, 46, 97], 7) ∧
      skipName (ofBytes [1, 97, 0, 1, 98, 0xc0, 0, 7]) 3 1 = some 7 := by
  have htext : (ofBytes [1, 97, 0, 1, 98, 0xc0, 0, 7]).extractText false 3 1 =
      some ([98, 46, 97], 7) := by
    decide +kernel
  exact ⟨htext, (readers_agree _ false (fun _ => 0) 3 1).2.2.2.2 _ _ htext⟩

end Dnsmasq.Rfc1035
