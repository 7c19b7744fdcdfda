import Dnsmasq.Lib.Outcome

/-!
Numbers in network byte order: what a buffer appends for them, and what a cursor reads back.
-/
namespace Dnsmasq.Lib.BigEndian

open List Outcome

variable {ε : Type}

variable (eof : ε)

def readU8 : List UInt8 → Outcome ε (UInt8 × List UInt8)
  | a :: rest => .ok (a, rest)
  | [] => .err eof

def readU16 : List UInt8 → Outcome ε (UInt16 × List UInt8)
  | a :: b :: rest => .ok (UInt16.ofNat (a.toNat * 256 + b.toNat), rest)
  | _ => .err eof

def readU32 : List UInt8 → Outcome ε (UInt32 × List UInt8)
  | a :: b :: c :: d :: rest =>
    .ok (UInt32.ofNat (((a.toNat * 256 + b.toNat) * 256 + c.toNat) * 256 + d.toNat), rest)
  | _ => .err eof

@[simp] theorem safe_readU8 (data : List UInt8) : (readU8 eof data).Safe := by
  unfold readU8
  split <;> nofun

@[simp] theorem safe_readU16 (data : List UInt8) : (readU16 eof data).Safe := by
  unfold readU16
  split <;> nofun

@[simp] theorem safe_readU32 (data : List UInt8) : (readU32 eof data).Safe := by
  unfold readU32
  split <;> nofun

section

variable (data : List UInt8) (k : ℕ)

theorem exists_readU8 (h : k + 1 ≤ data.length) :
    ∃ x, readU8 eof (data.drop k) = .ok (x, data.drop (k + 1)) := by
  rw [← drop_drop]
  have hlen : 1 ≤ (data.drop k).length := by
    rw [length_drop]
    omega
  generalize data.drop k = cursor at hlen ⊢
  obtain _ | ⟨a, rest⟩ := cursor
  · simp at hlen
  · exact ⟨_, rfl⟩

theorem exists_readU16 (h : k + 2 ≤ data.length) :
    ∃ x, readU16 eof (data.drop k) = .ok (x, data.drop (k + 2)) := by
  rw [← drop_drop]
  have hlen : 2 ≤ (data.drop k).length := by
    rw [length_drop]
    omega
  generalize data.drop k = cursor at hlen ⊢
  obtain _ | ⟨a, _ | ⟨b, rest⟩⟩ := cursor
  · simp at hlen
  · simp at hlen
  · exact ⟨_, rfl⟩

theorem exists_readU32 (h : k + 4 ≤ data.length) :
    ∃ x, readU32 eof (data.drop k) = .ok (x, data.drop (k + 4)) := by
  rw [← drop_drop]
  have hlen : 4 ≤ (data.drop k).length := by
    rw [length_drop]
    omega
  generalize data.drop k = cursor at hlen ⊢
  obtain _ | ⟨a, _ | ⟨b, _ | ⟨c, _ | ⟨d, rest⟩⟩⟩⟩ := cursor
  · simp at hlen
  · simp at hlen
  · simp at hlen
  · simp at hlen
  · exact ⟨_, rfl⟩

end

end Dnsmasq.Lib.BigEndian
