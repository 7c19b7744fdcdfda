import Mathlib.Data.List.Nodup
import Mathlib.Data.List.Infix

/-!
Lists of records that are reached through pointers: every record has an identity of its own
that no store changes and no later record gets again. The newest record comes first.
-/
namespace Dnsmasq.Lib

open List

structure Registry (α : Type*) (key : α → ℕ) where
  items : List α
  next : ℕ
  nodup : (items.map key).Nodup
  fresh : ∀ a ∈ items, key a < next

namespace Registry

variable {α : Type*} {key : α → ℕ}

def empty : Registry α key := ⟨[], 0, nodup_nil, nofun⟩

def add (r : Registry α key) (a : α) (h : key a = r.next) : Registry α key where
  items := a :: r.items
  next := r.next + 1
  nodup := by
    refine nodup_cons.mpr ⟨fun hmem => ?_, r.nodup⟩
    obtain ⟨b, hb, hkey⟩ := mem_map.mp hmem
    exact absurd (r.fresh b hb) (by omega)
  fresh b hb := by
    rcases mem_cons.mp hb with rfl | hb
    · omega
    · exact Nat.lt_succ_of_lt (r.fresh b hb)

def modify (r : Registry α key) (f : α → α) (hf : ∀ a, key (f a) = key a) : Registry α key where
  items := r.items.map f
  next := r.next
  nodup := by
    rw [map_map, show key ∘ f = key from funext hf]
    exact r.nodup
  fresh b hb := by
    obtain ⟨a, ha, rfl⟩ := mem_map.mp hb
    rw [hf]
    exact r.fresh a ha

theorem key_ite {f : α → α} (hf : ∀ a, key (f a) = key a) (i : ℕ) (a : α) :
    key (if key a = i then f a else a) = key a := by
  split
  · exact hf a
  · rfl

def update (r : Registry α key) (i : ℕ) (f : α → α) (hf : ∀ a, key (f a) = key a) :
    Registry α key :=
  r.modify (fun a => if key a = i then f a else a) (key_ite hf i)

def remove (r : Registry α key) (p : α → Bool) : Registry α key where
  items := r.items.filter fun a => !p a
  next := r.next
  nodup := r.nodup.sublist (filter_sublist.map key)
  fresh a ha := r.fresh a (mem_of_mem_filter ha)

variable {r : Registry α key} {a b : α} {i : ℕ} {f : α → α} {hf : ∀ a, key (f a) = key a}

theorem eq_of_key (ha : a ∈ r.items) (hb : b ∈ r.items) (h : key a = key b) : a = b :=
  inj_on_of_nodup_map r.nodup ha hb h

@[simp] theorem mem_modify : b ∈ (r.modify f hf).items ↔ ∃ a ∈ r.items, f a = b := mem_map

theorem mem_update : b ∈ (r.update i f hf).items ↔
    ∃ a ∈ r.items, (key a = i ∧ b = f a) ∨ (key a ≠ i ∧ b = a) := by
  simp only [update, mem_modify]
  refine exists_congr fun a => and_congr_right fun _ => ?_
  split
  · rename_i h
    simp [h, eq_comm]
  · rename_i h
    simp [h, eq_comm]

theorem update_mem_of_key (hf : ∀ a, key (f a) = key a) (ha : a ∈ r.items) (hi : key a = i) :
    f a ∈ (r.update i f hf).items :=
  mem_update.mpr ⟨a, ha, .inl ⟨hi, rfl⟩⟩

theorem update_mem_of_ne (hf : ∀ a, key (f a) = key a) (ha : a ∈ r.items) (hi : key a ≠ i) :
    a ∈ (r.update i f hf).items :=
  mem_update.mpr ⟨a, ha, .inr ⟨hi, rfl⟩⟩

end Registry

end Dnsmasq.Lib
