import Mathlib.Tactic

/-!
Glob patterns over arbitrary alphabets: a wild pattern character stands for any sequence,
every other one for a single character that it accepts.
-/
namespace Dnsmasq.Glob

open List

variable {α β : Type*} {wild : β → Prop} {accepts : α → β → Prop}

inductive Matches (wild : β → Prop) (accepts : α → β → Prop) : List α → List β → Prop
  | nil : Matches wild accepts [] []
  | char {a : α} {b : β} {v : List α} {p : List β} :
      ¬wild b → accepts a b → Matches wild accepts v p → Matches wild accepts (a :: v) (b :: p)
  | star {b : β} {v : List α} {p : List β} (u : List α) :
      wild b → Matches wild accepts v p → Matches wild accepts (u ++ v) (b :: p)

variable {v : List α} {b : β} {p q : List β}

@[simp] theorem matches_nil_right : Matches wild accepts v [] ↔ v = [] := by
  constructor
  · rintro ⟨⟩
    rfl
  · rintro rfl
    exact .nil

theorem matches_char (hb : ¬wild b) : Matches wild accepts v (b :: p) ↔
      ∃ a v', v = a :: v' ∧ accepts a b ∧ Matches wild accepts v' p := by
  constructor
  · intro h
    cases h with
    | char _ ha h => exact ⟨_, _, rfl, ha, h⟩
    | star _ hw _ => exact absurd hw hb
  · rintro ⟨a, v', rfl, ha, h⟩
    exact .char hb ha h

theorem matches_wild (hb : wild b) :
    Matches wild accepts v (b :: p) ↔ ∃ k, Matches wild accepts (v.drop k) p := by
  constructor
  · intro h
    cases h with
    | char hw _ _ => exact absurd hb hw
    | star u _ h => exact ⟨u.length, by simpa using h⟩
  · rintro ⟨k, h⟩
    have := Matches.star (v.take k) hb h
    rwa [take_append_drop] at this

theorem matches_wild_nil (hb : wild b) :
    Matches wild accepts [] (b :: p) ↔ Matches wild accepts [] p := by
  simp [matches_wild hb]

/-- The two ways a backtracking matcher tries at a wild character. -/
theorem matches_wild_cons {a : α} (hb : wild b) : Matches wild accepts (a :: v) (b :: p) ↔
      Matches wild accepts (a :: v) p ∨ Matches wild accepts v (b :: p) := by
  rw [matches_wild hb, matches_wild hb]
  constructor
  · rintro ⟨_ | k, h⟩
    · exact .inl h
    · exact .inr ⟨k, h⟩
  · rintro (h | ⟨k, h⟩)
    · exact ⟨0, h⟩
    · exact ⟨k + 1, h⟩

theorem Matches.of_drop {k : ℕ} (h : Matches wild accepts (v.drop k) (b :: p)) (hb : wild b) :
    Matches wild accepts v (b :: p) := by
  obtain ⟨j, h⟩ := (matches_wild hb).mp h
  rw [drop_drop] at h
  exact (matches_wild hb).mpr ⟨_, h⟩

theorem Matches.drop_plain (h : Matches wild accepts v (q ++ p))
    (hq : ∀ b ∈ q, ¬wild b) : Matches wild accepts (v.drop q.length) p := by
  induction q generalizing v with
  | nil => simpa using h
  | cons b q ih =>
    obtain ⟨a, v', rfl, _, h⟩ := (matches_char (hq b (by simp))).mp h
    simpa using ih h fun b hb => hq b (by simp [hb])

/-- Once a later wild character is reached, trying the earlier one at a later place gives
nothing that the later one does not give. -/
theorem Matches.of_earlier {c : β}
    (h : Matches wild accepts v (b :: q ++ c :: p)) (hb : wild b) (hc : wild c)
    (hq : ∀ b ∈ q, ¬wild b) : Matches wild accepts (v.drop q.length) (c :: p) := by
  obtain ⟨k, h⟩ := (matches_wild hb).mp h
  have h' := h.drop_plain hq
  rw [drop_drop, Nat.add_comm, ← drop_drop] at h'
  exact h'.of_drop hc

end Dnsmasq.Glob
