import Mathlib.Data.List.Basic

/-!
What a loop over a list comes to, if it goes on past some elements only.
-/
namespace Dnsmasq.Lib

open List

variable {α : Type*} {pass hit : α → Prop} {a x : α} {l : List α}

/-- The element is in the list, and before it are only elements that pass. -/
def Past (pass : α → Prop) (l : List α) (x : α) : Prop :=
  ∃ before after, l = before ++ x :: after ∧ ∀ y ∈ before, pass y

@[simp]
theorem not_past_nil : ¬ Past pass [] x := by
  rintro ⟨before, after, hsplit, -⟩
  simp at hsplit

theorem past_cons : Past pass (a :: l) x ↔ x = a ∨ pass a ∧ Past pass l x := by
  constructor
  · rintro ⟨before, after, hsplit, hbefore⟩
    cases before with
    | nil =>
      cases hsplit
      exact .inl rfl
    | cons b before =>
      cases hsplit
      obtain ⟨ha, hbefore⟩ := forall_mem_cons.mp hbefore
      exact .inr ⟨ha, before, after, rfl, hbefore⟩
  · rintro (rfl | ⟨ha, before, after, rfl, hbefore⟩)
    · exact ⟨[], l, rfl, forall_mem_nil _⟩
    · exact ⟨a :: before, after, rfl, forall_mem_cons.mpr ⟨ha, hbefore⟩⟩

theorem exists_past_cons :
    (∃ x, Past pass (a :: l) x ∧ hit x) ↔ hit a ∨ pass a ∧ ∃ x, Past pass l x ∧ hit x := by
  simp only [past_cons, or_and_right, exists_or, exists_eq_left, and_assoc, exists_and_left]

theorem Past.mem (h : Past pass l x) : x ∈ l := by
  obtain ⟨before, after, rfl, -⟩ := h
  exact mem_append_right _ mem_cons_self

end Dnsmasq.Lib
