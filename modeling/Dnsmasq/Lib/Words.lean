import Mathlib.Tactic

/-!
A text read word by word in fields of limited width, as `scanf` does it for `%s`: white space
before a field is skipped, and what is left of a word that is too long is the next word.
-/
namespace Dnsmasq.Lib

open List

variable {α : Type*}

def words (space : α → Bool) (text : List α) : List (List α) :=
  (text.splitOnP space).filter fun w => !w.isEmpty

/-- A field of at most `width` characters and what comes after it. -/
def field (width : ℕ) : List (List α) → Option (List α × List (List α))
  | [] => none
  | w :: ws => some (w.take width, if w.length ≤ width then ws else w.drop width :: ws)

section Words

variable {space : α → Bool} {w rest : List α} {sep : α}

@[simp] theorem words_nil : words space [] = [] := rfl

theorem words_append_cons (hw : ∀ c ∈ w, space c = false) (hsep : space sep = true)
    (rest : List α) : words space (w ++ sep :: rest) =
    [w].filter (fun w => !w.isEmpty) ++ words space rest := by
  rw [words, splitOnP_append_cons_of_forall_mem hw sep hsep rest, ← singleton_append, filter_append]
  rfl

theorem words_flatMap_append {ws : List (List α × α)} (hw : ∀ x ∈ ws, (∀ c ∈ x.1, space c = false) ∧
    space x.2 = true) (rest : List α) : words space (ws.flatMap (fun x => x.1 ++ [x.2]) ++ rest) =
      (ws.map Prod.fst).filter (fun w => !w.isEmpty) ++ words space rest := by
  induction ws with
  | nil => rfl
  | cons x ws ih =>
    obtain ⟨hx, hsep⟩ := hw x mem_cons_self
    have ih' := ih fun y hy => hw y (mem_cons_of_mem x hy)
    rw [flatMap_cons, append_assoc, append_assoc, singleton_append, words_append_cons hx hsep, ih',
      ← append_assoc, ← filter_append]
    rfl

theorem ne_nil_of_mem_words (h : w ∈ words space rest) : w ≠ [] := by
  have hne := (mem_filter.mp h).2
  simpa using hne

theorem not_space_of_mem_words {text : List α} (h : w ∈ words space text) :
    ∀ c ∈ w, space c = false := by
  have hsplit : ∀ v ∈ text.splitOnP space, ∀ c ∈ v, space c = false := by
    clear h
    induction text with
    | nil => simp
    | cons a text ih =>
      rw [splitOnP_cons_eq_if_modifyHead]
      split
      · exact forall_mem_cons.mpr ⟨forall_mem_nil _, ih⟩
      · rename_i ha
        obtain ⟨v, vs, hvs⟩ := exists_cons_of_ne_nil (splitOnP_ne_nil space text)
        rw [hvs] at ih ⊢
        obtain ⟨hv, hvs⟩ := forall_mem_cons.mp ih
        rw [modifyHead_cons]
        exact forall_mem_cons.mpr ⟨forall_mem_cons.mpr ⟨by simpa using ha, hv⟩, hvs⟩
  exact hsplit w (mem_filter.mp h).1

end Words

section Field

variable {width : ℕ} {w t : List α} {ws rest : List (List α)}

@[simp] theorem field_of_le (h : w.length ≤ width) : field width (w :: ws) = some (w, ws) := by
  simp [field, h, take_of_length_le h]

theorem field_eq_some (h : field width ws = some (t, rest)) : ∃ w ws', ws = w :: ws' ∧
    t = w.take width ∧ ((w.length ≤ width ∧ rest = ws') ∨
      (width < w.length ∧ rest = w.drop width :: ws')) := by
  cases ws with
  | nil => cases h
  | cons w ws =>
    cases h
    refine ⟨w, ws, rfl, rfl, ?_⟩
    split
    · exact .inl ⟨‹_›, rfl⟩
    · exact .inr ⟨not_le.mp ‹_›, rfl⟩

theorem field_forall {P : List α → Prop} (hP : ∀ w, width < w.length → P w → P (w.drop width))
    (hws : ∀ w ∈ ws, P w) (h : field width ws = some (t, rest)) : ∀ w ∈ rest, P w := by
  obtain ⟨w, ws', rfl, -, ⟨-, rfl⟩ | ⟨hlt, rfl⟩⟩ := field_eq_some h
  · exact fun x hx => hws x (mem_cons_of_mem w hx)
  intro x hx
  rcases mem_cons.mp hx with rfl | hx
  · exact hP w hlt (hws w mem_cons_self)
  · exact hws x (mem_cons_of_mem w hx)

end Field

end Dnsmasq.Lib
