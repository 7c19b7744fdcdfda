import Dnsmasq.Lib.PointerChain

/-!
Moving the first selected cell of a linked list to its end while the list is walked. The cell is
unlinked when the walk meets it, and the walk goes on from it through its old link.
-/
namespace Dnsmasq.Lib

open List hiding Chain

variable {α : Type*}

/-- `up` is the cell whose link is to be changed, or none for the head of the list, and `move`
the cell that has been unlinked. -/
structure Walk (α : Type*) where
  next : α → Option α
  head : Option α
  up : Option α := none
  move : Option α := none

variable (sel : α → Bool)

def moveFirst (l : List α) : List α := l.eraseP sel ++ (l.find? sel).toList

theorem moveFirst_perm (l : List α) : (moveFirst sel l).Perm l := by
  unfold moveFirst
  induction l with
  | nil => exact .refl _
  | cons a l ih =>
    by_cases ha : sel a = true
    · rw [eraseP_cons_of_pos ha, find?_cons_of_pos ha]
      exact perm_append_singleton a l
    · rw [eraseP_cons_of_neg ha, find?_cons_of_neg ha]
      exact ih.cons a

/-- The selected cells that go with the first one are moved in front of it. -/
def moveUp (sel : α → Bool) (same : α → α → Bool) : List α → List α
  | [] => []
  | a :: l =>
    if sel a then l.filter (fun b => sel b && same b a) ++ a :: l.filter fun b =>
      !(sel b && same b a)
    else a :: moveUp sel same l

theorem moveUp_perm (same : α → α → Bool) (l : List α) : (moveUp sel same l).Perm l := by
  induction l with
  | nil => exact .refl _
  | cons a l ih =>
    rw [moveUp]
    split
    · apply perm_middle.trans
      exact (filter_append_perm _ l).cons a
    · exact ih.cons a

theorem moveUp_eq_self (same : α → α → Bool) {l : List α} (h : l.find? sel = none) :
    moveUp sel same l = l := by
  induction l with
  | nil => rfl
  | cons a l ih =>
    obtain ⟨ha, hl⟩ := forall_mem_cons.mp (find?_eq_none.mp h)
    rw [moveUp, if_neg ha, ih (find?_eq_none.mpr hl)]

theorem moveUp_filter (same : α → α → Bool) {l : List α} {a : α} (h : l.find? sel = some a) :
    (moveUp sel same l).filter (fun b => !(sel b && same b a)) = l.filter fun b =>
    !(sel b && same b a) := by
  induction l with
  | nil => cases h
  | cons b l ih =>
    rw [moveUp]
    cases hb : sel b with
    | true =>
      rw [find?_cons_of_pos hb] at h
      cases h
      have hnone : (l.filter fun b => sel b && same b a).filter (fun b => !(sel b && same b a)) =
          [] := by
        apply filter_eq_nil_iff.mpr
        intro c hc
        simp [(mem_filter.mp hc).2]
      rw [if_pos rfl, filter_append, hnone, filter_cons, filter_cons]
      simp
    | false =>
      rw [find?_cons_of_neg (by simp [hb])] at h
      rw [if_neg (by decide), filter_cons, filter_cons, ih h]

variable [DecidableEq α]

namespace Walk

def visit (sel : α → Bool) (w : Walk α) (a : α) : Walk α :=
  if sel a && w.move.isNone then
    { w with next := linkSet w.next w.up (w.next a), head := headSet w.head w.up (w.next a),
             move := some a }
  else { w with up := some a }

def visitFrom (sel : α → Bool) : ℕ → Option α → Walk α → Walk α
  | 0, _, w => w
  | _, none, w => w
  | k + 1, some a, w => visitFrom sel k ((w.visit sel a).next a) (w.visit sel a)

/-- The cell that was unlinked is put back at the end. -/
def finish (w : Walk α) : (α → Option α) × Option α :=
  match w.move with
  | none => (w.next, w.head)
  | some m => (Function.update (linkSet w.next w.up (some m)) m none, headSet w.head w.up (some m))

end Walk

def rotateFirst (sel : α → Bool) (k : ℕ) (next : α → Option α) (head : Option α) :
    (α → Option α) × Option α :=
  (Walk.visitFrom sel k head { next, head }).finish

/-- Between two visits: `pre` has been visited and stays, `l` is still to come. -/
structure Walk.Between (w : Walk α) (pre l : List α) : Prop where
  chain : Chain w.next w.head (pre ++ l)
  up : w.up = pre.getLast?
  apart : ∀ m ∈ w.move, m ∉ pre ++ l

namespace Walk.Between

variable {w : Walk α} {pre l : List α} {a : α}

theorem finish (h : w.Between pre []) : Chain w.finish.1 w.finish.2 (pre ++ w.move.toList) := by
  have hchain := h.chain
  unfold Walk.finish
  cases hm : w.move with
  | none => simpa using hchain
  | some m =>
    have hnot := h.apart m hm
    have hup : w.up ≠ some m := by
      rw [h.up]
      exact getLast?_ne_of_notMem (by simpa using hnot)
    dsimp only
    rw [update_linkSet hup, h.up]
    exact hchain.insert hnot

/-- A cell is unlinked only if it is the first selected one. -/
theorem visit (sel : α → Bool) (h : w.Between pre (a :: l)) : (w.visit sel a).next a = w.next a ∧
      ((sel a && w.move.isNone) = true ∧ (w.visit sel a).Between pre l ∧
        (w.visit sel a).move = some a ∨
        (sel a && w.move.isNone) = false ∧ (w.visit sel a).Between (pre ++ [a]) l ∧
        (w.visit sel a).move = w.move) := by
  have hnodup := nodup_append.mp h.chain.nodup
  have ha : a ∉ pre := fun hm => hnodup.2.2 a hm a mem_cons_self rfl
  unfold Walk.visit
  cases hsel : sel a && w.move.isNone with
  | true =>
    refine ⟨?_, Or.inl ⟨rfl, ⟨?_, h.up, ?_⟩, rfl⟩⟩
    · exact linkSet_of_ne (h.up ▸ getLast?_ne_of_notMem ha) _
    · rw [h.up]
      exact h.chain.skip
    rintro m ⟨⟩ hm
    rcases mem_append.mp hm with hm | hm
    · exact ha hm
    · exact (nodup_cons.mp hnodup.2.1).1 hm
  | false =>
    refine ⟨rfl, Or.inr ⟨rfl, ⟨?_, ?_, ?_⟩, rfl⟩⟩
    · simpa using h.chain
    · simp
    · simpa using h.apart

theorem visitFrom (sel : α → Bool) {k : ℕ} (h : w.Between pre l) (hk : l.length ≤ k) :
    ∃ w', Walk.visitFrom sel k l.head? w = w' ∧ w'.move = w.move.or (l.find? sel) ∧
      w'.Between (pre ++ if w.move.isNone then l.eraseP sel else l) [] := by
  induction l generalizing w pre k with
  | nil =>
    have hend : Walk.visitFrom sel k none w = w := by cases k <;> rfl
    exact ⟨w, hend, by simp, by simpa using h⟩
  | cons a l ih =>
    cases k with
    | zero => simp at hk
    | succ k =>
      obtain ⟨hlink, hcases⟩ := h.visit sel
      have hnext : (w.visit sel a).next a = l.head? := by
        have hcell : Chain w.next (some a) (a :: l) := h.chain.from_cell
        rw [hlink, hcell.2.head?]
      have hstep : Walk.visitFrom sel (k + 1) (a :: l).head? w =
          Walk.visitFrom sel k l.head? (w.visit sel a) := by
        rw [← hnext]
        rfl
      rw [hstep]
      rcases hcases with ⟨hsel, hb, hmove⟩ | ⟨hsel, hb, hmove⟩
      · obtain ⟨w', heq, hm, hb'⟩ := ih hb (Nat.le_of_succ_le_succ hk)
        rw [hmove] at hm hb'
        obtain ⟨ha, hnone⟩ := Bool.and_eq_true_iff.mp hsel
        rw [Option.isNone_iff_eq_none] at hnone
        rw [hnone, find?_cons_of_pos ha, eraseP_cons_of_pos ha]
        exact ⟨w', heq, hm, hb'⟩
      obtain ⟨w', heq, hm, hb'⟩ := ih hb (Nat.le_of_succ_le_succ hk)
      rw [hmove] at hm hb'
      refine ⟨w', heq, ?_, ?_⟩
      · rw [hm]
        cases hw : w.move with
        | some m => rfl
        | none =>
          rw [hw] at hsel
          rw [find?_cons_of_neg (by simpa using hsel)]
      cases hw : w.move with
      | some m => simpa [hw] using hb'
      | none =>
        rw [hw] at hsel
        rw [eraseP_cons_of_neg (by simpa using hsel)]
        simpa [hw] using hb'

end Walk.Between

theorem rotateFirst_chain (sel : α → Bool) {k : ℕ} {next : α →
    Option α} {head : Option α} {l : List α} (h : Chain next head l) (hk : l.length ≤ k) :
    Chain (rotateFirst sel k next head).1 (rotateFirst sel k next head).2 (moveFirst sel l) := by
  have hb : Walk.Between { next, head } [] l := ⟨h, rfl, nofun⟩
  obtain ⟨w', heq, hmove, hb'⟩ := hb.visitFrom sel hk
  have hfinish := hb'.finish
  rw [hmove] at hfinish
  rw [h.head?] at heq
  unfold rotateFirst
  rw [heq]
  simpa [moveFirst] using hfinish

end Dnsmasq.Lib
