import Mathlib.Tactic

/-!
Singly linked lists threaded through the cells of a store: following `next` from a pointer
visits the cells of a list and stops. Pushing, cutting, joining and unlinking, and what each
leaves alone.
-/
namespace Dnsmasq.Lib

open Function

open List hiding Chain

variable {α : Type*}

/-- Following `next` from `p` visits exactly the cells of `l`, in order, and then stops. -/
def Chain (next : α → Option α) : Option α → List α → Prop
  | p, [] => p = none
  | p, a :: l => p = some a ∧ Chain next (next a) l

/-- The cells visited in at most `k` steps. -/
def follow (next : α → Option α) : ℕ → Option α → List α
  | 0, _ => []
  | _ + 1, none => []
  | k + 1, some a => a :: follow next k (next a)

theorem length_le_of_lt {l : List ℕ} {bound : ℕ} (hnodup : l.Nodup) (hlt : ∀ a ∈ l, a < bound) :
    l.length ≤ bound := by
  have hsub : l ⊆ List.range bound := fun a ha => mem_range.mpr (hlt a ha)
  have hle := (hnodup.subperm hsub).length_le
  rwa [length_range] at hle

variable {k : ℕ}

namespace Chain

variable {next next' : α → Option α} {p q : Option α} {a x : α} {l l' l₁ l₂ : List α}

@[simp] theorem nil_iff : Chain next p [] ↔ p = none := Iff.rfl

@[simp] theorem cons_iff : Chain next p (a :: l) ↔ p = some a ∧ Chain next (next a) l := Iff.rfl

theorem none_iff : Chain next none l ↔ l = [] := by
  cases l <;> simp

theorem head? (h : Chain next p l) : l.head? = p := by
  cases l with
  | nil => exact h.symm
  | cons a l => exact h.1.symm

theorem unique (h : Chain next p l) (h' : Chain next p l') : l = l' := by
  induction l generalizing p l' with
  | nil =>
    cases h
    exact (none_iff.mp h').symm
  | cons a l ih =>
    obtain ⟨rfl, h⟩ := h
    cases l' with
    | nil => simp at h'
    | cons b l' =>
      obtain ⟨hab, h'⟩ := h'
      cases hab
      rw [ih h h']

theorem follow_eq (h : Chain next p l) (hk : l.length ≤ k) : follow next k p = l := by
  induction l generalizing p k with
  | nil =>
    cases h
    cases k <;> rfl
  | cons a l ih =>
    obtain ⟨rfl, h⟩ := h
    cases k with
    | zero => simp at hk
    | succ k => rw [follow, ih h (by simpa using hk)]

/-- The part of a chain from one of its cells on. -/
theorem from_cell (h : Chain next p (l₁ ++ a :: l₂)) : Chain next (some a) (a :: l₂) := by
  induction l₁ generalizing p with
  | nil => exact ⟨rfl, h.2⟩
  | cons b l₁ ih => exact ih h.2

theorem nodup (h : Chain next p l) : l.Nodup := by
  induction l generalizing p with
  | nil => exact nodup_nil
  | cons a l ih =>
    refine nodup_cons.mpr ⟨fun ha => ?_, ih h.2⟩
    -- a second visit to `a` would continue exactly like the first one
    obtain ⟨l₁, l₂, rfl⟩ := append_of_mem ha
    have hagain : a :: l₂ = a :: (l₁ ++ a :: l₂) :=
      (from_cell h.2).unique (show Chain next (some a) _ from ⟨rfl, h.2⟩)
    have hlen := congrArg List.length hagain
    simp at hlen
    omega

theorem congr (h : Chain next p l) (hn : ∀ a ∈ l, next' a = next a) : Chain next' p l := by
  induction l generalizing p with
  | nil => exact h
  | cons a l ih =>
    refine ⟨h.1, ?_⟩
    rw [hn a mem_cons_self]
    exact ih h.2 fun b hb => hn b (mem_cons_of_mem a hb)

theorem not_mem_of_cons (h : Chain next p (a :: l)) : a ∉ l :=
  (nodup_cons.mp h.nodup).1

theorem next_mem (h : Chain next p l) (hx : x ∈ l) (ha : next x = some a) : a ∈ l := by
  obtain ⟨l₁, l₂, rfl⟩ := append_of_mem hx
  have htail := (from_cell h).2
  rw [ha] at htail
  cases l₂ with
  | nil => cases htail
  | cons b l₂ =>
    cases htail.1
    simp

/-- Up to the cell `a` a chain is followed by its own cells. -/
theorem next_mem_front (h : Chain next p (l₁ ++ a :: l₂)) :
    (∃ z ∈ l₁ ++ [a], p = some z) ∧ ∀ y ∈ l₁, ∃ z ∈ l₁ ++ [a], next y = some z := by
  induction l₁ generalizing p with
  | nil => exact ⟨⟨a, mem_singleton_self a, h.1⟩, nofun⟩
  | cons b l₁ ih =>
    obtain ⟨⟨z, hz, hb⟩, hnext⟩ := ih h.2
    refine ⟨⟨b, mem_cons_self, h.1⟩, fun y hy => ?_⟩
    rcases mem_cons.mp hy with rfl | hy
    · exact ⟨z, mem_cons_of_mem _ hz, hb⟩
    · obtain ⟨z, hz, hy⟩ := hnext y hy
      exact ⟨z, mem_cons_of_mem _ hz, hy⟩

/-- Behind the head, a cell is in a chain because another cell points at it. -/
theorem next_ne_self (h : Chain next p l) (hx : x ∈ l) : next x ≠ some x := by
  obtain ⟨l₁, l₂, rfl⟩ := append_of_mem hx
  intro hself
  have hcell := from_cell h
  have htail := hcell.2
  rw [hself] at htail
  exact hcell.not_mem_of_cons (mem_of_mem_head? (htail.head? ▸ rfl))

theorem next_of_mem_tail (h : Chain next p (a :: l)) (hx : x ∈ l) : ∃ b, next b = some x := by
  obtain ⟨l₁, l₂, rfl⟩ := append_of_mem hx
  rcases eq_nil_or_concat l₁ with rfl | ⟨init, b, rfl⟩
  · exact ⟨a, h.2.1⟩
  · have h' := h.2
    rw [concat_append] at h'
    exact ⟨b, (from_cell h').2.1⟩

variable [DecidableEq α]

theorem update_of_notMem (h : Chain next p l) (hx : x ∉ l) (q : Option α) :
    Chain (update next x q) p l :=
  h.congr fun _ ha => update_of_ne (ne_of_mem_of_not_mem ha hx) q next

/-- `x` now points at the old head. -/
theorem push (h : Chain next p l) (hx : x ∉ l) :
    Chain (update next x p) (some x) (x :: l) := by
  refine ⟨rfl, ?_⟩
  rw [update_self]
  exact h.update_of_notMem hx p

/-- Redirecting the last visited cell continues the chain with another one. -/
theorem redirect (h : Chain next p (l₁ ++ x :: l₂)) (hq : Chain next q l) (hx : x ∉ l) :
    Chain (update next x q) p (l₁ ++ x :: l) := by
  induction l₁ generalizing p with
  | nil =>
    refine ⟨h.1, ?_⟩
    rw [update_self]
    exact hq.update_of_notMem hx q
  | cons b l₁ ih =>
    have hb : b ≠ x := by
      rintro rfl
      exact h.not_mem_of_cons (by simp)
    refine ⟨h.1, ?_⟩
    rw [update_of_ne hb]
    exact ih h.2

end Chain

/-- Following `next` from `p` visits the cells of `l` and arrives at `q`. -/
def Segment (next : α → Option α) : Option α → List α → Option α → Prop
  | p, [], q => p = q
  | p, a :: l, q => p = some a ∧ Segment next (next a) l q

theorem Segment.congr {next next' : α → Option α} {p q : Option α} {l : List α}
    (h : Segment next p l q) (hn : ∀ a ∈ l, next' a = next a) : Segment next' p l q := by
  induction l generalizing p with
  | nil => exact h
  | cons a l ih =>
    refine ⟨h.1, ?_⟩
    rw [hn a mem_cons_self]
    exact ih h.2 fun b hb => hn b (mem_cons_of_mem a hb)

theorem Segment.concat {next : α → Option α} {p : Option α} {a : α} {l : List α}
    (h : Segment next p l (some a)) : Segment next p (l ++ [a]) (next a) := by
  induction l generalizing p with
  | nil => exact ⟨h, rfl⟩
  | cons b l ih => exact ⟨h.1, ih h.2⟩

/-! Unlinking a cell the way C does it: walk with a pointer `up` to the field that holds the
pointer to the current cell, and overwrite that field. -/

variable {up : Option α}

section Unlink

variable [DecidableEq α] {next : α → Option α} {p : Option α} {x : α} {l : List α}

/-- The field that points at `x`: `none` is the head field, `some a` the link of cell `a`. -/
def findUp (next : α → Option α) (x : α) : ℕ → Option α → Option α → Option (Option α)
  | 0, _, _ => none
  | _ + 1, _, none => none
  | k + 1, up, some n => if n = x then some up else findUp next x k (some n) (next n)

theorem findUp_of_notMem (h : Chain next p l) (hx : x ∉ l) (k : ℕ) (up : Option α) :
    findUp next x k up p = none := by
  induction k generalizing p l up with
  | zero => rfl
  | succ k ih =>
    cases l with
    | nil =>
      cases h
      rfl
    | cons a l =>
      obtain ⟨rfl, h⟩ := h
      have ha : a ≠ x := fun e => hx (e ▸ mem_cons_self)
      simp only [findUp, if_neg ha]
      exact ih h (fun hm => hx (mem_cons_of_mem a hm)) (some a)

theorem findUp_append (l₁ l₂ : List α) (h : Chain next p (l₁ ++ x :: l₂)) (k : ℕ)
    (hk : l₁.length < k) (up : Option α) : findUp next x k up p = some (l₁.getLast?.or up) := by
  induction l₁ generalizing p k up with
  | nil =>
    obtain ⟨rfl, -⟩ := h
    cases k with
    | zero => simp at hk
    | succ k => simp [findUp]
  | cons b l₁ ih =>
    have hb : b ≠ x := by
      rintro rfl
      exact h.not_mem_of_cons (by simp)
    obtain ⟨rfl, h'⟩ := h
    cases k with
    | zero => simp at hk
    | succ k =>
      simp only [findUp, if_neg hb]
      rw [ih h' k (by simpa using hk) (some b), getLast?_cons]
      cases l₁.getLast? <;> rfl

theorem findUp_mem (h : Chain next p l) {a : α}
    (ha : findUp next x k up p = some (some a)) : up = some a ∨ a ∈ l := by
  induction k generalizing p l up with
  | zero => cases ha
  | succ k ih =>
    cases l with
    | nil =>
      cases h
      cases ha
    | cons b l =>
      obtain ⟨rfl, h⟩ := h
      simp only [findUp] at ha
      split at ha
      · exact .inl (Option.some.inj ha)
      · rcases ih h ha with hb | hm
        · exact .inr (Option.some.inj hb ▸ mem_cons_self)
        · exact .inr (mem_cons_of_mem b hm)

/-- Head and links after the field that points at `x` was given `x`'s own link. -/
def unlink (next : α → Option α) (x : α) (k : ℕ) (p : Option α) : Option α × (α → Option α) :=
  match findUp next x k none p with
  | none => (p, next)
  | some none => (next x, next)
  | some (some a) => (p, update next a (next x))

theorem unlink_chain (h : Chain next p l) (hk : l.length ≤ k) :
    Chain (unlink next x k p).2 (unlink next x k p).1 (l.erase x) := by
  by_cases hx : x ∈ l
  · obtain ⟨l₁, l₂, rfl⟩ := append_of_mem hx
    have hx₁ : x ∉ l₁ := fun hm => by
      have := (nodup_append.mp h.nodup).2.2 x hm x mem_cons_self
      exact this rfl
    have hfind := findUp_append l₁ l₂ h k (by simp at hk; omega) none
    rw [erase_append_right _ hx₁, erase_cons_head]
    rcases eq_nil_or_concat l₁ with rfl | ⟨init, a, rfl⟩
    · simp only [unlink, hfind]
      exact h.2
    have htail : Chain next (next x) l₂ := h.from_cell.2
    have ha : a ∉ l₂ := fun hm => by
      have := (nodup_append.mp h.nodup).2.2 a (by simp) a (by simp [hm])
      exact this rfl
    have hlast : (init.concat a).getLast?.or none = some a := by simp
    rw [concat_append] at h ⊢
    simp only [unlink, hfind, hlast]
    exact h.redirect htail ha
  · rw [erase_of_not_mem hx]
    simp only [unlink, findUp_of_notMem h hx]
    exact h

@[simp] theorem unlink_none (k : ℕ) : unlink next x k none = (none, next) := by
  cases k <;> rfl

/-- Only links of the chain itself are written. -/
theorem unlink_next_of_notMem (h : Chain next p l) {y : α} (hy : y ∉ l) (k : ℕ) :
    (unlink next x k p).2 y = next y := by
  unfold unlink
  split
  · rfl
  · rfl
  · rename_i a ha
    have hmem : a ∈ l := (findUp_mem h ha).resolve_left (by simp)
    exact update_of_ne (ne_of_mem_of_not_mem hmem hy).symm _ _

end Unlink

/-! A pointer to a pointer is the field it points at: `none` stands for the head of the list,
`some a` for the link of the cell `a`. -/

section Field

theorem getLast?_ne_of_notMem {y : α} {l : List α} (h : y ∉ l) : l.getLast? ≠ some y :=
  fun e => h (mem_of_getLast? e)

variable [DecidableEq α] {next : α → Option α} {p q : Option α} {x y : α} {l l₁ l₂ : List α}

def linkSet (next : α → Option α) (up q : Option α) : α → Option α :=
  match up with
  | none => next
  | some a => update next a q

def headSet (head up q : Option α) : Option α :=
  match up with
  | none => q
  | some _ => head

theorem linkSet_of_ne (h : up ≠ some y) (q : Option α) : linkSet next up q y = next y := by
  cases up with
  | none => rfl
  | some a => exact update_of_ne (fun e => h (congrArg some e.symm)) q next

theorem update_linkSet (h : up ≠ some x) (q r : Option α) :
    update (linkSet next up q) x r = linkSet (update next x r) up q := by
  cases up with
  | none => rfl
  | some a => exact update_comm (fun e => h (congrArg some e)) _ _ _

/-- The field behind the first part of a list is made to point at another chain. -/
theorem Chain.set (h : Chain next p (l₁ ++ l₂)) (hq : Chain next q l) (hd : ∀ a ∈ l₁, a ∉ l) :
    Chain (linkSet next l₁.getLast? q) (headSet p l₁.getLast? q) (l₁ ++ l) := by
  rcases eq_nil_or_concat l₁ with rfl | ⟨init, a, rfl⟩
  · exact hq
  have ha : a ∉ l := hd a (by simp)
  simp only [concat_eq_append, append_assoc, cons_append, nil_append] at h ⊢
  simp only [getLast?_append, getLast?_singleton, linkSet, headSet]
  exact h.redirect hq ha

/-- A cell is taken out through the field that points at it. -/
theorem Chain.skip (h : Chain next p (l₁ ++ x :: l₂)) :
    Chain (linkSet next l₁.getLast? (next x)) (headSet p l₁.getLast? (next x)) (l₁ ++ l₂) := by
  have hnodup := nodup_append.mp h.nodup
  refine h.set h.from_cell.2 fun a ha hm => ?_
  exact hnodup.2.2 a ha a (mem_cons_of_mem x hm) rfl

/-- A cell is put in through the field behind `l₁`. -/
theorem Chain.insert (h : Chain next p (l₁ ++ l₂)) (hx : x ∉ l₁ ++ l₂) :
    Chain (linkSet (update next x l₂.head?) l₁.getLast? (some x))
      (headSet p l₁.getLast? (some x)) (l₁ ++ x :: l₂) := by
  have hnodup := nodup_append.mp h.nodup
  have htail : Chain next l₂.head? l₂ := by
    cases l₂ with
    | nil => rfl
    | cons b l₂ => exact h.from_cell
  have hx₂ : x ∉ l₂ := fun hm => hx (mem_append_right l₁ hm)
  refine (h.update_of_notMem hx l₂.head?).set (htail.push hx₂) fun a ha hm => ?_
  rcases mem_cons.mp hm with rfl | hm
  · exact hx (mem_append_left l₂ ha)
  · exact hnodup.2.2 a ha a hm rfl

end Field

section Acyclic

variable [DecidableEq α] {next : α → Option α}

theorem acyclic_cut (h : ∀ a, ∃ l, Chain next (some a) l) (x : α) (a : α) :
    ∃ l, Chain (update next x none) (some a) l := by
  obtain ⟨l, hl⟩ := h a
  by_cases hx : x ∈ l
  · obtain ⟨l₁, l₂, rfl⟩ := append_of_mem hx
    exact ⟨_, hl.redirect (q := none) (l := []) rfl not_mem_nil⟩
  · exact ⟨l, hl.update_of_notMem hx none⟩

/-- A link may be set to any cell from which the link's owner cannot be reached. -/
theorem acyclic_join (h : ∀ a, ∃ l, Chain next (some a) l) {x y : α} {l : List α}
    (hy : Chain next (some y) l) (hx : x ∉ l) (a : α) :
    ∃ l, Chain (update next x (some y)) (some a) l := by
  obtain ⟨l', hl'⟩ := h a
  by_cases hm : x ∈ l'
  · obtain ⟨l₁, l₂, rfl⟩ := append_of_mem hm
    exact ⟨_, hl'.redirect hy hx⟩
  · exact ⟨l', hl'.update_of_notMem hm (some y)⟩

end Acyclic

structure DLinks (α : Type*) where
  next : α → Option α
  prev : α → Option α
  head : Option α
  tail : Option α

namespace DLinks

variable {d : DLinks α} {x y : α} {l : List α}

/-- `d` holds exactly the cells of `l`, in order. -/
structure Holds (d : DLinks α) (l : List α) : Prop where
  forward : Chain d.next d.head l
  backward : Chain d.prev d.tail l.reverse

theorem Holds.head_eq (h : d.Holds l) : d.head = l.head? := h.forward.head?.symm

theorem Holds.tail_eq (h : d.Holds l) : d.tail = l.getLast? := by
  rw [← h.backward.head?, head?_reverse]

theorem Holds.prev_eq {l₁ l₂ : List α} (h : d.Holds (l₁ ++ x :: l₂)) : d.prev x = l₁.getLast? := by
  have hb := h.backward
  rw [reverse_append, reverse_cons, append_assoc] at hb
  rw [← head?_reverse]
  exact hb.from_cell.2.head?.symm

theorem Holds.next_eq {l₁ l₂ : List α} (h : d.Holds (l₁ ++ x :: l₂)) : d.next x = l₂.head? :=
  h.forward.from_cell.2.head?.symm

/-- Links forward of cells outside the list are free for other uses. -/
theorem Holds.congr (h : d.Holds l) {d' : DLinks α} (hn : ∀ a ∈ l, d'.next a = d.next a)
    (hp : d'.prev = d.prev) (hh : d'.head = d.head) (ht : d'.tail = d.tail) : d'.Holds l :=
  ⟨hh ▸ h.forward.congr hn, hp ▸ ht ▸ h.backward⟩

variable [DecidableEq α]

section

variable (d : DLinks α) (x : α)

def pushFront : DLinks α where
  next := update d.next x d.head
  prev := update (linkSet d.prev d.head (some x)) x none
  head := some x
  tail := d.tail.or (some x)

def pushBack : DLinks α where
  next := update (linkSet d.next d.tail (some x)) x none
  prev := update d.prev x d.tail
  head := headSet d.head d.tail (some x)
  tail := some x

def remove : DLinks α :=
  let next := linkSet d.next (d.prev x) (d.next x)
  { next := next
    prev := linkSet d.prev (next x) (d.prev x)
    head := headSet d.head (d.prev x) (d.next x)
    tail := headSet d.tail (next x) (d.prev x) }

end

theorem chain_concat {next : α → Option α} {p : Option α} (h : Chain next p l) (hx : x ∉ l) :
    Chain (update (linkSet next l.getLast? (some x)) x none)
    (headSet p l.getLast? (some x))
      (l ++ [x]) := by
  have hins : Chain (linkSet (update next x none) l.getLast? (some x))
      (headSet p l.getLast? (some x)) (l ++ [x]) :=
    @Chain.insert _ _ next p x l [] (by simpa using h) (by simpa using hx)
  refine hins.congr fun a _ => ?_
  -- the two updates are of different cells
  cases hl : l.getLast? with
  | none => rfl
  | some t =>
    have ht : t ≠ x := fun e => hx (e ▸ mem_of_getLast? hl)
    exact congrFun (update_comm ht _ _ next) a

theorem Holds.pushFront (h : d.Holds l) (hx : x ∉ l) : (d.pushFront x).Holds (x :: l) := by
  refine ⟨h.forward.push hx, ?_⟩
  have hlast : l.reverse.getLast? = d.head := by rw [getLast?_reverse, h.head_eq]
  have htail : headSet d.tail d.head (some x) = (d.pushFront x).tail := by
    rw [DLinks.pushFront, h.tail_eq, h.head_eq]
    cases l with
    | nil => rfl
    | cons a l => simp [headSet, getLast?_cons]
  have := chain_concat h.backward (x := x) (by simpa using hx)
  rw [hlast, htail, ← reverse_cons] at this
  exact this

theorem Holds.pushBack (h : d.Holds l) (hx : x ∉ l) : (d.pushBack x).Holds (l ++ [x]) := by
  constructor
  · have := chain_concat h.forward hx
    rwa [← h.tail_eq] at this
  · rw [reverse_append]
    exact h.backward.push (by simpa using hx)

theorem Holds.remove (h : d.Holds l) (hx : x ∈ l) : (d.remove x).Holds (l.erase x) := by
  obtain ⟨l₁, l₂, rfl⟩ := append_of_mem hx
  have hnodup := nodup_append.mp h.forward.nodup
  have hx₁ : x ∉ l₁ := fun hm => hnodup.2.2 x hm x mem_cons_self rfl
  -- the first write does not touch the link of `x` itself
  have hnext : linkSet d.next (d.prev x) (d.next x) x = d.next x :=
    linkSet_of_ne (h.prev_eq ▸ getLast?_ne_of_notMem hx₁) _
  rw [erase_append_right _ hx₁, erase_cons_head]
  constructor
  · have := h.forward.skip
    rwa [← h.prev_eq] at this
  have hb := h.backward
  rw [reverse_append, reverse_cons, append_assoc] at hb
  have := hb.skip
  rw [getLast?_reverse, ← h.next_eq, ← hnext] at this
  rw [reverse_append]
  exact this

theorem Holds.remove_next (h : d.Holds l) (hx : x ∈ l) (hy : y ∉ l) :
    (d.remove x).next y = d.next y := by
  obtain ⟨l₁, l₂, rfl⟩ := append_of_mem hx
  refine linkSet_of_ne ?_ _
  rw [h.prev_eq]
  exact getLast?_ne_of_notMem fun hm => hy (mem_append_left _ hm)

theorem pushFront_next (hy : y ≠ x) : (d.pushFront x).next y = d.next y :=
    update_of_ne hy _ _

theorem Holds.pushBack_next (h : d.Holds l) (hy : y ∉ l) (hyx : y ≠ x) :
    (d.pushBack x).next y = d.next y := by
  refine (update_of_ne hyx _ _).trans (linkSet_of_ne ?_ _)
  rw [h.tail_eq]
  exact getLast?_ne_of_notMem hy

end DLinks

end Dnsmasq.Lib
