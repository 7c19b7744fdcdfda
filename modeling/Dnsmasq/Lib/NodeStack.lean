import Dnsmasq.Lib.PointerChain

/-!
Stacks threaded through the links of labelled nodes that live elsewhere: pushing a node
overwrites its link. A node that is pushed while it is on the stack closes a circle.
-/
namespace Dnsmasq.Lib

open Function

open List hiding Chain

/-- `size` counts the links that were set. -/
structure NodeStack (α β : Type*) where
  next : α → Option α
  label : α → β
  head : Option α
  size : ℕ

namespace NodeStack

variable {α β : Type*}

/-- The nodes visited from a pointer, if the walk ends after at most `k` of them. -/
def walk (next : α → Option α) : ℕ → Option α → Option (List α)
  | _, none => some []
  | 0, some _ => none
  | k + 1, some a => (walk next k (next a)).map (a :: ·)

section

variable {next : α → Option α} {k : ℕ} {p : Option α} {l : List α}

theorem chain_of_walk (h : walk next k p = some l) : Chain next p l := by
  induction k generalizing p l with
  | zero => cases p <;> simp_all [walk]
  | succ k ih =>
    cases p with
    | none => simp_all [walk]
    | some a =>
      obtain ⟨l', hl', rfl⟩ := Option.map_eq_some_iff.mp h
      exact ⟨rfl, ih hl'⟩

theorem walk_of_chain (h : Chain next p l) (hk : l.length ≤ k) : walk next k p = some l := by
  induction l generalizing p k with
  | nil =>
    cases h
    cases k <;> rfl
  | cons a l ih =>
    obtain ⟨rfl, h⟩ := h
    cases k with
    | zero => simp at hk
    | succ k => simp [walk, ih h (Nat.le_of_succ_le_succ hk)]

end

variable (s : NodeStack α β)

/-- A list without a circle has at most as many nodes as links were set. -/
def nodes : Option (List α) := walk s.next s.size s.head

def labels : Option (List β) := s.nodes.map (·.map s.label)

def rebase (p : Option α) : NodeStack α β := { s with head := p }

structure Lists (s : NodeStack α β) (l : List α) : Prop where
  chain : Chain s.next s.head l
  size : l.length ≤ s.size

def Circular : Prop := ∀ l, ¬ Chain s.next s.head l

theorem Lists.labels_eq {s : NodeStack α β} {l : List α} (h : s.Lists l) :
    s.labels = some (l.map s.label) := by
  simp [labels, nodes, walk_of_chain h.chain h.size]

theorem Circular.labels_eq {s : NodeStack α β} (h : s.Circular) : s.labels = none := by
  cases hn : s.nodes with
  | none => simp [labels, hn]
  | some l => exact absurd (chain_of_walk hn) (h l)

theorem Lists.congr {s t : NodeStack α β} {l : List α} (h : s.Lists l) (hhead : t.head = s.head)
    (hnext : ∀ x ∈ l, t.next x = s.next x) (hsize : s.size ≤ t.size) : t.Lists l :=
  ⟨hhead ▸ h.chain.congr hnext, h.size.trans hsize⟩

variable [DecidableEq α]

def push (x : α) (b : β) : NodeStack α β :=
  ⟨update s.next x s.head, update s.label x b, some x, s.size + 1⟩

def pushAll (xs : List (α × β)) : NodeStack α β :=
  xs.foldl (fun s x => s.push x.1 x.2) s

@[simp] theorem pushAll_cons (x : α × β) (xs : List (α × β)) :
    s.pushAll (x :: xs) = (s.push x.1 x.2).pushAll xs := rfl

variable {s : NodeStack α β} {x : α} {b : β} {l : List α} {xs : List (α × β)}

theorem Lists.push (h : s.Lists l) (hx : x ∉ l) : (s.push x b).Lists (x :: l) :=
  ⟨h.chain.push hx, Nat.succ_le_succ h.size⟩

theorem map_label_push (hx : x ∉ l) : l.map (s.push x b).label = l.map s.label :=
  map_congr_left fun _ ha => update_of_ne (ne_of_mem_of_not_mem ha hx) _ _

theorem chain_of_push (h : Chain (s.push x b).next (s.push x b).head l) :
    ∃ l', l = x :: l' ∧ x ∉ l' ∧ Chain s.next s.head l' := by
  cases l with
  | nil => cases h
  | cons a l' =>
    have hx : x ∉ l' := by
      have := h.not_mem_of_cons
      rwa [← Option.some.inj h.1] at this
    refine ⟨l', by rw [← Option.some.inj h.1], hx, ?_⟩
    have htail := h.2
    rw [← Option.some.inj h.1] at htail
    simp only [NodeStack.push, update_self] at htail
    exact htail.congr fun a ha => (update_of_ne (ne_of_mem_of_not_mem ha hx) _ _).symm

theorem Circular.push (h : s.Circular) (x : α) (b : β) : (s.push x b).Circular := by
  intro l hl
  obtain ⟨l', -, -, hchain⟩ := chain_of_push hl
  exact h l' hchain

theorem Circular.pushAll (h : s.Circular) (xs : List (α × β)) : (s.pushAll xs).Circular := by
  induction xs generalizing s with
  | nil => exact h
  | cons x xs ih => exact ih (h.push x.1 x.2)

/-- The walk from the head stays among the nodes of `l`, and none of them is the last. -/
structure Trapped (s : NodeStack α β) (l : List α) : Prop where
  head : ∃ y ∈ l, s.head = some y
  next : ∀ y ∈ l, ∃ z ∈ l, s.next y = some z

omit [DecidableEq α] in
theorem Trapped.circular (h : s.Trapped l) : s.Circular := by
  obtain ⟨a, ha, hhead⟩ := h.head
  intro l' hl'
  rw [hhead] at hl'
  clear hhead
  induction l' generalizing a with
  | nil => cases hl'
  | cons c l' ih =>
    obtain ⟨hc, hl'⟩ := hl'
    cases hc
    obtain ⟨z, hz, hnext⟩ := h.next _ ha
    exact ih z hz (hnext ▸ hl')

theorem Trapped.push (h : s.Trapped l) (x : α) (b : β) : (s.push x b).Trapped (x :: l) where
  head := ⟨x, mem_cons_self, rfl⟩
  next := fun y hy => by
    by_cases hyx : y = x
    · obtain ⟨z, hz, hhead⟩ := h.head
      exact ⟨z, mem_cons_of_mem _ hz, hyx ▸ (update_self _ _ _).trans hhead⟩
    · obtain ⟨z, hz, hnext⟩ := h.next y ((mem_cons.mp hy).resolve_left hyx)
      exact ⟨z, mem_cons_of_mem _ hz, (update_of_ne hyx _ _).trans hnext⟩

theorem Trapped.pushAll (h : s.Trapped l) (xs : List (α × β)) :
    (s.pushAll xs).Trapped ((xs.map Prod.fst).reverse ++ l) := by
  induction xs generalizing s l with
  | nil => exact h
  | cons x xs ih =>
    rw [pushAll_cons, map_cons, reverse_cons, append_assoc]
    exact ih (h.push x.1 x.2)

/-- The second push of a node closes a circle: the nodes in front of it. -/
theorem Lists.trapped_push (h : s.Lists l) (hx : x ∈ l) :
    ∃ l', (∀ y ∈ l', y ∈ l) ∧ (s.push x b).Trapped l' := by
  obtain ⟨l₁, l₂, rfl⟩ := append_of_mem hx
  obtain ⟨hfirst, hnext⟩ := h.chain.next_mem_front
  refine ⟨l₁ ++ [x], fun y hy => ?_, ⟨x, by simp, rfl⟩, fun y hy => ?_⟩
  · rcases mem_append.mp hy with hy | hy
    · exact mem_append_left _ hy
    · exact mem_append_right _ (mem_singleton.mp hy ▸ mem_cons_self)
  by_cases hyx : y = x
  · obtain ⟨z, hz, hhead⟩ := hfirst
    exact ⟨z, hz, hyx ▸ (update_self _ _ _).trans hhead⟩
  · obtain ⟨z, hz, hy'⟩ := hnext y ((mem_append.mp hy).resolve_right (by simpa using hyx))
    exact ⟨z, hz, (update_of_ne hyx _ _).trans hy'⟩

theorem pushAll_next_of_notMem (hx : x ∉ xs.map Prod.fst) :
    (s.pushAll xs).next x = s.next x ∧ (s.pushAll xs).label x = s.label x := by
  induction xs generalizing s with
  | nil => exact ⟨rfl, rfl⟩
  | cons y ys ih =>
    simp only [map_cons, mem_cons, not_or] at hx
    obtain ⟨hnext, hlabel⟩ := ih (s := s.push y.1 y.2) hx.2
    exact ⟨hnext.trans (update_of_ne hx.1 _ _),
      hlabel.trans (update_of_ne hx.1 _ _)⟩

theorem pushAll_size (xs : List (α × β)) : (s.pushAll xs).size = s.size + xs.length := by
  induction xs generalizing s with
  | nil => rfl
  | cons x xs ih =>
    simp only [pushAll_cons, ih, NodeStack.push, length_cons]
    omega

/-- Nodes that are new and different from one another end up on the stack in reverse. -/
theorem Lists.pushAll (h : s.Lists l) (hnodup : (xs.map Prod.fst).Nodup)
    (hl : ∀ x ∈ xs.map Prod.fst, x ∉ l) : (s.pushAll xs).Lists ((xs.map Prod.fst).reverse ++ l) ∧
      ((xs.map Prod.fst).reverse ++ l).map (s.pushAll xs).label =
        (xs.map Prod.snd).reverse ++ l.map s.label := by
  induction xs generalizing s l with
  | nil => exact ⟨h, rfl⟩
  | cons x xs ih =>
    simp only [map_cons, nodup_cons] at hnodup
    have hx : x.1 ∉ l := hl x.1 mem_cons_self
    have hnew : ∀ y ∈ xs.map Prod.fst, y ∉ x.1 :: l := fun y hy hm => by
      rcases mem_cons.mp hm with rfl | hm
      · exact hnodup.1 hy
      · exact hl y (mem_cons_of_mem _ hy) hm
    obtain ⟨hlists, hlabels⟩ := ih (h.push (b := x.2) hx) hnodup.2 hnew
    have hself : (s.push x.1 x.2).label x.1 = x.2 := update_self _ _ _
    simp only [map_cons, reverse_cons, append_assoc, cons_append,
      nil_append, pushAll_cons]
    refine ⟨hlists, hlabels.trans ?_⟩
    rw [map_cons, hself, map_label_push hx]

/-- Otherwise there is a circle. -/
theorem Lists.trapped_pushAll (h : s.Lists l)
    (hdup : ¬ ((xs.map Prod.fst).Nodup ∧ ∀ x ∈ xs.map Prod.fst, x ∉ l)) :
    ∃ l', (∀ y ∈ l', y ∈ l ∨ y ∈ xs.map Prod.fst) ∧ (s.pushAll xs).Trapped l' := by
  induction xs generalizing s l with
  | nil => exact absurd ⟨nodup_nil, nofun⟩ hdup
  | cons x xs ih =>
    by_cases hx : x.1 ∈ l
    · obtain ⟨l', hl', htrap⟩ := h.trapped_push (b := x.2) hx
      refine ⟨_, fun y hy => ?_, htrap.pushAll xs⟩
      rcases mem_append.mp hy with hy | hy
      · exact .inr (mem_cons_of_mem _ (mem_reverse.mp hy))
      · exact .inl (hl' y hy)
    have hdup' : ¬ ((xs.map Prod.fst).Nodup ∧ ∀ y ∈ xs.map Prod.fst, y ∉ x.1 :: l) := by
      rintro ⟨hnodup, hnew⟩
      refine hdup ⟨nodup_cons.mpr ⟨fun hm => hnew x.1 hm mem_cons_self, hnodup⟩, fun y hy => ?_⟩
      rcases mem_cons.mp hy with rfl | hy
      · exact hx
      · exact fun hm => hnew y hy (mem_cons_of_mem _ hm)
    obtain ⟨l', hl', htrap⟩ := ih (h.push (b := x.2) hx) hdup'
    refine ⟨l', fun y hy => ?_, htrap⟩
    rcases hl' y hy with hy | hy
    · rcases mem_cons.mp hy with rfl | hy
      · exact .inr mem_cons_self
      · exact .inl hy
    · exact .inr (mem_cons_of_mem _ hy)

end NodeStack

end Dnsmasq.Lib
