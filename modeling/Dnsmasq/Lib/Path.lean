import Mathlib.Tactic

/-!
Path names over an arbitrary alphabet, and what they name when their `.` and `..` components are
resolved without a look at the file system.
-/
namespace Dnsmasq.Lib.Path

open List

variable {α : Type*} [DecidableEq α] {sep dot : α}

def step (dot : α) (at' : List (List α)) (c : List α) : List (List α) :=
  if c = [] ∨ c = [dot] then at' else if c = [dot, dot] then at'.dropLast else at' ++ [c]

def walk (dot : α) (at' : List (List α)) (cs : List (List α)) : List (List α) :=
    cs.foldl (step dot) at'

/-- The directories from the root to what the path names. -/
def resolve (sep dot : α) (p : List α) : List (List α) := walk dot [] (p.splitOn sep)

theorem splitOn_append (d t : List α) :
    (d ++ sep :: t).splitOn sep = d.splitOn sep ++ t.splitOn sep :=
  splitOnP_append_cons d t (beq_self_eq_true sep)

theorem splitOn_ne_nil (p : List α) : p.splitOn sep ≠ [] := splitOnP_ne_nil _ p

variable {c t d : List α} {cs : List (List α)}

theorem splitOn_of_not_mem (h : sep ∉ c) : c.splitOn sep = [c] := by
  induction c with
  | nil => rfl
  | cons x c ih =>
    have hx : ¬(x == sep) = true := by
      intro he
      rw [beq_iff_eq] at he
      exact h (he ▸ mem_cons_self)
    have hc : c.splitOnP (· == sep) = [c] := ih fun hm => h (mem_cons_of_mem x hm)
    rw [List.splitOn, splitOnP_cons_eq_if_modifyHead, if_neg hx, hc]
    rfl

theorem flatMap_splitOn (p : List α) : (p.splitOn sep).flatMap (sep :: ·) = sep :: p := by
  have hjoin : ∀ cs : List (List α), cs ≠ [] →
      cs.flatMap (sep :: ·) = sep :: [sep].intercalate cs := by
    intro cs
    induction cs with
    | nil => exact fun h => absurd rfl h
    | cons c cs ih =>
      cases cs with
      | nil => simp
      | cons d cs => simp [ih (cons_ne_nil d cs), intercalate_cons_cons]
  rw [hjoin _ (splitOn_ne_nil p), intercalate_splitOn]

/-- All components but the last stand between separators, if there is one in front. -/
theorem infix_of_mem_dropLast (h : c ∈ (t.splitOn sep).dropLast) :
    sep :: c ++ [sep] <:+: sep :: t := by
  obtain ⟨pre, post, heq⟩ := append_of_mem h
  have hsplit : t.splitOn sep = pre ++ c ::
      (post ++ [(t.splitOn sep).getLast (splitOn_ne_nil t)]) := by
    rw [← cons_append, ← append_assoc, ← heq]
    exact (dropLast_append_getLast _).symm
  rw [← flatMap_splitOn t, hsplit]
  generalize hlast : post ++ _ = rest
  cases rest with
  | nil => simp at hlast
  | cons d rest =>
    refine ⟨pre.flatMap (sep :: ·), d ++ rest.flatMap (sep :: ·), ?_⟩
    simp

theorem mem_dropLast_of_infix {p : List α} (hc : sep ∉ c) (h : sep :: c ++ [sep] <:+: p) :
    c ∈ (p.splitOn sep).dropLast := by
  obtain ⟨a, b, rfl⟩ := h
  have heq : a ++ (sep :: c ++ [sep]) ++ b = a ++ sep :: (c ++ sep :: b) := by simp
  rw [heq, splitOn_append, splitOn_append, splitOn_of_not_mem hc,
    dropLast_append_of_ne_nil (by simp), dropLast_append_of_ne_nil (splitOn_ne_nil b)]
  simp

theorem walk_append (dot : α) (at' : List (List α)) (cs ds : List (List α)) :
    walk dot at' (cs ++ ds) = walk dot (walk dot at' cs) ds := foldl_append

theorem resolve_append (d t : List α) : resolve sep dot (d ++ sep :: t) = walk dot
    (resolve sep dot d) (t.splitOn sep) := by
  rw [resolve, splitOn_append, walk_append, resolve]

def Idle (dot : α) (c : List α) : Prop := c = [] ∨ c = [dot]

instance (dot : α) (c : List α) : Decidable (Idle dot c) := inferInstanceAs (Decidable (_ ∨ _))

theorem step_idle (h : Idle dot c) (at' : List (List α)) : step dot at' c = at' := if_pos h

theorem walk_idle (h : ∀ c ∈ cs, Idle dot c) (at' : List (List α)) : walk dot at' cs = at' := by
  induction cs generalizing at' with
  | nil => rfl
  | cons c cs ih =>
    rw [walk, foldl_cons, step_idle (h c mem_cons_self)]
    exact ih (fun d hd => h d (mem_cons_of_mem c hd)) at'

theorem walk_down (h : [dot, dot] ∉ cs) (at' : List (List α)) :
    ∃ down, walk dot at' cs = at' ++ down ∧ (down = [] → ∀ c ∈ cs, Idle dot c) := by
  induction cs generalizing at' with
  | nil => exact ⟨[], by simp [walk], fun _ => nofun⟩
  | cons c cs ih =>
    obtain ⟨hc, hcs⟩ := ne_and_not_mem_of_not_mem_cons h
    by_cases hi : Idle dot c
    · obtain ⟨down, heq, hdown⟩ := ih hcs at'
      refine ⟨down, ?_, fun hnil => ?_⟩
      · rw [walk, foldl_cons, step_idle hi]
        exact heq
      · exact forall_mem_cons.mpr ⟨hi, hdown hnil⟩
    obtain ⟨down, heq, -⟩ := ih hcs (at' ++ [c])
    refine ⟨c :: down, ?_, fun hnil => absurd hnil (cons_ne_nil c down)⟩
    rw [walk, foldl_cons, step, if_neg (show ¬(c = [] ∨ c = [dot]) from hi), if_neg hc.symm]
    rw [walk] at heq
    rw [heq, append_assoc]
    rfl

/-- The path is `..` after idle components. -/
def Climbs (sep dot : α) (t : List α) : Prop :=
  (t.splitOn sep).getLast? = some [dot, dot] ∧ ∀ c ∈ (t.splitOn sep).dropLast, Idle dot c

instance (sep dot : α) (t : List α) : Decidable (Climbs sep dot t) :=
    inferInstanceAs (Decidable (_ ∧ _))

/-- A path below `d` in which only the last component may be `..` stays there, unless it does
nothing but climb. -/
theorem resolve_below_iff (hdot : [dot, dot] ∉ (t.splitOn sep).dropLast) :
    resolve sep dot d <+: resolve sep dot (d ++ sep :: t) ↔ resolve sep dot d = [] ∨
    ¬Climbs sep dot t := by
  obtain ⟨last, hsplit⟩ : ∃ last, t.splitOn sep = (t.splitOn sep).dropLast ++ [last] :=
    ⟨_, (dropLast_append_getLast (splitOn_ne_nil t)).symm⟩
  have hlast : (t.splitOn sep).getLast? = some last := by
    rw [hsplit]
    simp
  obtain ⟨down, hdown, hidle⟩ := walk_down hdot (resolve sep dot d)
  have hresolve : resolve sep dot (d ++ sep :: t) = step dot (resolve sep dot d ++ down) last := by
    rw [resolve_append, hsplit, walk_append, hdown]
    rfl
  rw [hresolve, Climbs, hlast, Option.some.injEq]
  by_cases hup : last = [dot, dot]
  · subst hup
    have hstep : step dot (resolve sep dot d ++ down) [dot, dot] =
        (resolve sep dot d ++ down).dropLast := by
      simp [step]
    rw [hstep]
    cases down with
    | nil =>
      have hall := hidle rfl
      rw [append_nil]
      constructor
      · intro hpre
        left
        have hlen := hpre.length_le
        rw [length_dropLast] at hlen
        exact length_eq_zero_iff.mp (by omega)
      rintro (hnil | hnot)
      · rw [hnil]
        exact nil_prefix
      · exact absurd ⟨rfl, hall⟩ hnot
    | cons x down =>
      rw [dropLast_append_of_ne_nil (cons_ne_nil x down)]
      refine ⟨fun _ => .inr fun hclimb => ?_, fun _ => prefix_append _ _⟩
      have := walk_idle hclimb.2 (resolve sep dot d)
      rw [hdown] at this
      simp at this
  refine ⟨fun _ => .inr fun hclimb => hup hclimb.1, fun _ => ?_⟩
  unfold step
  split_ifs
  · exact prefix_append _ _
  · rw [append_assoc]
    exact prefix_append _ _

theorem not_climbs_of_head {x : α} (hs : x ≠ sep) (hd : x ≠ dot) : ¬Climbs sep dot (x :: t) := by
  rintro ⟨hlast, hidle⟩
  have hsplit : (x :: t).splitOn sep = (t.splitOn sep).modifyHead (x :: ·) := by
    rw [List.splitOn, splitOnP_cons_eq_if_modifyHead, if_neg (by simpa using hs)]
    rfl
  rw [hsplit] at hlast hidle
  cases hc : t.splitOn sep with
  | nil => exact splitOn_ne_nil t hc
  | cons c cs =>
    rw [hc] at hlast hidle
    cases cs with
    | nil =>
      cases hlast
      exact hd rfl
    | cons e cs =>
      have := hidle (x :: c) (by simp)
      rcases this with h | h
      · cases h
      · cases h
        exact hd rfl

theorem two_le_length_of_climbs (h : Climbs sep dot t) : 2 ≤ t.length := by
  obtain ⟨pre, hpre⟩ := getLast?_eq_some_iff.mp h.1
  have hjoin : (t.splitOn sep).flatMap (sep :: ·) = sep :: t := flatMap_splitOn t
  have hlen := congrArg List.length hjoin
  rw [hpre] at hlen
  simp at hlen
  omega

/-- Where nothing but idle components and a last `..` follow, no `..` stands between separators. -/
theorem Climbs.not_infix (h : Climbs sep dot t) (hne : sep ≠ dot) (hd : [dot, dot] ∉
    d.splitOn sep) : ¬sep :: [dot, dot] ++ [sep] <:+: d ++ sep :: t := by
  intro hinf
  have hmem := mem_dropLast_of_infix (by simpa using hne) hinf
  rw [splitOn_append, dropLast_append_of_ne_nil (splitOn_ne_nil t)] at hmem
  rcases mem_append.mp hmem with hm | hm
  · exact hd hm
  · rcases h.2 _ hm with he | he
    · cases he
    · cases he

end Dnsmasq.Lib.Path
