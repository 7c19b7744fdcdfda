import Dnsmasq.Dhcp.Context

/-!
`option_filter`, which marks the options that a client gets. The warning about duplicates is left
out.
-/
namespace Dnsmasq.Dhcp

open List Function

/-- A `dhcp-option` line; `encap` is set if any of the flags for encapsulated options is. -/
structure DhcpOpt where
  opt : ℕ
  netid : List Tag := []
  encap : Bool := false

section Passes

variable {α : Type} (opt : α → ℕ)

/-- The first of `l` that has the number and is selected. -/
def firstOf (l : List α) (n : ℕ) (sel : α → Bool) : Option α := l.find? fun i => opt i == n && sel i

variable {opt}

theorem firstOf_cons (i : α) (l : List α) (n : ℕ) (sel : α → Bool) :
    firstOf opt (i :: l) n sel = if opt i = n ∧ sel i = true then some i
    else firstOf opt l n sel := by
  split_ifs with h
  · exact find?_cons_of_pos (by simp [h])
  · exact find?_cons_of_neg (by simpa using h)

theorem firstOf_congr {l : List α} {n : ℕ} {sel sel' : α → Bool} (h : ∀ i ∈ l, opt i = n →
    sel i = sel' i) : firstOf opt l n sel = firstOf opt l n sel' := by
  induction l with
  | nil => rfl
  | cons i l ih =>
    rw [firstOf_cons, firstOf_cons, ih fun j hj => h j (mem_cons_of_mem i hj)]
    by_cases hn : opt i = n
    · rw [h i mem_cons_self hn]
    · simp [hn]

variable [DecidableEq α] (opt)

/-- Selected options are marked unless one of the same number is. Options selected by tags have
some, so that the test of `opt->netid` adds nothing. -/
def markFrom (sel : α → Bool) (opts : List α) : List α → (α → Bool) → α → Bool
  | [], tagok => tagok
  | i :: l, tagok =>
    if !tagok i && sel i && (firstOf opt opts (opt i) tagok).isNone then
      markFrom sel opts l (update tagok i true)
    else markFrom sel opts l tagok

/-- The marks of later options with the number of a marked one are removed. -/
def dropLater : List α → (α → Bool) → α → Bool
  | [], tagok => tagok
  | i :: l, tagok => dropLater l fun j => tagok j && !(tagok i && decide (j ∈ l) && opt j == opt i)

variable {opt}

theorem firstOf_single {l : List α} {i : α} (hi : i ∈ l) :
    firstOf opt l (opt i) (fun j => decide (j = i)) = some i := by
  induction l with
  | nil => cases hi
  | cons j l ih =>
    rw [firstOf_cons]
    grind

theorem firstOf_markFrom (n : ℕ) (sel : α → Bool) {opts l : List α} (hl : l ⊆ opts)
    (tagok : α → Bool) :
    firstOf opt opts n (markFrom opt sel opts l tagok) =
    (firstOf opt opts n tagok).or (firstOf opt l n sel) := by
  induction l generalizing tagok with
  | nil => simp [markFrom, firstOf]
  | cons i l ih =>
    have hi : i ∈ opts := hl mem_cons_self
    have ih := ih fun j hj => hl (mem_cons_of_mem i hj)
    rw [markFrom, firstOf_cons]
    by_cases hn : opt i = n
    · subst hn
      cases hfirst : firstOf opt opts (opt i) tagok with
      | some j => simp [ih, hfirst]
      | none =>
        have hnone : ∀ j ∈ opts, opt j = opt i → tagok j = false := by simpa [firstOf] using hfirst
        have hone : firstOf opt opts (opt i) (update tagok i true) = some i := by
          rw [← firstOf_single hi]
          apply firstOf_congr
          intro j hj heq
          by_cases h : j = i <;> simp [h, hnone j hj heq]
        cases hsel : sel i <;> simp [hnone i hi rfl, ih, hfirst, hone]
    have hsame : firstOf opt opts n (update tagok i true) = firstOf opt opts n tagok := by
      apply firstOf_congr
      rintro j - rfl
      exact update_of_ne (fun h => hn (congrArg opt h.symm)) _ _
    split_ifs with hmark hi <;> simp_all

theorem dropLater_of_notMem {l : List α} {i : α} (hi : i ∉ l) (tagok : α → Bool) :
    dropLater opt l tagok i = tagok i := by
  induction l generalizing tagok with
  | nil => rfl
  | cons j l ih =>
    have hi : i ∉ l := fun h => hi (mem_cons_of_mem j h)
    simp [dropLater, ih hi, hi]

theorem dropLater_iff {l : List α} (hl : l.Nodup) {i : α} (hi : i ∈ l) (tagok : α → Bool) :
    dropLater opt l tagok i = true ↔ firstOf opt l (opt i) tagok = some i := by
  induction l generalizing tagok with
  | nil => cases hi
  | cons j l ih =>
    obtain ⟨hj, hl⟩ := nodup_cons.mp hl
    rw [dropLater, firstOf_cons]
    rcases mem_cons.mp hi with rfl | hi
    · rw [dropLater_of_notMem hj]
      have hlater : firstOf opt l (opt i) tagok ≠ some i := fun h => hj (mem_of_find?_eq_some h)
      cases htagok : tagok i <;> simp [hj, hlater]
    rw [ih hl hi]
    by_cases hmark : opt j = opt i ∧ tagok j = true
    · have hgone : firstOf opt l (opt i) (fun k => tagok k &&
          !(tagok j && decide (k ∈ l) && opt k == opt j)) = none := by
        simp +contextual [firstOf, hmark]
      have hne : j ≠ i := fun h => hj (h ▸ hi)
      rw [hgone, if_pos hmark]
      simp [hne]
    rw [if_neg hmark]
    apply Eq.congr_left
    apply firstOf_congr
    grind

end Passes

variable {n : ℕ} (exprs : List TagIf) (tags contextTags : List Tag) (opts : Fin n → DhcpOpt)

def taggedBy (i : Fin n) : Bool := !(opts i).encap && matchNetid (opts i).netid
    (runTagIf exprs tags) false

def untagged (i : Fin n) : Bool := !(opts i).encap && (opts i).netid.isEmpty

/-- The tags that count at last, and which options are marked. -/
def optionFilter : List Tag × (Fin n → Bool) :=
  let all := List.finRange n
  let number i := (opts i).opt
  let tagok := taggedBy exprs tags opts
  let tagok := if contextTags.isEmpty then tagok
    else
      let tagif := taggedBy exprs (contextTags ++ tags) opts
      markFrom number tagif all all fun i => tagok i && tagif i
  let tagok := markFrom number (untagged opts) all all tagok
  (runTagIf exprs (contextTags ++ tags), dropLater number all tagok)

/-- What the tags of the client select comes first, if those of the context allow it, then what
these select and then what is for all. -/
def chosen (number : ℕ) : Option (Fin n) :=
  let first := firstOf (fun i => (opts i).opt) (List.finRange n) number
  let tagged := taggedBy exprs (contextTags ++ tags) opts
  (first fun i => taggedBy exprs tags opts i &&
    tagged i).or ((first tagged).or (first (untagged opts)))

/-- At most one option of a number is marked, and it is the one that should be. -/
theorem optionFilter_iff (i : Fin n) :
    (optionFilter exprs tags contextTags opts).2 i = true ↔
    chosen exprs tags contextTags opts (opts i).opt = some i := by
  simp only [optionFilter, chosen]
  rw [dropLater_iff (nodup_finRange n) (mem_finRange i), firstOf_markFrom _ _ (List.Subset.refl _)]
  cases contextTags with
  | nil =>
    simp only [isEmpty_nil, if_true, nil_append, Bool.and_self]
    rw [← Option.or_assoc, Option.or_self]
  | cons tag contextTags =>
    simp only [isEmpty_cons, Bool.false_eq_true, if_false]
    rw [firstOf_markFrom _ _ (List.Subset.refl _), Option.or_assoc]

/-!
`do_encap_opts`, where there is space in the packet.
-/
/-- An option; `matched` is set if it has the flag that is looked for. -/
structure SubOption where
  opt : UInt8
  val : Bytes
  string : Bool := false
  matched : Bool := true
  short : val.length ≤ 255

variable (nullTerm : Bool)

namespace SubOption

variable (o : SubOption)

def doOpt : Bytes := if o.string && nullTerm && o.val.length != 255 then o.val ++ [0] else o.val

/-- The size with number and length. -/
def size : ℕ := (o.doOpt nullTerm).length + 2

def written : Bytes := o.opt :: UInt8.ofNat (o.doOpt nullTerm).length :: o.doOpt nullTerm

@[simp] theorem length_written : (o.written nullTerm).length = o.size nullTerm := rfl

theorem doOpt_length : (o.doOpt nullTerm).length ≤ 255 := by
  have hshort := o.short
  unfold doOpt
  split_ifs with h
  · simp only [Bool.and_eq_true, bne_iff_ne] at h
    rw [length_append, length_singleton]
    omega
  · exact hshort

end SubOption

/-- An encapsulating option as it is written. -/
structure Encap where
  len : UInt8
  contents : Bytes

/-- `encLen` is the size of the options from `start` on. -/
def doEncapOpts (encLen : ℕ) (start : List SubOption) : List SubOption → List Encap
  | [] =>
    if encLen = 0 then []
      else [⟨UInt8.ofNat (encLen + 1), start.flatMap (·.written nullTerm) ++ [255]⟩]
  | o :: opts =>
    if !o.matched then doEncapOpts encLen start opts
    else if encLen + o.size nullTerm ≤ 255 then
      doEncapOpts (encLen + o.size nullTerm) (start ++ [o]) opts
    else ⟨UInt8.ofNat encLen, start.flatMap (·.written nullTerm)⟩ ::
      doEncapOpts (o.size nullTerm) [o] opts

/-- The options that `option_find1` steps over. -/
def subOptions : Bytes → List (UInt8 × Bytes)
  | n :: len :: l =>
    if n = 255 then []
    else if n = 0 then subOptions (len :: l)
    else if len.toNat ≤ l.length then (n, l.take len.toNat) :: subOptions (l.drop len.toNat)
    else []
  | _ => []
termination_by l => l.length

def Encapsulates (opts : List SubOption) : Prop :=
  let out := doEncapOpts nullTerm 0 [] opts
  let contents := out.flatMap (·.contents)
  let selected := opts.filter (·.matched)
  (∀ x ∈ out, x.len.toNat = x.contents.length) ∧ (selected ≠ [] → contents.getLast? = some 255) ∧
    subOptions contents = selected.map fun o => (o.opt, o.doOpt nullTerm)

/-- What is left for the last piece if each of the others is filled up to 255 octets. -/
def lastLen (encLen : ℕ) (opts : List SubOption) : ℕ :=
  opts.foldl (fun n o => if n + o.size nullTerm ≤ 255 then n + o.size nullTerm
    else o.size nullTerm) encLen

variable {nullTerm} {opts : List SubOption}

section

variable (encLen : ℕ) (start : List SubOption)
  (h : encLen = (start.flatMap (·.written nullTerm)).length)
include h

theorem doEncapOpts_contents : (doEncapOpts nullTerm encLen start opts).flatMap (·.contents) =
      (start ++ opts.filter (·.matched)).flatMap (·.written nullTerm) ++
        if encLen = 0 ∧ opts.filter (·.matched) = [] then [] else [255] := by
  induction opts generalizing encLen start with
  | nil =>
    by_cases hzero : encLen = 0
    · have hnil := eq_nil_of_length_eq_zero (h.symm.trans hzero)
      simp [doEncapOpts, hzero, hnil]
    · simp [doEncapOpts, hzero]
  | cons o opts ih =>
    have hsize : o.size nullTerm ≠ 0 := by simp [SubOption.size]
    rw [doEncapOpts]
    cases hm : o.matched with
    | false => simp [ih encLen start h, hm]
    | true =>
      by_cases hfit : encLen + o.size nullTerm ≤ 255
      · simp [hfit, hm, hsize, ih (encLen + o.size nullTerm) (start ++ [o]) (by simp [h])]
      · simp [hfit, hm, hsize, ih (o.size nullTerm) [o] (by simp)]

theorem doEncapOpts_lengths :
    (∀ x ∈ doEncapOpts nullTerm encLen start opts, x.len.toNat = x.contents.length) ↔
      encLen ≤ 255 ∧ (∀ o ∈ opts.filter (·.matched), o.size nullTerm ≤ 255) ∧
        lastLen nullTerm encLen (opts.filter (·.matched)) ≠ 255 := by
  induction opts generalizing encLen start with
  | nil =>
    by_cases hzero : encLen = 0
    · simp [doEncapOpts, lastLen, hzero]
    · simp only [doEncapOpts, hzero, if_false, forall_mem_singleton, UInt8.toNat_ofNat',
        length_append, ← h,
        length_singleton, filter_nil, not_mem_nil, false_imp_iff, implies_true, true_and,
        lastLen, foldl_nil]
      omega
  | cons o opts ih =>
    rw [doEncapOpts]
    cases hm : o.matched with
    | false => simp [ih encLen start h, hm]
    | true =>
      by_cases hfit : encLen + o.size nullTerm ≤ 255
      · have hle : encLen ≤ 255 ∧ o.size nullTerm ≤ 255 := by omega
        simp [hfit, hm, hle, lastLen, ih (encLen + o.size nullTerm) (start ++ [o]) (by simp [h])]
      · have hlt : encLen < 256 ↔ encLen ≤ 255 := Nat.lt_succ_iff
        simp [hfit, hm, lastLen, ih (o.size nullTerm) [o] (by simp), -length_flatMap, ← h,
          hlt, and_assoc]

end

theorem subOptions_number {l : Bytes} : ∀ x ∈ subOptions l, x.1 ≠ 0 ∧ x.1 ≠ 255 := by
  fun_induction subOptions l with grind

theorem subOptions_written (h : ∀ o ∈ opts, o.opt ≠ 0 ∧ o.opt ≠ 255) {l : Bytes}
    (hl : subOptions l = []) :
    subOptions (opts.flatMap (·.written nullTerm) ++ l) = opts.map fun o =>
    (o.opt, o.doOpt nullTerm) := by
  induction opts with
  | nil => exact hl
  | cons o opts ih =>
    obtain ⟨ho, h⟩ := forall_mem_cons.mp h
    have hlen : (UInt8.ofNat (o.doOpt nullTerm).length).toNat = (o.doOpt nullTerm).length := by
      have := o.doOpt_length nullTerm
      rw [UInt8.toNat_ofNat']
      omega
    rw [flatMap_cons, SubOption.written, append_assoc, cons_append, cons_append, subOptions]
    simp [ho, hlen, ih h]

/-- Every option has room, none is taken for padding or the end, and the last piece has room for the
end. -/
theorem encapsulates_iff (nullTerm : Bool) (opts : List SubOption) : Encapsulates nullTerm opts ↔
      (∀ o ∈ opts.filter (·.matched), (o.opt ≠ 0 ∧ o.opt ≠ 255) ∧ o.size nullTerm ≤ 255) ∧
        lastLen nullTerm 0 (opts.filter (·.matched)) ≠ 255 := by
  rw [Encapsulates, doEncapOpts_lengths 0 [] rfl, doEncapOpts_contents 0 [] rfl]
  constructor
  · rintro ⟨⟨-, hsize, hlast⟩, -, heq⟩
    refine ⟨fun o ho => ⟨?_, hsize o ho⟩, hlast⟩
    apply subOptions_number (o.opt, o.doOpt nullTerm)
    rw [heq]
    exact mem_map_of_mem ho
  · rintro ⟨h, hlast⟩
    refine ⟨⟨by decide, fun o ho => (h o ho).2, hlast⟩, fun hne => ?_, ?_⟩
    · rw [if_neg fun hnil => hne hnil.2, getLast?_concat]
    apply subOptions_written fun o ho => (h o ho).1
    split_ifs <;> simp [subOptions]

/-- An option of 253 octets fills its piece, and with the end the length octet is 0. -/
theorem doEncapOpts_wraps :
    (doEncapOpts false 0 [] [{ opt := 1, val := List.replicate 253 0,
                               short := by rw [length_replicate]; decide }]).map
      (fun x => (x.len, x.contents.length)) = [(0, 256)] := by
  simp [doEncapOpts, SubOption.size, SubOption.doOpt, -List.reduceReplicate]

end Dnsmasq.Dhcp
