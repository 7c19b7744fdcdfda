import Dnsmasq.DomainMatch.Lookup
import Dnsmasq.Lib.NodeStack

/-!
`daemon->servers` while the configuration is read again. A `struct server *` is the number of a
cell, and a pointer to a link is the cell whose link it is, or none for the head of the list.
-/
namespace Dnsmasq.DomainMatch

open Lib

def servMark : BitVec 16 := 512

def servFromResolv : BitVec 16 := 2048

def servIsLocal : BitVec 16 := servUseResolv ||| servLiteralAddress

structure Upstream (α : Type) where
  flags : BitVec 16 := 0
  domain : CString := []
  addr : Option α := none
  sourceAddr : Option α := none
  interface : CString := []

/-- The arguments of `add_update_server` for an upstream server, and whether there is memory
for a new domain and for a new server. -/
structure Request (α : Type) where
  flags : BitVec 16 := 0
  addr : Option α := none
  sourceAddr : Option α := none
  interface : Option CString := none
  domain : CString := []
  domainMemory : Bool := true
  memory : Bool := true
  notLocal : Mask.test flags servIsLocal = false := by decide
  notMarked : Mask.test flags servMark = false := by decide

/-- `fresh` is the next cell that `whine_malloc` returns. -/
structure ServerList (α : Type) where
  next : ℕ → Option ℕ
  serv : ℕ → Upstream α
  servers : Option ℕ
  serversTail : Option ℕ
  fresh : ℕ

/-- The domain of the request without dots or a star before it, as it is stored, and the flags
of the server. -/
def Request.target {α : Type} (canonicalise : CString → Option CString) (r : Request α) :
    Option (CString × BitVec 16) :=
  let store (domain : CString) : Option CString :=
    if domain.isEmpty then (if r.domainMemory then some [] else none) else canonicalise domain
  match r.domain with
  | 46 :: rest => (store (rest.dropWhile (· == dot))).map fun domain => (domain, r.flags)
  | 42 :: rest =>
    (store rest).map fun domain => (domain, if rest.isEmpty then r.flags
      else r.flags ||| servWildcard)
  | domain => (store domain).map fun domain => (domain, r.flags)

namespace ServerList

variable {α : Type}

variable (s : ServerList α)

def marked (i : ℕ) : Bool := Mask.test (s.serv i).flags servMark

def modify (i : ℕ) (f : Upstream α → Upstream α) : ServerList α :=
  { s with serv := Function.update s.serv i (f (s.serv i)) }

def setLink (up q : Option ℕ) : ServerList α :=
  { s with next := linkSet s.next up q, servers := headSet s.servers up q }

def mark (flag : BitVec 16) (u : Upstream α) : Upstream α :=
  { u with flags := if Mask.test u.flags flag then u.flags ||| servMark
             else u.flags &&& ~~~servMark }

def markFrom (flag : BitVec 16) : ℕ → Option ℕ → ServerList α → ServerList α
  | 0, _, s => s
  | _, none, s => s
  | k + 1, some i, s =>
    markFrom flag k (s.next i) { s.modify i (mark flag) with serversTail := some i }

def markServers (flag : BitVec 16) : ServerList α :=
  markFrom flag s.fresh s.servers { s with serversTail := none }

def findMarked (s : ServerList α) (domain : CString) : ℕ → Option ℕ → Option ℕ
  | 0, _ => none
  | _, none => none
  | k + 1, some i =>
    if s.marked i && hostnameIsequal domain (s.serv i).domain then some i
      else findMarked s domain k (s.next i)

/-- The found server goes to the end of the list, if it is not there. The pointer `up` still
points at the head of the list then, wherever the server was found. -/
def moveToEnd (i : ℕ) : ServerList α :=
  match s.next i, s.serversTail with
  | some n, some tail =>
    let s := s.setLink none (some n)
    { s with next := Function.update (Function.update s.next tail (some i)) i none,
             serversTail := some i }
  | _, _ => s

def append : ServerList α :=
  let s' := s.setLink s.serversTail (some s.fresh)
  { s' with next := Function.update s'.next s.fresh none, serv := Function.update s.serv s.fresh {}
            serversTail := some s.fresh, fresh := s.fresh + 1 }

def fill (r : Request α) (domain : CString) (flags : BitVec 16) (u : Upstream α) : Upstream α where
  flags
  domain
  addr := r.addr <|> u.addr
  sourceAddr := r.sourceAddr <|> u.sourceAddr
  interface := r.interface.getD u.interface

/-- The server that is confirmed or added, if there is one, and the list after it. -/
def addUpdateServer (canonicalise : CString → Option CString) (s : ServerList α) (r : Request α) :
    Option ℕ × ServerList α :=
  match r.target canonicalise with
  | none => (none, s)
  | some (domain, flags) =>
    match s.findMarked domain s.fresh s.servers with
    | some i => (some i, (s.moveToEnd i).modify i (fill r (s.serv i).domain flags))
    | none =>
      if r.memory then (some s.fresh, s.append.modify s.fresh (fill r domain flags))
      else (none, s)

def cleanupFrom : ℕ → Option ℕ → Option ℕ → ServerList α → ServerList α
  | 0, _, _, s => s
  | _, none, _, s => s
  | k + 1, some i, up, s =>
    if s.marked i then cleanupFrom k (s.next i) up (s.setLink up (s.next i))
    else cleanupFrom k (s.next i) (some i) { s with serversTail := some i }

def cleanupServers : ServerList α :=
  cleanupFrom s.fresh s.servers none { s with serversTail := none }

/-- All calls between marking and cleaning up, with the servers they have confirmed or added. -/
def update (canonicalise : CString → Option CString) : ServerList α → List (Request α) →
    List ℕ × ServerList α
  | s, [] => ([], s)
  | s, r :: rs =>
    let (i, s) := s.addUpdateServer canonicalise r
    let (is, s) := update canonicalise s rs
    (i.toList ++ is, s)

def reload (canonicalise : CString → Option CString) (s : ServerList α) (flag : BitVec 16)
    (rs : List (Request α)) : List ℕ × ServerList α :=
  let (is, s) := (s.markServers flag).update canonicalise rs
  (is, s.cleanupServers)

end ServerList

/-!
What is left of the list of upstream servers after a reload. A server that is found again behind
others takes its place at the end, but the others are cut off.
-/
open List hiding Chain
open Option Lib

namespace ServerList

variable {α : Type} {s s' : ServerList α} {l : List ℕ} {canonicalise : CString → Option CString}

structure Lists (s : ServerList α) (l : List ℕ) : Prop where
  chain : Chain s.next s.servers l
  bound : ∀ i ∈ l, i < s.fresh

structure Ready (s : ServerList α) (l : List ℕ) : Prop extends s.Lists l where
  tail : s.serversTail = l.getLast?

theorem Lists.length_le (h : s.Lists l) : l.length ≤ s.fresh := by
  have hsub : l ⊆ List.range s.fresh := fun i hi => mem_range.mpr (h.bound i hi)
  simpa using (h.chain.nodup.subperm hsub).length_le

theorem test_mark (flag : BitVec 16) (u : Upstream α) :
    Mask.test (mark flag u).flags servMark = Mask.test u.flags flag := by
  unfold mark
  by_cases h : Mask.test u.flags flag = true
  · simp only [h, if_true]
    apply Mask.test_eq_true.mpr
    intro hzero
    have hbit := congrArg (BitVec.getLsbD · 9) hzero
    simp [servMark] at hbit
  simp only [h, Bool.false_eq_true, if_false]
  apply Mask.test_eq_false.mpr
  rw [BitVec.and_assoc]
  simp

theorem markFrom_spec (flag : BitVec 16) {k : ℕ} {p : Option ℕ} (h : Chain s.next p l)
    (hk : l.length ≤ k) : (markFrom flag k p s).next = s.next ∧
    (markFrom flag k p s).servers = s.servers ∧
      (markFrom flag k p s).fresh = s.fresh ∧
      (markFrom flag k p s).serversTail = l.getLast?.or s.serversTail ∧
      ∀ i, (markFrom flag k p s).serv i = if i ∈ l then mark flag (s.serv i) else s.serv i := by
  induction l generalizing s k p with
  | nil =>
    cases h
    cases k <;> simp [markFrom]
  | cons a l ih =>
    obtain ⟨rfl, htail⟩ := h
    cases k with
    | zero => simp at hk
    | succ k =>
      have hnot := Chain.not_mem_of_cons (show Chain s.next (some a) (a :: l) from ⟨rfl, htail⟩)
      obtain ⟨hnext, hservers, hfresh, hlast, hserv⟩ :=
        @ih { s.modify a (mark flag) with serversTail := some a }
          k _ htail (Nat.le_of_succ_le_succ hk)
      refine ⟨hnext, hservers, hfresh, ?_, ?_⟩
      · rw [show (a :: l).getLast?.or s.serversTail = l.getLast?.or (some a) by
          rw [getLast?_cons]; cases l.getLast? <;> rfl]
        exact hlast
      intro i
      rw [show (markFrom flag (k + 1) (some a) s).serv i = _ from hserv i]
      by_cases hi : i = a
      · subst hi
        simp [hnot, modify]
      · simp [hi, modify]

theorem Lists.markServers (h : s.Lists l) (flag : BitVec 16) :
    (s.markServers flag).Ready l ∧ ∀ i ∈ l, (s.markServers flag).marked i =
    Mask.test (s.serv i).flags flag := by
  obtain ⟨hnext, hservers, hfresh, hlast, hserv⟩ :=
    @markFrom_spec α { s with serversTail := none } l flag s.fresh s.servers h.chain h.length_le
  refine ⟨⟨⟨?_, ?_⟩, ?_⟩, ?_⟩
  · unfold ServerList.markServers
    rw [hnext, hservers]
    exact h.chain
  · unfold ServerList.markServers
    rw [hfresh]
    exact h.bound
  · unfold ServerList.markServers
    rw [hlast]
    exact or_none
  · intro i hi
    unfold marked ServerList.markServers
    rw [hserv, if_pos hi, test_mark]

theorem findMarked_eq (domain : CString) {k : ℕ} {p : Option ℕ} (h : Chain s.next p l)
    (hk : l.length ≤ k) :
    s.findMarked domain k p = l.find? fun i => s.marked i &&
    hostnameIsequal domain (s.serv i).domain := by
  induction l generalizing k p with
  | nil =>
    cases h
    cases k <;> rfl
  | cons a l ih =>
    obtain ⟨rfl, htail⟩ := h
    cases k with
    | zero => simp at hk
    | succ k =>
      rw [findMarked, ih htail (Nat.le_of_succ_le_succ hk)]
      by_cases hfound : (s.marked a && hostnameIsequal domain (s.serv a).domain) = true
      · rw [if_pos hfound]
        exact (find?_cons_of_pos (p := fun i => s.marked i &&
          hostnameIsequal domain (s.serv i).domain) hfound).symm
      · rw [if_neg hfound]
        exact (find?_cons_of_neg (p := fun i => s.marked i &&
          hostnameIsequal domain (s.serv i).domain) hfound).symm

variable {i j : ℕ} {pre post l' : List ℕ}

theorem fill_unmarked {r : Request α} {stored domain : CString} {flags : BitVec 16}
    (h : r.target canonicalise = some (stored, flags)) (u : Upstream α) :
    Mask.test (fill r domain flags u).flags servMark = false := by
  have hmark := Mask.test_eq_false.mp r.notMarked
  have hwild : (r.flags ||| servWildcard) &&& servMark = 0 := by
    rw [BitVec.and_comm, BitVec.and_or_distrib_left, BitVec.and_comm servMark r.flags, hmark]
    rfl
  apply Mask.test_eq_false.mpr
  unfold Request.target at h
  dsimp only at h
  split at h
  · obtain ⟨stored', -, heq⟩ := map_eq_some_iff.mp h
    cases heq
    exact hmark
  · obtain ⟨stored', -, heq⟩ := map_eq_some_iff.mp h
    cases heq
    split
    · exact hmark
    · exact hwild
  · obtain ⟨stored', -, heq⟩ := map_eq_some_iff.mp h
    cases heq
    exact hmark

def found (canonicalise : CString → Option CString) (s : ServerList α) (r : Request α) : Option ℕ :=
  (r.target canonicalise).bind fun target => s.findMarked target.1 s.fresh s.servers

/-- What a call does to the list: the server it has found, the one it returns, and the list
after it. -/
inductive Added (s : ServerList α) (l : List ℕ) : Option ℕ → Option ℕ → List ℕ → Prop
  | failed : Added s l none none l
  | appended : Added s l none (some s.fresh) (l ++ [s.fresh])
  | atEnd {pre : List ℕ} {i : ℕ} (hl : l = pre ++ [i]) (hi : s.marked i = true) :
      Added s l (some i) (some i) l
  | moved {pre post : List ℕ} {i : ℕ} (hl : l = pre ++ i :: post) (hi : s.marked i = true)
      (hpost : post ≠ []) : Added s l (some i) (some i) (post ++ [i])

theorem Ready.modify (h : s.Ready l) (i : ℕ) (f : Upstream α → Upstream α) :
    (s.modify i f).Ready l :=
  ⟨⟨h.chain, h.bound⟩, h.tail⟩

theorem Ready.moveToEnd_last (h : s.Ready (pre ++ [i])) : s.moveToEnd i = s := by
  have hnext : s.next i = none := h.chain.from_cell.2
  unfold moveToEnd
  rw [hnext]

theorem Ready.moveToEnd (h : s.Ready (pre ++ i :: post)) (hpost : post ≠ []) :
    (s.moveToEnd i).Ready (post ++ [i]) ∧ (s.moveToEnd i).serv = s.serv ∧
    (s.moveToEnd i).fresh = s.fresh := by
  obtain ⟨init, last, rfl⟩ := (eq_nil_or_concat post).resolve_left hpost
  rw [concat_eq_append] at h hpost ⊢
  have hcell : Chain s.next (some i) (i :: (init ++ [last])) := h.chain.from_cell
  have hi : i ∉ init ++ [last] := hcell.not_mem_of_cons
  have htail : s.serversTail = some last := by
    rw [h.tail, show pre ++ i :: (init ++ [last]) =
      (pre ++ i :: init) ++ [last] by simp, getLast?_concat]
  have hchain : Chain s.next (s.next i) (init ++ [last]) := hcell.2
  obtain ⟨n, hn⟩ : ∃ n, s.next i = some n := by
    cases hnext : s.next i with
    | none => simp [hnext, Chain.none_iff] at hchain
    | some n => exact ⟨n, rfl⟩
  -- The last cell is linked to the server, and the server to nothing.
  have hend : Chain (Function.update (Function.update s.next last (some i)) i none) (s.next i)
      (init ++ [last] ++ [i]) := by
    have hne : last ≠ i := fun e => hi (by simp [e])
    have hself : Chain (Function.update s.next i none) (some i) [i] :=
      ⟨rfl, Function.update_self ..⟩
    rw [Function.update_comm hne, append_assoc]
    exact (hchain.update_of_notMem hi none).redirect hself (by simpa using hne)
  unfold ServerList.moveToEnd
  rw [hn] at hend ⊢
  rw [htail]
  refine ⟨⟨⟨hend, ?_⟩, by simp⟩, rfl, rfl⟩
  intro j hj
  apply h.bound j
  rcases mem_append.mp hj with hj | hj
  · exact mem_append_right pre (mem_cons_of_mem i hj)
  · cases mem_singleton.mp hj
    simp

theorem Ready.append (h : s.Ready l) : s.append.Ready (l ++ [s.fresh]) := by
  have hnew : s.fresh ∉ l := fun hm => Nat.lt_irrefl _ (h.bound _ hm)
  refine ⟨⟨?_, ?_⟩, by simp [ServerList.append]⟩
  · have hchain := @Chain.set ℕ _ (Function.update s.next s.fresh none) s.servers (some s.fresh)
      [s.fresh] l [] (by simpa using h.chain.update_of_notMem hnew none) ⟨rfl,
        Function.update_self ..⟩
      (fun a ha hm => hnew (mem_singleton.mp hm ▸ ha))
    unfold ServerList.append ServerList.setLink
    rw [h.tail]
    refine hchain.congr ?_
    intro a _
    cases hlast : l.getLast? with
    | none => rfl
    | some b =>
      have hb : b ≠ s.fresh := fun e => hnew (e ▸ mem_of_getLast? hlast)
      simp only [linkSet]
      rw [Function.update_comm hb]
  intro i hi
  rcases mem_append.mp hi with hi | hi
  · exact Nat.lt_succ_of_lt (h.bound i hi)
  · cases mem_singleton.mp hi
    exact Nat.lt_succ_self _

theorem marked_modify {f : Upstream α →
    Upstream α} (hf : Mask.test (f (s.serv i)).flags servMark = false) (j : ℕ) :
    (s.modify i f).marked j = (s.marked j && some i != some j) := by
  by_cases hj : j = i
  · subst hj
    simpa [marked, modify] using hf
  · have hne : (some i != some j) = true := by simpa using Ne.symm hj
    simp only [marked, modify, Function.update_of_ne hj, hne, Bool.and_true]

theorem Ready.addUpdateServer (h : s.Ready l) (canonicalise : CString →
    Option CString) (r : Request α) :
    ∃ i s' l', s.addUpdateServer canonicalise r = (i, s') ∧ s'.Ready l' ∧
      Added s l (s.found canonicalise r) i l' ∧
      s.fresh ≤ s'.fresh ∧ ∀ j ∈ l', s'.marked j = (s.marked j && i != some j) := by
  have hsame : ∀ j ∈ l, s.marked j = (s.marked j && none != some j) := by simp
  unfold ServerList.addUpdateServer found
  cases htarget : r.target canonicalise with
  | none => exact ⟨none, s, l, rfl, h, .failed, Nat.le_refl _, hsame⟩
  | some target =>
    obtain ⟨domain, flags⟩ := target
    have hunmarked := fun domain u => @fill_unmarked α canonicalise r _ domain _ htarget u
    have hfind := findMarked_eq domain h.chain h.length_le
    simp only [bind_some]
    cases hfound : s.findMarked domain s.fresh s.servers with
    | some i =>
      rw [hfound] at hfind
      obtain ⟨hi, pre, post, rfl, -⟩ := find?_eq_some_iff_append.mp hfind.symm
      have hmarked : s.marked i = true := (Bool.and_eq_true _ _ ▸ hi).1
      cases post with
      | nil =>
        dsimp only
        rw [h.moveToEnd_last]
        exact ⟨_, _, _, rfl, h.modify i _, .atEnd rfl hmarked, Nat.le_refl _,
          fun j _ => marked_modify (hunmarked _ _) j⟩
      | cons n post =>
        obtain ⟨hready, hserv, hfresh⟩ := h.moveToEnd (cons_ne_nil n post)
        refine ⟨_, _, _, rfl, hready.modify i _, .moved rfl hmarked (cons_ne_nil n post),
          hfresh.ge, ?_⟩
        intro j _
        rw [marked_modify (hunmarked _ _) j]
        unfold marked
        rw [hserv]
    | none =>
      dsimp only
      split
      · refine ⟨_, _, _, rfl, h.append.modify s.fresh _, .appended, Nat.le_succ _, ?_⟩
        intro j _
        rw [marked_modify (hunmarked _ _) j]
        by_cases hj : j = s.fresh
        · simp [hj]
        · simp only [marked, ServerList.append, setLink, Function.update_of_ne hj]
      · exact ⟨none, s, l, rfl, h, .failed, Nat.le_refl _, hsame⟩

theorem cleanupFrom_spec {k : ℕ} {pre : List ℕ} {p : Option ℕ} (hp : Chain s.next p l)
    (hk : l.length ≤ k) (h : Chain s.next s.servers (pre ++ l)) (htail : s.serversTail =
      pre.getLast?) :
    Chain (cleanupFrom k p pre.getLast? s).next (cleanupFrom k p pre.getLast? s).servers
        (pre ++ l.filter fun i => !s.marked i) ∧
      (cleanupFrom k p pre.getLast? s).serversTail =
        (pre ++ l.filter fun i => !s.marked i).getLast? := by
  induction l generalizing s k p pre with
  | nil =>
    cases hp
    have hend : cleanupFrom k none pre.getLast? s = s := by cases k <;> rfl
    rw [append_nil] at h
    rw [hend, filter_nil, append_nil]
    exact ⟨h, htail⟩
  | cons a l ih =>
    obtain ⟨rfl, hnext⟩ := hp
    cases k with
    | zero => simp at hk
    | succ k =>
      have hlen := Nat.le_of_succ_le_succ hk
      by_cases ha : s.marked a = true
      · have hfree : ∀ b ∈ l, pre.getLast? ≠ some b := by
          intro b hb hlast
          exact (nodup_append.mp h.nodup).2.2 b (mem_of_getLast? hlast) b (mem_cons_of_mem a hb) rfl
        have hstep : cleanupFrom (k + 1) (some a) pre.getLast? s =
            cleanupFrom k (s.next a) pre.getLast? (s.setLink pre.getLast? (s.next a)) := by
          rw [cleanupFrom, if_pos ha]
        have hrest : Chain (s.setLink pre.getLast? (s.next a)).next (s.next a) l :=
          hnext.congr fun b hb => linkSet_of_ne (hfree b hb) (s.next a)
        rw [hstep, filter_cons_of_neg (by simp [ha])]
        exact ih hrest hlen h.skip htail
      have hstep : cleanupFrom (k + 1) (some a) pre.getLast? s =
          cleanupFrom k (s.next a) (some a) { s with serversTail := some a } := by
        rw [cleanupFrom, if_neg ha]
      have hpre : pre ++ a :: l = (pre ++ [a]) ++ l := by simp
      have hcons : pre ++ (a :: l).filter (fun i => !s.marked i) = (pre ++ [a]) ++ l.filter fun i =>
          !s.marked i := by
        simp [ha]
      have hloop := @ih { s with serversTail := some a } k (pre ++ [a]) (s.next a)
        hnext hlen (hpre ▸ h) (by simp)
      rw [getLast?_concat] at hloop
      rw [hstep, hcons]
      exact hloop

theorem Lists.cleanupServers (h : s.Lists l) :
    Chain s.cleanupServers.next s.cleanupServers.servers (l.filter fun i => !s.marked i) ∧
      s.cleanupServers.serversTail = (l.filter fun i => !s.marked i).getLast? :=
  @cleanupFrom_spec α { s with serversTail := none } l s.fresh []
    s.servers h.chain h.length_le h.chain rfl

def cells (s : ServerList α) : List ℕ := (NodeStack.walk s.next s.fresh s.servers).getD []

/-- The server that is found again is the last one, or all servers before it are marked. -/
def Safe (canonicalise : CString → Option CString) (s : ServerList α) (r : Request α) : Prop :=
  ∀ i, s.found canonicalise r = some i → s.next i = none ∨ ∀ j ∈ s.cells.takeWhile (· ≠ i),
    s.marked j = true

def AllSafe (canonicalise : CString → Option CString) : ServerList α → List (Request α) → Prop
  | _, [] => True
  | s, r :: rs =>
    s.Safe canonicalise r ∧ AllSafe canonicalise (s.addUpdateServer canonicalise r).2 rs

/-- The servers that are not marked stay in their order, and those that were confirmed or
added follow in the order of the calls. There is nothing else. -/
structure Reloaded (s : ServerList α) (l is : List ℕ) : Prop where
  chain : Chain s.next s.servers (l ++ is)
  tail : s.serversTail = (l ++ is).getLast?

theorem Lists.cells_eq (h : s.Lists l) : s.cells = l := by
  unfold cells
  rw [NodeStack.walk_of_chain h.chain h.length_le, getD_some]

theorem takeWhile_ne_of_nodup (h : (pre ++ i :: post).Nodup) :
    (pre ++ i :: post).takeWhile (· ≠ i) = pre := by
  have hpre : ∀ j ∈ pre, decide (j ≠ i) = true := by
    intro j hj
    have hne := (nodup_append.mp h).2.2 j hj i mem_cons_self
    simpa using hne
  rw [takeWhile_append_of_pos hpre]
  simp

theorem filter_marked_congr {l' : List ℕ} {i : Option ℕ} (hmarks : ∀ j ∈ l',
    s'.marked j = (s.marked j && i != some j))
    (hi : ∀ j ∈ l', i ≠ some j) : (l'.filter fun j => !s'.marked j) = l'.filter fun j =>
    !s.marked j := by
  apply filter_congr
  intro j hj
  rw [hmarks j hj, show (i != some j) = true from bne_iff_ne.mpr (hi j hj), Bool.and_true]

theorem filter_marked_concat {init : List ℕ} (hmarks : ∀ j ∈ init ++ [i],
    s'.marked j = (s.marked j && some i != some j))
    (hi : i ∉ init) : ((init ++ [i]).filter fun j => !s'.marked j) =
    (init.filter fun j => !s.marked j) ++ [i] := by
  have hlast : s'.marked i = false := by simp [hmarks i (by simp)]
  have hinit := @filter_marked_congr α s s' init (some i)
    (fun j hj => hmarks j (mem_append_left _ hj)) (fun j hj e => hi (Option.some.inj e ▸ hj))
  rw [filter_append, hinit]
  simp [hlast]

/-- A call that is not safe loses a server that is not marked. -/
theorem Added.kept {i : Option ℕ} {r : Request α} (h : s.Ready l)
    (ha : Added s l (s.found canonicalise r) i l') (hmarks : ∀ j ∈ l',
      s'.marked j = (s.marked j && i != some j)) :
    (s.Safe canonicalise r ∧ (l'.filter fun j => !s'.marked j) =
      (l.filter fun j => !s.marked j) ++ i.toList) ∨
      (¬ s.Safe canonicalise r ∧ ∃ j ∈ l, s.marked j = false ∧ j ∉ l') := by
  generalize hfound : s.found canonicalise r = found at ha
  have hnodup := h.chain.nodup
  cases ha with
  | failed =>
    left
    constructor
    · intro i hi
      rw [hfound] at hi
      cases hi
    · rw [filter_marked_congr hmarks (fun _ _ => nofun)]
      simp
  | appended =>
    left
    constructor
    · intro i hi
      rw [hfound] at hi
      cases hi
    · exact filter_marked_concat hmarks fun hm => Nat.lt_irrefl _ (h.bound _ hm)
  | @atEnd pre i hl hi =>
    subst hl
    have hnot : i ∉ pre := (nodup_append.mp hnodup).2.2 i |>.mt (by simp)
    left
    constructor
    · intro i' hi'
      rw [hfound] at hi'
      cases hi'
      exact Or.inl h.chain.from_cell.2
    · rw [filter_marked_concat hmarks hnot]
      simp [hi]
  | @moved pre post i hl hi hpost =>
    subst hl
    have hcell : Chain s.next (some i) (i :: post) := h.chain.from_cell
    have hnext : s.next i ≠ none := by
      intro hnone
      apply hpost
      have htail := hcell.2
      rw [hnone] at htail
      exact Chain.none_iff.mp htail
    by_cases hall : ∀ j ∈ pre, s.marked j = true
    · left
      constructor
      · intro i' hi'
        rw [hfound] at hi'
        cases hi'
        rw [h.cells_eq, takeWhile_ne_of_nodup hnodup]
        exact Or.inr hall
      have hpre : (pre.filter fun j => !s.marked j) = [] := by
        apply filter_eq_nil_iff.mpr
        intro j hj
        simp [hall j hj]
      rw [filter_marked_concat hmarks hcell.not_mem_of_cons, filter_append, hpre]
      simp [hi]
    right
    push Not at hall
    obtain ⟨j, hj, hmark⟩ := hall
    constructor
    · intro hsafe
      rcases hsafe i hfound with hend | hmarked
      · exact hnext hend
      · rw [h.cells_eq, takeWhile_ne_of_nodup hnodup] at hmarked
        exact hmark (hmarked j hj)
    refine ⟨j, mem_append_left _ hj, by simpa using hmark, ?_⟩
    intro hm
    have hm' : j ∈ i :: post := by simpa [or_comm] using hm
    exact (nodup_append.mp hnodup).2.2 j hj j hm' rfl

theorem Added.mem {found i : Option ℕ} (ha : Added s l found i l') (hj : j ∈ l') :
    j ∈ l ∨ (j = s.fresh ∧ i = some j) := by
  cases ha with
  | failed => exact Or.inl hj
  | appended =>
    rcases mem_append.mp hj with hj | hj
    · exact Or.inl hj
    · exact Or.inr ⟨mem_singleton.mp hj, by rw [mem_singleton.mp hj]⟩
  | atEnd hl hi => exact Or.inl hj
  | @moved pre post i hl hi hpost =>
    subst hl
    left
    have hj' : j ∈ i :: post := by simpa [or_comm] using hj
    exact mem_append_right pre hj'

theorem Ready.update_notMem {rs : List (Request α)} {j : ℕ} (h : s.Ready l) (hj : j ∉ l)
    (hfresh : j < s.fresh) : ∃ l', (update canonicalise s rs).2.Ready l' ∧ j ∉ l' := by
  induction rs generalizing s l with
  | nil => exact ⟨l, h, hj⟩
  | cons r rs ih =>
    obtain ⟨i, s', l', heq, hready, hadded, hle, -⟩ := h.addUpdateServer canonicalise r
    have hnot : j ∉ l' := by
      intro hm
      rcases hadded.mem hm with hm | ⟨he, -⟩
      · exact hj hm
      · exact Nat.lt_irrefl _ (he ▸ hfresh)
    obtain ⟨l'', hready', hnot'⟩ := ih hready hnot (Nat.lt_of_lt_of_le hfresh hle)
    refine ⟨l'', ?_, hnot'⟩
    rw [ServerList.update, heq]
    exact hready'

/-- All calls: if each is safe the servers are kept, and otherwise one is lost that was to be
kept. -/
theorem Ready.update {rs : List (Request α)} (h : s.Ready l) :
    ∃ l', (update canonicalise s rs).2.Ready l' ∧
      (s.AllSafe canonicalise rs → (l'.filter fun j => !(update canonicalise s rs).2.marked j) =
        (l.filter fun j => !s.marked j) ++ (update canonicalise s rs).1) ∧
      (¬ s.AllSafe canonicalise rs →
        ∃ j ∈ (l.filter fun j => !s.marked j) ++ (update canonicalise s rs).1, j ∉ l') := by
  induction rs generalizing s l with
  | nil =>
    refine ⟨l, h, ?_, fun hnot => absurd trivial hnot⟩
    intro _
    exact (append_nil _).symm
  | cons r rs ih =>
    obtain ⟨i, s', l', heq, hready, hadded, hle, hmarks⟩ := h.addUpdateServer canonicalise r
    have hupdate : ServerList.update canonicalise s (r :: rs) =
        (i.toList ++ (ServerList.update canonicalise s' rs).1,
          (ServerList.update canonicalise s' rs).2) := by
      rw [ServerList.update, heq]
    have hsafe : s.AllSafe canonicalise (r :: rs) ↔ s.Safe canonicalise r ∧
        s'.AllSafe canonicalise rs := by
      rw [AllSafe, heq]
    rw [hupdate, hsafe]
    rcases hadded.kept h hmarks with ⟨hone, hkept⟩ | ⟨hone, j, hj, hmark, hnot⟩
    · obtain ⟨l'', hready', hall, hlost⟩ := ih hready
      rw [hkept, append_assoc] at hall hlost
      refine ⟨l'', hready', fun hs => hall hs.2, ?_⟩
      intro hs
      exact hlost fun hrest => hs ⟨hone, hrest⟩
    obtain ⟨l'', hready', hnot'⟩ := @update_notMem α s' l' canonicalise rs j hready hnot
      (Nat.lt_of_lt_of_le (h.bound j hj) hle)
    refine ⟨l'', hready', fun hs => absurd hs.1 hone, ?_⟩
    intro _
    exact ⟨j, mem_append_left _ (mem_filter.mpr ⟨hj, by simp [hmark]⟩), hnot'⟩

/-- A reload keeps what it has to exactly if no call finds a server behind one that is not
marked, unless it finds the last one. -/
theorem reload_iff (h : s.Lists l) (canonicalise : CString → Option CString) (flag : BitVec 16)
    (rs : List (Request α)) : Reloaded (s.reload canonicalise flag rs).2 (l.filter fun i =>
      !Mask.test (s.serv i).flags flag)
        (s.reload canonicalise flag rs).1 ↔ (s.markServers flag).AllSafe canonicalise rs := by
  obtain ⟨hready, hmarks⟩ := h.markServers flag
  obtain ⟨l', hready', hall, hlost⟩ := @Ready.update α _ l canonicalise rs hready
  have hfilter : (l.filter fun i => !(s.markServers flag).marked i) = l.filter fun i =>
      !Mask.test (s.serv i).flags flag := by
    apply filter_congr
    intro i hi
    rw [hmarks i hi]
  rw [hfilter] at hall hlost
  obtain ⟨hchain, htail⟩ := hready'.toLists.cleanupServers
  constructor
  · intro hr
    by_contra hnot
    obtain ⟨j, hj, hj'⟩ := hlost hnot
    apply hj'
    have heq : _ ++ (update canonicalise (s.markServers flag) rs).1 = _ := hr.chain.unique hchain
    rw [heq] at hj
    exact mem_of_mem_filter hj
  · intro hs
    rw [hall hs] at hchain htail
    exact ⟨hchain, htail⟩

/-- A configured server for `lan`, and two servers from a file for all names. -/
def twoResolvers : ServerList ℕ where
  next i := if i < 2 then some (i + 1) else none
  serv i := if i = 0 then { domain := [108, 97, 110] } else { flags := servFromResolv }
  servers := some 0
  serversTail := some 2
  fresh := 3

theorem twoResolvers_lists : twoResolvers.Lists [0, 1, 2] :=
  ⟨⟨rfl, rfl, rfl, rfl⟩, by decide⟩

/-- When the file is empty and a server for `lan` is added the configured one stays. -/
theorem reload_iff_otherDomain :
    Reloaded (twoResolvers.reload some servFromResolv [{ domain := [108, 97, 110] }]).2 [0] [3] :=
  (reload_iff twoResolvers_lists some servFromResolv [{ domain := [108, 97, 110] }]).mpr
    ⟨nofun, trivial⟩

/-- When one server is left in the file the configured one is lost. -/
theorem reload_losesServer :
    twoResolvers.Lists [0, 1, 2] ∧ (twoResolvers.markServers servFromResolv).marked 0 = false ∧
      (twoResolvers.reload some servFromResolv [{ flags := servFromResolv }]).1 = [1] ∧
      (twoResolvers.reload some servFromResolv [{ flags := servFromResolv }]).2.cells = [1] ∧
      ¬ Reloaded (twoResolvers.reload some servFromResolv [{ flags := servFromResolv }]).2
      [0] [1] := by
  refine ⟨twoResolvers_lists, by decide, by decide, by decide, ?_⟩
  intro hr
  exact absurd hr.chain.1 (by decide)

end ServerList

end Dnsmasq.DomainMatch
