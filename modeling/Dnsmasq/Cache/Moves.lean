import Mathlib.Data.List.TakeWhile
import Dnsmasq.Cache.Threads

/-!
What the cache does, one list operation at a time. A `View` is a cache with lists in place of
pointers. Every operation is a sequence of moves, so that an invariant is checked for moves only.
-/
namespace Dnsmasq.Cache

open List Lib Function

structure View extends Lists where
  crec : CrecId → Crec
  hashSize : ℕ
  nextCrec : CrecId
  lastUid : ℕ
  insertError : Bool
  warned : Bool

def State.view (s : State) (L : Lists) : View :=
  { L with
    crec := s.crec, hashSize := s.hashSize, nextCrec := s.nextCrec, lastUid := s.lastUid
    insertError := s.insertError, warned := s.warned }

theorem State.crec_view (s : State) (L : Lists) : (s.view L).crec = s.crec := rfl

/-- What `cache_free` makes of a record. -/
def Crec.free (r : Crec) : Crec := { r with flags := r.flags.freed, uid := uidNone }

section

variable (flags : CrecId → Flags) (f : Flags) (l : List CrecId)

/-- Where `cache_hash` cuts a chain to put a record with flags `f` into it. -/
def hashSplit : List CrecId × List CrecId :=
  if f.reverse then ([], l)
  else
    let front := l.takeWhile fun c => (flags c).reverse
    let back := l.dropWhile fun c => (flags c).reverse
    if f.immortal then
      (front ++ back.takeWhile fun c => !(flags c).immortal,
        back.dropWhile fun c => !(flags c).immortal)
    else (front, back)

theorem hashSplit_append : (hashSplit flags f l).1 ++ (hashSplit flags f l).2 = l := by
  unfold hashSplit
  split
  · rfl
  · split
    · simp [append_assoc]
    · simp

end

namespace View

variable (cfg : Config) (v : View)

def setCrec (c : CrecId) (r : Crec) : View := { v with crec := update v.crec c r }

def setList (i : ℕ) (l : List CrecId) : View := { v with chain := update v.chain i l }

def bucketOf (c : CrecId) : ℕ := hashBucket cfg v.hashSize (v.crec c).name

def hash (c : CrecId) : View :=
  let parts := hashSplit (fun d => (v.crec d).flags) (v.crec c).flags (v.chain (v.bucketOf cfg c))
  v.setList (v.bucketOf cfg c) (parts.1 ++ c :: parts.2)

def nextUid (c : CrecId) : View :=
  if (v.crec c).uid = uidNone then
    let uid := (v.lastUid + 1) % 2 ^ 32
    let uid := if uid = uidNone then uid + 1 else uid
    { v with lastUid := uid }.setCrec c { v.crec c with uid := uid }
  else v

/-- The chains have the order <reverse>, <other>, <immortal>. -/
def rank (f : Flags) : ℕ := if f.reverse then 0 else if f.immortal then 2 else 1

def Ordered : Prop := ∀ i, (v.chain i).Pairwise fun a b => rank (v.crec a).flags ≤ rank
    (v.crec b).flags

end View

theorem le_rank_of_mem_dropWhile {r : CrecId → ℕ} {p : CrecId → Bool} {k : ℕ} {l : List CrecId}
    (hp : ∀ a ∈ l, p a = false → k ≤ r a) (hl : l.Pairwise fun a b => r a ≤ r b) :
    ∀ b ∈ l.dropWhile p, k ≤ r b := by
  induction l with
  | nil => nofun
  | cons a l ih =>
    obtain ⟨ha, hl⟩ := pairwise_cons.mp hl
    intro b hb
    rw [dropWhile_cons] at hb
    split at hb
    · exact ih (fun d hd => hp d (mem_cons_of_mem a hd)) hl b hb
    rename_i hpa
    have hka := hp a mem_cons_self (by simpa using hpa)
    rcases mem_cons.mp hb with rfl | hb
    · exact hka
    · exact hka.trans (ha b hb)

theorem hashSplit_rank (flags : CrecId → Flags) (f : Flags) {l : List CrecId}
    (hl : l.Pairwise fun a b => View.rank (flags a) ≤ View.rank (flags b)) :
    (∀ a ∈ (hashSplit flags f l).1, View.rank (flags a) ≤ View.rank f) ∧
      ∀ b ∈ (hashSplit flags f l).2, View.rank f ≤ View.rank (flags b) := by
  have hrev : ∀ a ∈ l.takeWhile fun c => (flags c).reverse, View.rank (flags a) = 0 := by
    intro a ha
    have := mem_takeWhile_imp ha
    simp [View.rank, this]
  have hback : ∀ b ∈ l.dropWhile fun c => (flags c).reverse, 1 ≤ View.rank (flags b) := by
    refine le_rank_of_mem_dropWhile (fun a _ ha => ?_) hl
    unfold View.rank
    split_ifs <;> simp_all
  by_cases hr : f.reverse = true
  · simp [hashSplit, View.rank, hr]
  by_cases hm : f.immortal = true
  · constructor
    · intro a _
      unfold View.rank
      split_ifs <;> omega
    intro b hb
    simp only [hashSplit, if_neg hr, if_pos hm] at hb
    -- not reverse, and behind a first one that is immortal
    refine le_rank_of_mem_dropWhile (fun a ha hm => ?_) (hl.sublist (dropWhile_sublist _)) b hb
    have := hback a ha
    unfold View.rank at this ⊢
    split_ifs at this ⊢ <;> simp_all
  have hf : View.rank f = 1 := by simp [View.rank, hr, hm]
  simp only [hashSplit, if_neg hr, if_neg hm, hf]
  constructor
  · intro a ha
    rw [hrev a ha]
    omega
  · exact hback

theorem View.setList_self (v : View) (i : ℕ) (l : List CrecId) : (v.setList i l).chain i = l :=
    update_self _ _ _

theorem View.setList_of_ne (v : View) {i j : ℕ} (h : j ≠ i) (l : List CrecId) :
    (v.setList i l).chain j = v.chain j :=
  update_of_ne h _ _

theorem View.hashed_hash {v : View} {cfg : Config} {c d : CrecId} : (v.hash cfg c).Hashed d ↔
    d = c ∨ v.Hashed d := by
  have hmem : d ∈ (v.hash cfg c).chain (v.bucketOf cfg c) ↔
      d = c ∨ d ∈ v.chain (v.bucketOf cfg c) := by
    rw [View.hash, View.setList_self, mem_append, mem_cons]
    nth_rewrite 3 [← hashSplit_append (fun d => (v.crec d).flags)
      (v.crec c).flags (v.chain (v.bucketOf cfg c))]
    rw [mem_append]
    tauto
  have hother : ∀ i, i ≠ v.bucketOf cfg c → (v.hash cfg c).chain i = v.chain i :=
    fun i hi => v.setList_of_ne hi _
  constructor
  · rintro ⟨i, hi⟩
    by_cases e : i = v.bucketOf cfg c
    · subst e
      exact (hmem.mp hi).imp_right fun hd => ⟨_, hd⟩
    · rw [hother i e] at hi
      exact .inr ⟨i, hi⟩
  rintro (rfl | ⟨i, hi⟩)
  · exact ⟨_, hmem.mpr (.inl rfl)⟩
  by_cases e : i = v.bucketOf cfg c
  · subst e
    exact ⟨_, hmem.mpr (.inr hi)⟩
  · exact ⟨i, by rwa [hother i e]⟩

section Pairwise

variable {v : View} {R : CrecId → CrecId → Prop}

theorem View.pairwise_setList {i : ℕ} {l : List CrecId} (h : ∀ i, (v.chain i).Pairwise R)
    (hl : l.Pairwise R) (j : ℕ) : ((v.setList i l).chain j).Pairwise R := by
  by_cases e : j = i
  · rwa [e, View.setList_self]
  · rw [View.setList_of_ne _ e]
    exact h j

theorem View.pairwise_hash {cfg : Config} {c : CrecId} (h : ∀ i, (v.chain i).Pairwise R)
    (hc : ∀ parts, parts = hashSplit (fun d => (v.crec d).flags)
      (v.crec c).flags (v.chain (v.bucketOf cfg c)) →
      (∀ a ∈ parts.1, R a c) ∧ ∀ b ∈ parts.2, R c b) (i :
      ℕ) : ((v.hash cfg c).chain i).Pairwise R := by
  obtain ⟨hfront, hback⟩ := hc _ rfl
  have hold := h (v.bucketOf cfg c)
  rw [← hashSplit_append (fun d => (v.crec d).flags)
    (v.crec c).flags (v.chain (v.bucketOf cfg c))] at hold
  obtain ⟨h1, h2, h3⟩ := pairwise_append.mp hold
  refine View.pairwise_setList h (pairwise_append.mpr ⟨h1, pairwise_cons.mpr ⟨hback, h2⟩,
    fun a ha b hb => ?_⟩) i
  rcases mem_cons.mp hb with rfl | hb
  · exact hfront a ha
  · exact h3 a ha b hb

end Pairwise

theorem View.Ordered.hash {v : View} (h : v.Ordered) (cfg : Config) (c : CrecId) :
    (v.hash cfg c).Ordered := by
  refine View.pairwise_hash h ?_
  rintro parts rfl
  exact hashSplit_rank _ _ (h (v.bucketOf cfg c))

inductive Action
  | drop (c : CrecId)
  | release (c : CrecId)
  | touch (c : CrecId)
  | rotate (c : CrecId)
  | grab (c : CrecId) (r : Crec)
  | dropNew (c : CrecId)
  | commit (c : CrecId)
  | link (cpp newc : CrecId)
  | spare (c : CrecId)
  | alloc
  | reuse (c : CrecId) (r : Crec)
  | add (c : CrecId) (r : Crec)
  | extend (c : CrecId) (ttd : ℤ)
  | immortalise (c : CrecId)
  | rehash
  | clear (c : CrecId)
  | fail
  | reset
  | warn (c : CrecId)

/-- An existing record that an insertion for the name and with the flags of `r` stops at. -/
def Crec.Hits (r d : Crec) : Prop :=
  d.flags.forward = true ∧ hostnameIsequal d.name r.name = true ∧
    (r.flags.clashes d.flags = true ∨ r.flags.sameDnssec d.flags = true ∧ d.uid = r.uid % 2 ^ 16)

inductive Move (cfg : Config) (v : View) : Action → View → Prop
  /-- A record that is not of the pool leaves its chain for good. -/
  | drop {i c pre rest} : v.chain i = pre ++ c :: rest → cfg.cachesize ≤ c →
      Move cfg v (.drop c) (v.setList i (pre ++ rest))
  /-- A record of the pool becomes free. -/
  | release {i c pre rest} : v.chain i = pre ++ c :: rest → c < cfg.cachesize → c ∉ v.new →
      ¬(v.setList i (pre ++ rest)).Hashed c → Move cfg v (.release c)
        { (v.setList i (pre ++ rest)).setCrec c (v.crec c).free with lru := v.lru.erase c ++ [c] }
  | touch {i c} : c ∈ v.chain i → c < cfg.cachesize →
      Move cfg v (.touch c) { v with lru := c :: v.lru.erase c }
  /-- An answer moves up, in front of an earlier one. -/
  | rotate {i c x pre mid rest} : v.chain i = pre ++ x :: mid ++ c :: rest →
      (v.crec c).flags.reverse = (v.crec x).flags.reverse →
      (v.crec c).flags.immortal = (v.crec x).flags.immortal →
      Move cfg v (.rotate c) (v.setList i (pre ++ c :: x :: mid ++ rest))
  | grab {c r} : c ∈ v.lru → ¬v.Hashed c → c ∉ v.new → r.flags.upstream = true →
      Move cfg v (.grab c r) { v.setCrec c r with lru := v.lru.erase c, new := c :: v.new }
  | dropNew {c rest} : v.new = c :: rest → c ∉ rest → ¬v.Hashed c →
      Move cfg v (.dropNew c) { v.setCrec c (v.crec c).free with lru := v.lru ++ [c], new := rest }
  | commit {c rest} : v.new = c :: rest → c ∉ rest → ¬v.Hashed c → c < cfg.cachesize →
      Move cfg v (.commit c) { v.hash cfg c with lru := c :: v.lru, new := rest }
  | link (cpp newc) :
      Move cfg v (.link cpp newc) ((v.nextUid newc).setCrec cpp { (v.nextUid newc).crec cpp with
        target := some newc, targetUid := ((v.nextUid newc).crec newc).uid })
  | spare {i c pre rest} : v.chain i = pre ++ c :: rest → cfg.cachesize ≤ c →
      (v.crec c).flags.dhcp = true →
      ¬(v.setList i (pre ++ rest)).Hashed c →
      Move cfg v (.spare c) { v.setList i (pre ++ rest) with spare := c :: v.spare }
  | alloc : (∀ c, v.Hashed c ∨ c ∈ v.new ∨ c ∈ v.spare → c < v.nextCrec) →
      Move cfg v .alloc { v.setCrec v.nextCrec {} with nextCrec := v.nextCrec + 1 }
  | reuse {c r rest} : v.spare = c :: rest → ¬v.Hashed c → c ∉ v.new → cfg.cachesize ≤ c →
      r.flags.isStatic = true → Move cfg v (.reuse c r)
      ({ v.setCrec c r with spare := rest }.hash cfg c)
  | add {c r} : cfg.cachesize ≤ c → c < v.nextCrec → ¬v.Hashed c → c ∉ v.new → c ∉ v.spare →
      r.flags.isStatic = true → Move cfg v (.add c r) ((v.setCrec c r).hash cfg c)
  | extend {c} (ttd) : cfg.cachesize ≤ c →
      Move cfg v (.extend c ttd) (v.setCrec c { v.crec c with ttd := ttd })
  /-- The flags of a record change while it stays where it is. -/
  | immortalise {c} : v.Hashed c → cfg.cachesize ≤ c → (v.crec c).flags.dhcp = true →
      (v.crec c).flags.immortal = false →
      Move cfg v (.immortalise c)
        (v.setCrec c { v.crec c with flags := { (v.crec c).flags with immortal := true } })
  | rehash {size chain} : (∀ c, v.Hashed c ↔ ∃ i, c ∈ chain i) →
      View.Ordered { v with hashSize := size, chain := chain } →
      Move cfg v .rehash { v with hashSize := size, chain := chain }
  | clear {i c pre rest} : v.chain i = pre ++ c :: rest → c < cfg.cachesize → c ∉ v.new →
      ¬(v.setList i (pre ++ rest)).Hashed c →
      Move cfg v (.clear c) ((v.setList i (pre ++ rest)).setCrec c { v.crec c with flags := {} })
  | fail : Move cfg v .fail { v with insertError := true }
  | reset : Move cfg v .reset { v with insertError := false }
  /-- The record at the end of the LRU list could not be freed: the scan for it did not get to
  it because of another, or it does not stop a scan for itself. -/
  | warn {c} : c < cfg.cachesize → v.Hashed c → (v.crec c).flags.forward = true →
      ((v.crec c).Hits (v.crec c) → ∃ d, cfg.cachesize ≤ d ∧ v.Hashed d ∧
        (v.crec c).Hits (v.crec d)) →
      Move cfg v (.warn c) { v with insertError := true, warned := true }

def Moves (cfg : Config) (P : Action → View → Prop) : View → View → Prop :=
  Relation.ReflTransGen fun v v' => ∃ a, P a v ∧ Move cfg v a v'

section Moves

variable {cfg : Config} {P Q : Action → View → Prop} {u v w : View} {a : Action}

theorem Moves.refl (v : View) : Moves cfg P v v := Relation.ReflTransGen.refl

theorem Moves.trans (h : Moves cfg P u v) (h' : Moves cfg P v w) : Moves cfg P u w :=
  Relation.ReflTransGen.trans h h'

theorem Move.moves (h : Move cfg v a w) (hP : P a v) : Moves cfg P v w :=
    Relation.ReflTransGen.single ⟨a, hP, h⟩

theorem Moves.mono (h : Moves cfg P v w) (hPQ : ∀ a v, P a v → Q a v) : Moves cfg Q v w :=
  Relation.ReflTransGen.mono (fun _ _ ⟨a, ha, hm⟩ => ⟨a, hPQ a _ ha, hm⟩) _ _ h

/-- What every move keeps holds at the end. -/
theorem Moves.invariant (h : Moves cfg P v w) {I : View → Prop} (hI : I v)
    (hstep : ∀ a u u', P a u → Move cfg u a u' → I u → I u') : I w := by
  induction h with
  | refl => exact hI
  | tail _ hm ih =>
    obtain ⟨a, ha, hm⟩ := hm
    exact hstep a _ _ ha hm ih

end Moves

/-- The moves of a scan at time `now`. -/
def Shedding (now : ℤ) : Action → View → Prop
  | .drop c, v => isExpired now (v.crec c) = true
  | .release _, _ => True
  | _, _ => False

/-- The moves of a search; only records with the right name are rotated. -/
def Searching (now : ℤ) (q : CString → Prop) : Action → View → Prop
  | .drop c, v => isExpired now (v.crec c) = true
  | .release _, _ | .touch _, _ => True
  | .rotate c, v => q (v.crec c).name
  | _, _ => False

theorem Shedding.searching {now : ℤ} {a : Action} {v : View} {q : CString →
    Prop} (h : Shedding now a v) :
    Searching now q a v := by
  cases a with
  | drop c => exact h
  | release c => trivial
  | _ => exact absurd h id

/-- Fewer records are hashed, and those that still are have not changed. -/
structure Sheds (v w : View) : Prop where
  hashed : ∀ c, w.Hashed c → v.Hashed c ∧ w.crec c = v.crec c
  name : ∀ c, (w.crec c).name = (v.crec c).name
  target : ∀ c, (w.crec c).target = (v.crec c).target
  new : w.new = v.new
  newSame : ∀ c ∈ v.new, w.crec c = v.crec c
  spare : w.spare = v.spare
  static : ∀ c, ¬v.Hashed c → w.crec c = v.crec c
  hashSize : w.hashSize = v.hashSize
  nextCrec : w.nextCrec = v.nextCrec
  lastUid : w.lastUid = v.lastUid
  insertError : w.insertError = v.insertError
  warned : w.warned = v.warned

theorem View.setCrec_of_ne (v : View) {c d : CrecId} (h : d ≠ c) (r : Crec) :
    (v.setCrec c r).crec d = v.crec d :=
  update_of_ne h _ _

theorem View.setCrec_self (v : View) (c : CrecId) (r : Crec) : (v.setCrec c r).crec c = r :=
  update_self _ _ _

theorem View.hashed_of_setList
    {v : View} {i : ℕ} {l : List CrecId} {c : CrecId} (hl : l ⊆ v.chain i)
    (h : (v.setList i l).Hashed c) : v.Hashed c := by
  obtain ⟨j, hj⟩ := h
  refine ⟨j, ?_⟩
  by_cases e : j = i
  · subst e
    rw [View.setList_self] at hj
    exact hl hj
  · rwa [View.setList_of_ne _ e] at hj

theorem subset_of_eq_append_cons
    {l pre rest : List CrecId} {c : CrecId} (h : l = pre ++ c :: rest) : pre ++ rest ⊆ l := by
  rw [h]
  exact ((sublist_cons_self c rest).append_left pre).subset

theorem Sheds.refl (v : View) : Sheds v v :=
  ⟨fun _ hc => ⟨hc, rfl⟩, fun _ => rfl, fun _ => rfl, rfl, fun _ _ => rfl, rfl,
    fun _ _ => rfl, rfl, rfl, rfl, rfl, rfl⟩

theorem Sheds.trans {u v w : View} (h : Sheds u v) (h' : Sheds v w) : Sheds u w where
  hashed c hc := ⟨(h.hashed c (h'.hashed c hc).1).1,
    (h'.hashed c hc).2.trans (h.hashed c (h'.hashed c hc).1).2⟩
  name c := (h'.name c).trans (h.name c)
  target c := (h'.target c).trans (h.target c)
  new := h'.new.trans h.new
  newSame c hc := (h'.newSame c (h.new.symm ▸ hc)).trans (h.newSame c hc)
  spare := h'.spare.trans h.spare
  static c hc := (h'.static c fun hv => hc (h.hashed c hv).1).trans (h.static c hc)
  hashSize := h'.hashSize.trans h.hashSize
  nextCrec := h'.nextCrec.trans h.nextCrec
  lastUid := h'.lastUid.trans h.lastUid
  insertError := h'.insertError.trans h.insertError
  warned := h'.warned.trans h.warned

variable {cfg : Config} {v w : View} {a : Action} {q : CString → Prop} {now : ℤ}

theorem Sheds.of_setList {i : ℕ} {l : List CrecId} (hl : l ⊆ v.chain i) : Sheds v (v.setList i l) :=
  { Sheds.refl v with hashed := fun _ hd => ⟨View.hashed_of_setList hl hd, rfl⟩ }

theorem Move.sheds (h : Move cfg v a w) (hP : Searching now q a v) : Sheds v w := by
  cases h with
  | drop hi _ => exact Sheds.of_setList (subset_of_eq_append_cons hi)
  | @release i c pre rest hi hp hn hgone =>
    have hsub := subset_of_eq_append_cons hi
    have hne : ∀ d, (v.setList i (pre ++ rest)).Hashed d → d ≠ c := fun d hd e => hgone (e ▸ hd)
    have hfield : ∀ {α : Type} (π : Crec → α), π (v.crec c).free = π (v.crec c) → ∀ d,
        π (((v.setList i (pre ++ rest)).setCrec c (v.crec c).free).crec d) = π (v.crec d) := by
      intro α π hπ d
      by_cases e : d = c
      · subst e
        rw [View.setCrec_self, hπ]
      · rw [View.setCrec_of_ne _ e]
        rfl
    exact { Sheds.refl v with
      hashed := fun d hd => ⟨View.hashed_of_setList hsub hd, View.setCrec_of_ne _ (hne d hd) _⟩
      name := hfield Crec.name rfl
      target := hfield Crec.target rfl
      newSame := fun d hd => View.setCrec_of_ne _ (ne_of_mem_of_not_mem hd hn) _
      static := fun d hd => by
        refine View.setCrec_of_ne _ ?_ _
        rintro rfl
        exact hd ⟨i, hi ▸ by simp⟩ }
  | touch => exact { Sheds.refl v with hashed := fun _ hd => ⟨hd, rfl⟩ }
  | @rotate i c x pre mid rest hi _ _ =>
    apply Sheds.of_setList
    rw [hi]
    intro d hd
    simp only [append_assoc, cons_append, mem_append, mem_cons] at hd ⊢
    tauto
  | _ => exact absurd hP id

theorem Moves.sheds (h : Moves cfg (Searching now q) v w) : Sheds v w :=
  h.invariant (Sheds.refl v) fun _ _ _ ha hm hI => hI.trans (hm.sheds ha)

structure Reaches (cfg : Config) (P : Action → View → Prop) (s : State) (L : Lists) (s' : State)
    (L' : Lists) : Prop where
  threads : Threads cfg s' L' ∅
  moves : Moves cfg P (s.view L) (s'.view L')

section Reaches

variable {P Q : Action → View → Prop} {s s' t : State} {L L' M : Lists}

theorem Reaches.refl (h : Threads cfg s L ∅) : Reaches cfg P s L s L := ⟨h, Moves.refl _⟩

theorem Reaches.trans (h : Reaches cfg P s L t M) (h' : Reaches cfg P t M s' L') :
    Reaches cfg P s L s' L' :=
  ⟨h'.threads, h.moves.trans h'.moves⟩

theorem Reaches.mono (h : Reaches cfg P s L s' L') (hPQ : ∀ a v, P a v → Q a v) :
    Reaches cfg Q s L s' L' :=
  ⟨h.threads, h.moves.mono hPQ⟩

theorem Reaches.searching {q : CString → Prop} (h : Reaches cfg (Shedding now) s L s' L') :
    Reaches cfg (Searching now q) s L s' L' := h.mono fun _ _ => Shedding.searching

theorem Reaches.sheds {q : CString → Prop} (h : Reaches cfg (Searching now q) s L s' L') :
    Sheds (s.view L) (s'.view L') := h.moves.sheds

theorem Reaches.shed (h : Reaches cfg (Shedding now) s L s' L') : Sheds (s.view L) (s'.view L') :=
  (h.searching (q := fun _ => False)).sheds

theorem Reaches.of_view (h : Threads cfg s' L' ∅) (hv : s'.view L' = s.view L) :
    Reaches cfg P s L s' L' :=
  ⟨h, hv ▸ Moves.refl _⟩

end Reaches

end Dnsmasq.Cache
