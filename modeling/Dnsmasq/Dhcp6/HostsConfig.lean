import Dnsmasq.Dhcp6.Context

/-!
`dhcp_update_configs`, which gives `dhcp-host` lines without an address the one that the hosts files
have for their names. Memory for an address is there.
-/
namespace Dnsmasq.Dhcp6.HostsConfig

open List

open Dhcp (InAddr)

/-- The addresses of one family on a `dhcp-host` line. `set` is `CONFIG_ADDR` or `CONFIG_ADDR6`, and
`hosts` says that the address comes from a hosts file. -/
structure Slot (β : Type) where
  addrs : List β := []
  set : Bool := false
  hosts : Bool := false

/-- How an address of a family is put on a line, and when it belongs to one: `finds` is the test
of the code, and `covers` takes the meaning of the entry into account. -/
structure Family (α β : Type) where
  finds : β → α → Bool
  covers : β → α → Bool
  plain : List β → Bool
  store : List β → α → List β
  plain_store (l a) : plain (store l a) = plain l
  store_store (l a b) : store (store l a) b = store l b
  covers_of_finds (x a) : finds x a = true → covers x a = true
  covers_store (l a b) : plain l = true → (store l a).any (covers · b) = true → a = b
  finds_store (l a) : plain l = true → (store l a).any (finds · a) = true

/-- An answer of `cache_find_by_name`; `hosts` and `reverse` are the flags `F_HOSTS` and
`F_REVERSE`. -/
structure Answer (α : Type) where
  addr : α
  hosts : Bool
  reverse : Bool

/-- If there is more than one answer it is the primary address. -/
def hostsAddr {α : Type} (answers : List (Answer α)) : Option α :=
  if !answers.head?.any (·.hosts) then none
  else if answers.length = 1 then answers.head?.map (·.addr)
  else (answers.find? (·.reverse)).map (·.addr)

section Update

variable {α β : Type} {n : ℕ} (fam : Family α β) (wanted : Fin n → Option α)

def Slot.any (s : Slot β) (p : β → Bool) : Bool := s.set && s.addrs.any p

/-- The test of `config_find_by_address` and `config_find_by_address6`. -/
def Slot.found (s : Slot β) (a : α) : Bool := s.any (fam.finds · a)

/-- The address belongs to the line. -/
def Slot.has (s : Slot β) (a : α) : Bool := s.any (fam.covers · a)

def step (f : Fin n → Slot β) (i : Fin n) : Fin n → Slot β :=
  match wanted i with
  | none => f
  | some a => fun j =>
    if j = i ∧ (f i).set = false ∧ (∀ k, (f k).found fam a = false) ∧
      fam.plain (f i).addrs = true then
      { addrs := fam.store (f i).addrs a, set := true, hosts := true }
    else f j

/-- The addresses that count. -/
def Slot.entry (s : Slot β) : Option (List β) := if s.set then some s.addrs else none

def Slot.clear (s : Slot β) : Slot β :=
    if s.hosts then { s with set := false, hosts := false } else s

def update (f : Fin n → Slot β) : Fin n → Slot β :=
  (finRange n).foldl (step fam wanted) fun i => (f i).clear

def Distinct (f : Fin n → Slot β) : Prop :=
  ∀ a i j, (f i).has fam a = true → (f j).has fam a = true → i = j

/-- The lines as they are configured. -/
structure Configured (n : ℕ) where
  slots : Fin n → Slot β
  fresh (i : Fin n) : (slots i).hosts = false
  distinct : Distinct fam slots

/-- Of an address that is wanted for a line without one, the code finds every line that it
belongs to. -/
def Found (c : Configured fam n) : Prop :=
  ∀ i a, wanted i = some a → (c.slots i).set = false → fam.plain (c.slots i).addrs = true →
    ∀ j, (c.slots j).has fam a = true → (c.slots j).found fam a = true

/-- Slots that an update does not tell apart. -/
structure Slot.Like (s t : Slot β) : Prop where
  set : s.set = t.set
  addrs : s.set = true → s.addrs = t.addrs
  store (a : α) : fam.store s.addrs a = fam.store t.addrs a

variable {fam wanted} {f g : Fin n → Slot β} {s t : Slot β} {c : Configured fam n} {a : α}
  {i j : Fin n}

theorem Slot.has_of_found (h : s.found fam a = true) : s.has fam a = true := by
  unfold Slot.found Slot.any at h
  rw [Bool.and_eq_true, any_eq_true] at h
  obtain ⟨hset, x, hx, hfinds⟩ := h
  rw [Slot.has, Slot.any, hset, Bool.true_and, any_eq_true]
  exact ⟨x, hx, fam.covers_of_finds x a hfinds⟩

theorem Slot.Like.any (h : s.Like fam t) (p : β → Bool) : s.any p = t.any p := by
  unfold Slot.any
  rw [← h.set]
  cases hset : s.set with
  | false => rfl
  | true => rw [h.addrs hset]

theorem Slot.Like.entry (h : s.Like fam t) : s.entry = t.entry := by
  unfold Slot.entry
  rw [← h.set]
  split_ifs with hset
  · rw [h.addrs hset]
  · rfl

theorem Slot.clear_of_unset (h : s.set = false) : s.clear = { addrs := s.addrs } := by
  obtain ⟨addrs, _, hosts⟩ := s
  cases h
  cases hosts <;> rfl

theorem step_like (h : ∀ i, (f i).Like fam (g i)) (i j : Fin n) :
    (step fam wanted f i j).Like fam (step fam wanted g i j) := by
  unfold step
  cases wanted i with
  | none => exact h j
  | some a =>
    have hplain : fam.plain (f i).addrs = fam.plain (g i).addrs := by
      rw [← fam.plain_store _ a, (h i).store, fam.plain_store]
    have hfound (k : Fin n) : (f k).found fam a = (g k).found fam a := (h k).any _
    simp only [hfound, (h i).set, (h i).store, hplain]
    split_ifs
    · exact ⟨rfl, fun _ => rfl, fun _ => rfl⟩
    · exact h j

/-- A turn leaves a line as it is, or it is the line's own and gives it the address. -/
theorem step_cases (wanted : Fin n → Option α) (f : Fin n → Slot β) (i j : Fin n) :
    step fam wanted f i j = f j ∨ j = i ∧ (f i).set = false ∧ fam.plain (f i).addrs = true ∧
      ∃ a, wanted i = some a ∧ step fam wanted f i j = ⟨fam.store (f i).addrs a, true, true⟩ := by
  unfold step
  cases wanted i with
  | none => exact .inl rfl
  | some a =>
    dsimp only
    split_ifs with hc
    · exact .inr ⟨hc.1, hc.2.1, hc.2.2.2, a, rfl, rfl⟩
    · exact .inl rfl

/-- A line that has an address keeps it for the rest of the run. -/
theorem foldl_step_of_set (l : List (Fin n)) (h : (f j).set = true) :
    l.foldl (step fam wanted) f j = f j := by
  induction l generalizing f with
  | nil => rfl
  | cons i l ih =>
    have hstep : step fam wanted f i j = f j := (step_cases wanted f i j).resolve_right fun hc => by
      rw [← hc.1, h] at hc
      exact Bool.noConfusion hc.2.1
    rw [foldl_cons, ih (by rw [hstep]; exact h), hstep]

theorem foldl_step_of_notMem {l : List (Fin n)} (h : j ∉ l) :
    l.foldl (step fam wanted) f j = f j := by
  induction l generalizing f with
  | nil => rfl
  | cons i l ih =>
    obtain ⟨hne, hl⟩ := not_or.mp (mem_cons.not.mp h)
    rw [foldl_cons, ih hl]
    exact (step_cases wanted f i j).resolve_right fun hc => hne hc.1

/-- During a run a line is as it was configured, or it has one address that is wanted for it. -/
def Given (wanted : Fin n → Option α) (c : Configured fam n) (f : Fin n → Slot β) (i : Fin n) :
    Prop :=
  f i = c.slots i ∨ ∃ a l, wanted i = some a ∧ fam.plain l = true ∧
    f i = ⟨fam.store l a, true, true⟩

theorem Given.step (h : ∀ i, Given wanted c f i) (i j : Fin n) :
    Given wanted c (step fam wanted f i) j := by
  rcases step_cases wanted f i j with heq | ⟨rfl, -, hplain, a, ha, heq⟩
  · unfold Given
    rw [heq]
    exact h j
  · exact .inr ⟨a, _, ha, hplain, heq⟩

theorem given_foldl (l : List (Fin n)) (i : Fin n) :
    Given wanted c (l.foldl (step fam wanted) c.slots) i := by
  induction l using reverseRecOn generalizing i with
  | nil => exact .inl rfl
  | append_singleton l j ih =>
    rw [foldl_concat]
    exact Given.step ih j i

theorem distinct_step (h : Distinct fam f) (hgiven : ∀ i, Given wanted c f i)
    (hfound : Found fam wanted c) (i : Fin n) : Distinct fam (step fam wanted f i) := by
  unfold step
  split
  · exact h
  rename_i a ha
  by_cases hc : (f i).set = false ∧ (∀ k, (f k).found fam a = false) ∧ fam.plain (f i).addrs = true
  swap
  · have hsame (j : Fin n) := mt (And.right (a := j = i)) hc
    simpa only [if_neg (hsame _)] using h
  obtain ⟨hset, hnone, hplain⟩ := hc
  have hfi : f i = c.slots i := (hgiven i).resolve_right fun ⟨_, _, _, _, h⟩ => by
    rw [h] at hset
    cases hset
  have hone (b : α) (hb : Slot.has fam ⟨fam.store (f i).addrs a, true, true⟩ b = true) : a = b :=
    fam.covers_store _ a b hplain (by simpa [Slot.has, Slot.any] using hb)
  -- No other line has the address: the code would have found it.
  have hfree (k : Fin n) : (f k).has fam a = false := by
    by_contra hk
    rw [Bool.not_eq_false] at hk
    have hfound' : (f k).found fam a = true := by
      rcases hgiven k with h | ⟨b, l, -, hl, h⟩
      · rw [h] at hk ⊢
        exact hfound i a ha (hfi ▸ hset) (hfi ▸ hplain) k hk
      · rw [h] at hk ⊢
        cases fam.covers_store l b a hl (by simpa [Slot.has, Slot.any] using hk)
        simpa [Slot.found, Slot.any] using fam.finds_store l a hl
    rw [hnone k] at hfound'
    cases hfound'
  intro b j k hj hk
  dsimp only at hj hk
  split_ifs at hj hk with h1 h2 h2
  · exact h1.1.trans h2.1.symm
  · rw [← hone b hj, hfree k] at hk
    cases hk
  · rw [← hone b hk, hfree j] at hj
    cases hj
  · exact h b j k hj hk

theorem Configured.clear (c : Configured fam n) (i : Fin n) : (c.slots i).clear = c.slots i := by
  simp [Slot.clear, c.fresh i]

theorem Configured.update_eq (c : Configured fam n) :
    update fam wanted c.slots = (finRange n).foldl (step fam wanted) c.slots :=
  congrArg (foldl _ · _) (funext c.clear)

theorem found_of_distinct (h : Distinct fam (update fam wanted c.slots)) : Found fam wanted c := by
  intro i a ha hset hplain j hj
  by_contra hnot
  rw [Bool.not_eq_true] at hnot
  have hjset : (c.slots j).set = true := (Bool.and_eq_true _ _ ▸ hj).1
  obtain ⟨l₁, l₂, hl⟩ := append_of_mem (mem_finRange i)
  have hnodup := nodup_finRange n
  rw [hl] at hnodup
  have hi : i ∉ l₁ := fun hm =>
    (nodup_append.mp hnodup).2.2 i hm i mem_cons_self rfl
  rw [c.update_eq, hl, foldl_append, foldl_cons] at h
  have hgi : l₁.foldl (step fam wanted) c.slots i = c.slots i := foldl_step_of_notMem hi
  have hgj : l₁.foldl (step fam wanted) c.slots j = c.slots j := foldl_step_of_set l₁ hjset
  generalize l₁.foldl (step fam wanted) c.slots = g at h hgi hgj
  -- Another line that has the address when the turn of the line `i` is over.
  obtain ⟨k, hk, hkj⟩ : ∃ k, (step fam wanted g i k).has fam a = true ∧ k ≠ j := by
    unfold step
    simp only [ha]
    by_cases hfree : ∀ k, (g k).found fam a = false
    · refine ⟨i, ?_, fun e => ?_⟩
      · rw [if_pos ⟨rfl, hgi ▸ hset, hfree, hgi ▸ hplain⟩]
        exact Slot.has_of_found (fam.finds_store _ a (hgi ▸ hplain))
      · rw [e, hjset] at hset
        cases hset
    · obtain ⟨k, hk⟩ := not_forall.mp hfree
      rw [Bool.not_eq_false] at hk
      refine ⟨k, ?_, fun e => ?_⟩
      · rw [if_neg fun hc => hfree hc.2.2.1]
        exact Slot.has_of_found hk
      · rw [e, hgj, hnot] at hk
        cases hk
  have hstep : (step fam wanted g i j) = g j := foldl_step_of_set [i] (hgj ▸ hjset)
  refine hkj (h a k j ?_ ?_)
  · rwa [foldl_step_of_set l₂ (Bool.and_eq_true _ _ ▸ hk).1]
  · rwa [foldl_step_of_set l₂ (by rw [hstep, hgj]; exact hjset), hstep, hgj]

/-- After one run the addresses are distinct just when the code finds the lines that it has to. -/
theorem distinct_update_iff : Distinct fam (update fam wanted c.slots) ↔ Found fam wanted c := by
  refine ⟨found_of_distinct, fun h => ?_⟩
  rw [c.update_eq]
  generalize finRange n = l
  induction l using reverseRecOn with
  | nil => exact c.distinct
  | append_singleton l i ih =>
    rw [foldl_concat]
    exact distinct_step ih (given_foldl l) h i

/-- Without the addresses from the hosts files the lines are as they were configured. -/
def Kept (c : Configured fam n) (f : Fin n → Slot β) : Prop := ∀ i, (f i).clear.Like fam (c.slots i)

theorem Configured.kept (c : Configured fam n) : Kept c c.slots := fun i => by
  rw [c.clear i]
  exact ⟨rfl, fun _ => rfl, fun _ => rfl⟩

theorem Kept.step (h : Kept c f) (i : Fin n) : Kept c (step fam wanted f i) := by
  intro j
  rcases step_cases wanted f i j with heq | ⟨rfl, hset, -, a, -, heq⟩
  · rw [heq]
    exact h j
  · have hj := h j
    rw [Slot.clear_of_unset hset] at hj
    rw [heq]
    exact ⟨hj.set, fun h => absurd h Bool.false_ne_true,
      fun b => (fam.store_store _ a b).trans (hj.store b)⟩

theorem Kept.update (h : Kept c f) : Kept c (update fam wanted f) := by
  apply foldlRecOn
  · intro i
    have hclear : (f i).clear.clear = (f i).clear := by
      unfold Slot.clear
      split_ifs <;> rfl
    rw [hclear]
    exact h i
  · exact fun f h i _ => h.step i

/-- A run after others does what it does on the lines as configured. -/
theorem Kept.like (h : Kept c f) (wanted : Fin n → Option α) (i : Fin n) :
    (HostsConfig.update fam wanted f i).Like fam (HostsConfig.update fam wanted c.slots i) := by
  apply foldl_rel (r := fun f g : Fin n → Slot β => ∀ i, (f i).Like fam (g i))
  · intro i
    rw [c.clear i]
    exact h i
  · exact fun i _ f g h => step_like h i

theorem Kept.distinct_iff (h : Kept c f) :
    Distinct fam (HostsConfig.update fam wanted f) ↔ Found fam wanted c := by
  rw [← distinct_update_iff, Distinct, Distinct]
  simp only [Slot.has, fun i => (h.like wanted i).any]

end Update

variable {n : ℕ}

/-- Without the DNS server there is no look-up. -/
def lookup {α : Type} (port : ℕ) (hostname : Fin n → Option CString) (answers : CString →
    List (Answer α)) (i : Fin n) : Option α :=
  if port = 0 then none else (hostname i).bind fun name => hostsAddr (answers name)

/-- The second line has the name "b". -/
def named (i : Fin 2) : Option CString := if i = 1 then some [98] else none

end Dnsmasq.Dhcp6.HostsConfig
