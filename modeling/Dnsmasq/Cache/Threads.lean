import Dnsmasq.Cache.Operations

/-!
How the records hang together. `Threads` says which lists the pointers represent; a record can be in
hand, taken out of one list and not yet put into another.
-/
namespace Dnsmasq.Cache

open List hiding Chain
open Lib Function

/-- What the pointers represent: the LRU list, the new entries of an insertion, the spare DHCP
records and the hash chains. -/
structure Lists where
  lru : List CrecId
  new : List CrecId
  spare : List CrecId
  chain : ℕ → List CrecId

variable {cfg : Config} {s s' : State} {L L' : Lists} {hand : Set CrecId} {i : ℕ} {c d : CrecId}

def Lists.setChain (L : Lists) (i : ℕ) (l : List CrecId) : Lists :=
  { L with chain := update L.chain i l }

def Lists.Hashed (L : Lists) (c : CrecId) : Prop := ∃ i, c ∈ L.chain i

def bucketOf (cfg : Config) (s : State) (c : CrecId) : ℕ :=
    hashBucket cfg s.hashSize (s.crec c).name

structure Hashable (cfg : Config) (r : Crec) (c : CrecId) : Prop where
  pool : c < cfg.cachesize → r.flags.upstream = true
  other : cfg.cachesize ≤ c →
    r.flags.forward = true ∧ r.flags.isStatic = true ∧
      (r.flags.dnssec = true → r.flags.config = true ∧ (r.flags.ipv4 || r.flags.ipv6) = false) ∧
      (r.flags.hosts = true ∨ r.flags.config = true → r.flags.immortal = true) ∧
      (r.flags.cname = true → r.isNamePtr = true) ∧
      (r.flags.dhcp = true → (r.flags.hosts || r.flags.config) = false)

structure Threads (cfg : Config) (s : State) (L : Lists) (hand : Set CrecId) : Prop where
  lru : s.toDLinks.Holds L.lru
  new : Chain s.next s.newChain L.new
  spare : Chain s.next s.dhcpSpare L.spare
  hash : ∀ i, Chain s.hashNext (s.table i) (L.chain i)
  size : 0 < s.hashSize
  bound : cfg.cachesize ≤ s.nextCrec
  held : ∀ c ∈ hand, c < s.nextCrec ∧ c ∉ L.new
  lruPool : ∀ c ∈ L.lru, c < cfg.cachesize
  newPool : ∀ c ∈ L.new, c < cfg.cachesize ∧ (s.crec c).flags.upstream = true
  apart : ∀ c ∈ L.lru, c ∉ L.new
  pool : ∀ c < cfg.cachesize, c ∉ hand → c ∈ L.lru ∨ c ∈ L.new
  sparePlace : ∀ c ∈ L.spare, cfg.cachesize ≤ c ∧ c < s.nextCrec ∧ c ∉ hand ∧ ¬L.Hashed c
  place : ∀ i, ∀ c ∈ L.chain i, bucketOf cfg s c = i ∧ c < s.nextCrec ∧ Hashable cfg (s.crec c) c ∧
    (c < cfg.cachesize → c ∉ hand → c ∈ L.lru)
  hashed : ∀ c ∈ L.lru, c ∉ hand → (s.crec c).flags.inUse = true → c ∈ L.chain (bucketOf cfg s c)
  /-- Reverse entries are at the start of the chains. -/
  order : ∀ i, (L.chain i).Pairwise fun a b =>
    (s.crec b).flags.reverse = true → (s.crec a).flags.reverse = true

theorem Flags.upstream_inUse {f : Flags} (h : f.upstream = true) : f.inUse = true := by
  unfold Flags.upstream at h
  unfold Flags.inUse
  cases hf : f.forward <;> simp_all

theorem Flags.upstream_not_static {f : Flags} (h : f.upstream = true) : f.isStatic = false := by
  unfold Flags.upstream at h
  cases hf : f.isStatic <;> simp_all

theorem Hashable.inUse {r : Crec} (h : Hashable cfg r c) : r.flags.inUse = true := by
  by_cases hc : c < cfg.cachesize
  · exact Flags.upstream_inUse (h.pool hc)
  · simp [Flags.inUse, (h.other (not_lt.mp hc)).1]

theorem Hashable.static_iff {r : Crec} (h : Hashable cfg r c) :
    r.flags.isStatic = true ↔ cfg.cachesize ≤ c := by
  by_cases hc : c < cfg.cachesize
  · simp [Flags.upstream_not_static (h.pool hc), hc]
  · simp [(h.other (not_lt.mp hc)).2.1, not_lt.mp hc]

theorem hashBucket_lt (cfg : Config) {size : ℕ} (h : 0 < size) (name : CString) :
    hashBucket cfg size name < size :=
  (Nat.and_le_right).trans_lt (Nat.sub_lt h one_pos)

theorem hashBucket_congr (cfg : Config) (size : ℕ) {a b : CString}
    (h : hostnameIsequal a b = true) : hashBucket cfg size a = hashBucket cfg size b := by
  have hfold : ∀ (name : CString) (v : UInt32), name.foldl (hashStep cfg) v =
      (foldCase name).foldl (fun (v : UInt32) (c : UInt8) => ((v <<< 7) ||| (v >>> 25)) +
        (cfg.mixTab ((v + c.toUInt32) &&& 0x3f) ^^^ c.toUInt32)) v := by
    intro name v
    unfold foldCase
    rw [foldl_map]
    rfl
  have heq : foldCase a = foldCase b := (hostnameOrder_eq_zero_iff a b).mp (of_decide_eq_true h)
  unfold hashBucket
  rw [hfold a, hfold b, heq]

namespace Threads

theorem unhashed_lt (h : Threads cfg s L hand) (hc : c ∈ L.chain i) : c < s.nextCrec :=
    (h.place i c hc).2.1

variable {j : ℕ} {pre rest : List CrecId}

section

variable (h : Threads cfg s L hand)
include h

theorem chain_unique (hi : c ∈ L.chain i) (hj : c ∈ L.chain j) : i = j :=
    (h.place i c hi).1.symm.trans (h.place j c hj).1

theorem notMem_new (hc : c ∈ L.chain i) : c ∉ L.new := by
  intro hn
  by_cases hh : c ∈ hand
  · exact (h.held c hh).2 hn
  · exact h.apart c ((h.place i c hc).2.2.2 (h.newPool c hn).1 hh) hn

theorem notMem_spare (hc : c ∈ L.chain i) : c ∉ L.spare :=
  fun hs => (h.sparePlace c hs).2.2.2 ⟨i, hc⟩

theorem chain_length (i : ℕ) : (L.chain i).length ≤ s.nextCrec := by
  rw [← toFinset_card_of_nodup (h.hash i).nodup, ← Finset.card_range s.nextCrec]
  refine Finset.card_le_card fun c hc => ?_
  exact Finset.mem_range.mpr (h.unhashed_lt (mem_toFinset.mp hc))

theorem lt_nextCrec (c : CrecId) (hc : L.Hashed c ∨ c ∈ L.new ∨ c ∈ L.spare) : c < s.nextCrec := by
  rcases hc with ⟨i, hi⟩ | hn | hs
  · exact h.unhashed_lt hi
  · exact (h.newPool c hn).1.trans_le h.bound
  · exact (h.sparePlace c hs).2.1

theorem place_of {P : CrecId → Prop} (hP : ∀ d < cfg.cachesize, (d ∉ hand → d ∈ L.lru) → P d)
    (i : ℕ) (d : CrecId) (hd : d ∈ L.chain i) :
    bucketOf cfg s d = i ∧ d < s.nextCrec ∧ Hashable cfg (s.crec d) d ∧ (d < cfg.cachesize → P d) :=
  ⟨(h.place i d hd).1, (h.place i d hd).2.1, (h.place i d hd).2.2.1,
    fun hp => hP d hp ((h.place i d hd).2.2.2 hp)⟩

theorem sparePlace_of {hand' : Set CrecId} (hhand : ∀ d ∈ L.spare, d ∉ hand → d ∉ hand')
    (d : CrecId) (hd : d ∈ L.spare) : cfg.cachesize ≤ d ∧ d < s.nextCrec ∧ d ∉ hand' ∧
    ¬L.Hashed d :=
  ⟨(h.sparePlace d hd).1, (h.sparePlace d hd).2.1, hhand d hd (h.sparePlace d hd).2.2.1,
    (h.sparePlace d hd).2.2.2⟩

theorem congr (h1 : s'.toDLinks = s.toDLinks) (h2 : s'.newChain = s.newChain)
    (h3 : s'.dhcpSpare = s.dhcpSpare) (h4 : s'.hashNext = s.hashNext) (h5 : s'.table = s.table)
    (h6 : s'.hashSize = s.hashSize) (h7 : s'.nextCrec = s.nextCrec) (h8 : s'.crec = s.crec) :
    Threads cfg s' L hand := by
  cases s
  subst h1 h2 h3 h4 h5 h6 h7 h8
  exact { h with }

end

theorem pickUp (h : Threads cfg s L ∅) (hc : c < s.nextCrec) (hnew : c ∉ L.new)
    (hspare : c ∉ L.spare) : Threads cfg s L {c} :=
  { h with
    held := fun _ hd => Set.mem_singleton_iff.mp hd ▸ ⟨hc, hnew⟩
    pool := fun d hd _ => h.pool d hd (Set.notMem_empty d)
    sparePlace := h.sparePlace_of fun _ hd _ e => hspare (Set.mem_singleton_iff.mp e ▸ hd)
    place := h.place_of fun d _ hlru _ => hlru (Set.notMem_empty d)
    hashed := fun d hd _ => h.hashed d hd (Set.notMem_empty d) }

theorem putBack (h : Threads cfg s L hand) (hlru : c < cfg.cachesize → c ∈ L.lru)
    (hhash : c < cfg.cachesize → (s.crec c).flags.inUse = true → c ∈ L.chain (bucketOf cfg s c)) :
    Threads cfg s L (hand \ {c}) := by
  have hsplit : ∀ {d}, d ∉ hand \ {c} → d = c ∨ d ∉ hand := fun hd => by
    by_contra hne
    rw [not_or, not_not] at hne
    exact hd ⟨hne.2, hne.1⟩
  exact { h with
    held := fun d hd => h.held d hd.1
    pool := fun d hd e => by
      rcases hsplit e with rfl | e
      · exact .inl (hlru hd)
      · exact h.pool d hd e
    sparePlace := h.sparePlace_of fun _ _ hd e => hd e.1
    place := h.place_of fun d hp hd e => (hsplit e).elim (fun he => he ▸ hlru (he ▸ hp)) hd
    hashed := fun d hd e hu => by
      rcases hsplit e with rfl | e
      · exact hhash (h.lruPool d hd) hu
      · exact h.hashed d hd e hu }

theorem putDown (h : Threads cfg s L {c}) (hlru : c < cfg.cachesize → c ∈ L.lru)
    (hhash : c < cfg.cachesize → (s.crec c).flags.inUse = true → c ∈ L.chain (bucketOf cfg s c)) :
    Threads cfg s L ∅ := by
  have := h.putBack hlru hhash
  rwa [Set.sdiff_self] at this

section

variable (h : Threads cfg s L {c})
include h

theorem unlink (hc : c ∈ L.lru) :
    Threads cfg (cacheUnlink s c) { L with lru := L.lru.erase c } {c} :=
  { h with
    lru := h.lru.remove hc
    new := h.new.congr fun d hd => h.lru.remove_next hc fun hl => h.apart d hl hd
    spare := h.spare.congr fun d hd => h.lru.remove_next hc fun hl =>
      absurd (h.lruPool d hl) (not_lt.mpr (h.sparePlace d hd).1)
    lruPool := fun d hd => h.lruPool d (mem_of_mem_erase hd)
    apart := fun d hd => h.apart d (mem_of_mem_erase hd)
    pool := fun d hd e => (h.pool d hd e).imp_left (mem_erase_of_ne e).mpr
    place := h.place_of fun _ _ hd e => (mem_erase_of_ne e).mpr (hd e)
    hashed := fun d hd => h.hashed d (mem_of_mem_erase hd) }

theorem link (hc : c < cfg.cachesize) (hlru : c ∉ L.lru) :
    Threads cfg (cacheLink s c) { L with lru := c :: L.lru } {c} :=
  { h with
    lru := h.lru.pushFront hlru
    new := h.new.congr fun _ hd => DLinks.pushFront_next fun e => (h.held c rfl).2 (e ▸ hd)
    spare := h.spare.congr fun d hd => DLinks.pushFront_next fun e =>
      absurd (h.sparePlace d hd).1 (not_le.mpr (e ▸ hc))
    lruPool := fun d hd => (mem_cons.mp hd).elim (fun e => e ▸ hc) (h.lruPool d)
    apart := fun d hd => (mem_cons.mp hd).elim (fun e => e ▸ (h.held c rfl).2) (h.apart d)
    pool := fun d hd e => (h.pool d hd e).imp_left (mem_cons_of_mem c)
    place := h.place_of fun _ _ hd e => mem_cons_of_mem c (hd e)
    hashed := fun d hd e => h.hashed d ((mem_cons.mp hd).resolve_left e) e }

theorem modify (hc : ¬L.Hashed c) (u : Crec → Crec) : Threads cfg (s.modify c u) L {c} := by
  have hrest : ∀ d, d ≠ c → (s.modify c u).crec d = s.crec d := fun d hd => update_of_ne hd _ _
  have hchain : ∀ {i d}, d ∈ L.chain i → d ≠ c := fun hd e => hc ⟨_, e ▸ hd⟩
  exact { h with
    newPool := fun d hd => by
      rw [hrest d fun e => (h.held c rfl).2 (e ▸ hd)]
      exact h.newPool d hd
    place := fun i d hd => by
      rw [bucketOf, hrest d (hchain hd)]
      exact h.place i d hd
    hashed := fun d hd e => by
      rw [bucketOf, hrest d e]
      exact h.hashed d hd e
    order := fun i => (h.order i).imp_of_mem fun {a b} ha hb hab => by
      rw [hrest a (hchain ha), hrest b (hchain hb)]
      exact hab }

theorem free (hc : c < cfg.cachesize) (hlru : c ∉ L.lru) (hchain : ¬L.Hashed c) :
    Threads cfg (cacheFree s c) { L with lru := L.lru ++ [c] } ∅ := by
  have h1 := h.modify hchain fun r => { r with flags := r.flags.freed, uid := uidNone }
  have h2 : Threads cfg (cacheFree s c) { L with lru := L.lru ++ [c] } {c} :=
    { h1 with
      lru := h1.lru.pushBack hlru
      new := h1.new.congr fun d hd => h1.lru.pushBack_next (fun hl => h.apart d hl hd)
        fun e => (h.held c rfl).2 (e ▸ hd)
      spare := h1.spare.congr fun d hd => by
        have hd' : cfg.cachesize ≤ d := (h.sparePlace d hd).1
        exact h1.lru.pushBack_next (fun hl => absurd (h.lruPool d hl) (not_lt.mpr hd'))
          fun e => absurd hd' (not_le.mpr (e ▸ hc))
      lruPool := fun d hd => by
        rcases mem_append.mp hd with hd | hd
        · exact h.lruPool d hd
        · exact mem_singleton.mp hd ▸ hc
      apart := fun d hd => by
        rcases mem_append.mp hd with hd | hd
        · exact h.apart d hd
        · exact mem_singleton.mp hd ▸ (h.held c rfl).2
      pool := fun d hd e => (h.pool d hd e).imp_left (mem_append_left [c])
      place := h1.place_of fun _ _ hd e => mem_append_left [c] (hd e)
      hashed := fun d hd e => h1.hashed d ((mem_append.mp hd).resolve_right fun hd =>
        e (mem_singleton.mp hd)) e }
  refine h2.putDown (fun _ => mem_append_right _ (mem_singleton_self c)) fun _ hu => ?_
  have hflags : (cacheFree s c).crec c =
      { s.crec c with flags := (s.crec c).flags.freed, uid := uidNone } :=
    update_self _ _ _
  rw [hflags] at hu
  simp [Flags.inUse, Flags.freed] at hu

end

theorem load_eq (h : Threads cfg s L hand) (hi : L.chain i = pre ++ rest) :
    s.load i pre.getLast? = rest.head? := by
  have hc := h.hash i
  rw [hi] at hc
  rcases eq_nil_or_concat pre with rfl | ⟨init, a, rfl⟩
  · exact hc.head?.symm
  · simp only [concat_eq_append, append_assoc, cons_append, nil_append] at hc ⊢
    simp only [getLast?_append, getLast?_singleton, Option.some_or]
    exact hc.from_cell.2.head?.symm

theorem store_other (h : Threads cfg s L hand) (hi : L.chain i = pre ++ rest)
    (p : Option CrecId) (hj : j ≠ i) :
    Chain (s.store i pre.getLast? p).hashNext ((s.store i pre.getLast? p).table j) (L.chain j) := by
  have htable : (s.store i pre.getLast? p).table j = s.table j := update_of_ne hj _ _
  rw [htable]
  refine (h.hash j).congr fun d hd => linkSet_of_ne (getLast?_ne_of_notMem fun hp => hj ?_) _
  exact h.chain_unique hd (hi ▸ mem_append_left rest hp)

theorem setChain_self (L : Lists) (i : ℕ) (l : List CrecId) : (L.setChain i l).chain i = l :=
  update_self _ _ _

theorem setChain_of_ne (L : Lists) (hj : j ≠ i) (l : List CrecId) :
    (L.setChain i l).chain j = L.chain j :=
  update_of_ne hj _ _

section

variable (h : Threads cfg s L ∅) (hi : L.chain i = pre ++ c :: rest)
include h hi

/-- `*up = crecp->hash_next`: the record is in hand now. -/
theorem unhash :
    Threads cfg (s.store i pre.getLast? (s.hashNext c)) (L.setChain i (pre ++ rest)) {c} := by
  have hc : c ∈ L.chain i := by simp [hi]
  have hsub : ∀ {j d}, d ∈ (L.setChain i (pre ++ rest)).chain j → d ∈ L.chain j := by
    intro j d hd
    by_cases hj : j = i
    · subst hj
      rw [setChain_self] at hd
      rw [hi]
      exact List.Sublist.subset (sublist_cons_self c rest |>.append_left pre) hd
    · rwa [setChain_of_ne L hj] at hd
  have hne : ∀ d ∈ L.chain i, d ≠ c → d ∈ pre ++ rest := by
    intro d hd e
    rw [hi] at hd
    simpa [e] using hd
  have h' := h.pickUp (h.unhashed_lt hc) (h.notMem_new hc) (h.notMem_spare hc)
  exact { h' with
    hash := by
      refine (forall_update_iff L.chain fun j l => Chain _ (State.table _ j) l).mpr
        ⟨?_, fun j hj => h.store_other hi _ hj⟩
      have htable : (s.store i pre.getLast? (s.hashNext c)).table i =
          headSet (s.table i) pre.getLast? (s.hashNext c) := update_self _ _ _
      have hchain := h.hash i
      rw [hi] at hchain
      rw [htable]
      exact hchain.skip
    sparePlace := fun d hd => ⟨(h'.sparePlace d hd).1, (h'.sparePlace d hd).2.1,
      (h'.sparePlace d hd).2.2.1, fun ⟨j, hj⟩ => (h'.sparePlace d hd).2.2.2 ⟨j, hsub hj⟩⟩
    place := fun j d hd => h'.place j d (hsub hd)
    hashed := fun d hd e hu => by
      have hmem := h'.hashed d hd e hu
      change d ∈ (L.setChain i (pre ++ rest)).chain (bucketOf cfg s d)
      by_cases hj : bucketOf cfg s d = i
      · rw [hj, setChain_self]
        rw [hj] at hmem
        exact hne d hmem e
      · rwa [setChain_of_ne L hj]
    order := (forall_update_iff L.chain fun _ l => l.Pairwise _).mpr
      ⟨(hi ▸ h.order i).sublist ((sublist_cons_self c rest).append_left pre),
        fun j _ => h.order j⟩ }

theorem not_hashed_of_unhash : ¬(L.setChain i (pre ++ rest)).Hashed c := by
  rintro ⟨j, hj⟩
  have hnodup := (h.hash i).nodup
  by_cases e : j = i
  · subst e
    rw [setChain_self] at hj
    rw [hi] at hnodup
    exact (nodup_cons.mp ((perm_middle).nodup_iff.mp hnodup)).1 hj
  · rw [setChain_of_ne L e] at hj
    exact e (h.chain_unique hj (by simp [hi]))

end

/-- `crecp->hash_next = *up; *up = crecp` -/
theorem hashAt (h : Threads cfg s L hand) (hhand : c ∈ hand) (hc : ¬L.Hashed c)
    (hok : Hashable cfg (s.crec c) c) (hb : bucketOf cfg s c = i) (hi : L.chain i = pre ++ rest)
    (hrev : (s.crec c).flags.reverse = true → ∀ a ∈ pre, (s.crec a).flags.reverse = true)
    (hrest : (s.crec c).flags.reverse = false → ∀ b ∈ rest, (s.crec b).flags.reverse = false) :
    Threads cfg ({ s with hashNext := update s.hashNext c rest.head? }.store i
      pre.getLast? (some c)) (L.setChain i (pre ++ c :: rest)) hand := by
  have hmem : ∀ {j d}, d ∈ (L.setChain i (pre ++ c :: rest)).chain j → j = i ∧ d = c ∨
      d ∈ L.chain j := by
    intro j d hd
    by_cases hj : j = i
    · subst hj
      rw [setChain_self] at hd
      rw [hi]
      rcases mem_append.mp hd with hd | hd
      · exact .inr (mem_append_left rest hd)
      · exact (mem_cons.mp hd).imp (⟨rfl, ·⟩) (mem_append_right pre)
    · rw [setChain_of_ne L hj] at hd
      exact .inr hd
  have hsup : ∀ {j d}, d ∈ L.chain j → d ∈ (L.setChain i (pre ++ c :: rest)).chain j := by
    intro j d hd
    by_cases hj : j = i
    · subst hj
      rw [hi] at hd
      rw [setChain_self]
      exact List.Sublist.subset (sublist_cons_self c rest |>.append_left pre) hd
    · rwa [setChain_of_ne L hj]
  have hord : (pre ++ c :: rest).Pairwise fun a b =>
      (s.crec b).flags.reverse = true → (s.crec a).flags.reverse = true := by
    have hord := h.order i
    rw [hi] at hord
    obtain ⟨h1, h2, h3⟩ := pairwise_append.mp hord
    refine pairwise_append.mpr ⟨h1, pairwise_cons.mpr ⟨fun b hb hrb => ?_, h2⟩, fun a ha b hb => ?_⟩
    · by_contra hrc
      rw [hrest (by simpa using hrc) b hb] at hrb
      cases hrb
    · rcases mem_cons.mp hb with rfl | hb
      · exact fun hrb => hrev hrb a ha
      · exact h3 a ha b hb
  exact { h with
    hash := by
      refine (forall_update_iff L.chain fun j l => Chain _ (State.table _ j) l).mpr ⟨?_,
        fun j hj => ?_⟩
      · have hchain := h.hash i
        rw [hi] at hchain
        have hins := hchain.insert fun hm => hc ⟨i, hi ▸ hm⟩
        rwa [← update_self i (headSet (s.table i) pre.getLast? (some c)) s.table] at hins
      have htable : ({ s with hashNext := update s.hashNext c rest.head? }.store i
          pre.getLast? (some c)).table j = s.table j := update_of_ne hj _ _
      rw [htable]
      refine (h.hash j).congr fun d hd => ?_
      have hd1 : pre.getLast? ≠ some d := getLast?_ne_of_notMem fun hp =>
        hj (h.chain_unique hd (hi ▸ mem_append_left rest hp))
      refine (linkSet_of_ne hd1 _).trans (update_of_ne ?_ _ _)
      rintro rfl
      exact hc ⟨j, hd⟩
    sparePlace := fun d hd => by
      obtain ⟨h1, h2, h3, h4⟩ := h.sparePlace d hd
      refine ⟨h1, h2, h3, fun ⟨j, hj⟩ => ?_⟩
      rcases hmem hj with ⟨-, e⟩ | hj
      · exact h3 (e ▸ hhand)
      · exact h4 ⟨j, hj⟩
    place := fun j d hd => by
      rcases hmem hd with ⟨rfl, rfl⟩ | hd
      · exact ⟨hb, (h.held d hhand).1, hok, fun _ e => absurd hhand e⟩
      · exact h.place j d hd
    hashed := fun d hd e hu => hsup (h.hashed d hd e hu)
    order := (forall_update_iff L.chain fun _ l => l.Pairwise _).mpr ⟨hord, fun j _ => h.order j⟩ }

theorem setNext (h : Threads cfg s L hand) (hlru : c ∉ L.lru) (hnew : c ∉ L.new)
    (hspare : c ∉ L.spare) (p : Option CrecId) :
    Threads cfg { s with next := update s.next c p } L hand :=
  { h with
    lru := h.lru.congr (fun _ hd => update_of_ne (ne_of_mem_of_not_mem hd hlru) _ _) rfl rfl rfl
    new := h.new.update_of_notMem hnew p
    spare := h.spare.update_of_notMem hspare p }

theorem pushNew (h : Threads cfg s L {c}) (hc : c < cfg.cachesize) (hlru : c ∉ L.lru)
    (hchain : ¬L.Hashed c) (hup : (s.crec c).flags.upstream = true) :
    Threads cfg { s with next := update s.next c s.newChain, newChain := some c }
      { L with new := c :: L.new } ∅ := by
  have hspare : c ∉ L.spare := fun hs => (h.sparePlace c hs).2.2.1 rfl
  exact { h with
    lru := h.lru.congr (fun _ hd => update_of_ne (ne_of_mem_of_not_mem hd hlru) _ _) rfl rfl rfl
    new := h.new.push (h.held c rfl).2
    spare := h.spare.update_of_notMem hspare _
    held := fun d hd => absurd hd (Set.notMem_empty d)
    newPool := fun d hd => (mem_cons.mp hd).elim (fun e => by subst e; exact ⟨hc, hup⟩)
      (h.newPool d)
    apart := fun d hd hn => (mem_cons.mp hn).elim (fun e => hlru (e ▸ hd)) (h.apart d hd)
    pool := fun d hd _ => by
      by_cases e : d = c
      · exact .inr (e ▸ mem_cons_self)
      · exact (h.pool d hd e).imp_right (mem_cons_of_mem c)
    sparePlace := h.sparePlace_of fun d _ _ => Set.notMem_empty d
    place := fun i d hd => h.place_of (fun _ _ hd => hd) i d hd |>.imp_right <| .imp_right <|
      .imp_right fun hl hp _ =>
      hl hp fun e => hchain ⟨i, Set.mem_singleton_iff.mp e ▸ hd⟩
    hashed := fun d hd _ => h.hashed d hd fun e => hlru (Set.mem_singleton_iff.mp e ▸ hd) }

theorem popNew (h : Threads cfg s L ∅) {new : List CrecId} (hn : L.new = c :: new) :
    Threads cfg { s with newChain := s.next c } { L with new := new } {c} := by
  have hc : c ∈ L.new := hn ▸ mem_cons_self
  have hsub : ∀ {d}, d ∈ new → d ∈ L.new := fun hd => hn ▸ mem_cons_of_mem c hd
  have hnew := h.new
  rw [hn] at hnew
  exact { h with
    new := hnew.2
    held := fun d e => by
      rw [Set.mem_singleton_iff.mp e]
      exact ⟨(h.newPool c hc).1.trans_le h.bound, hnew.not_mem_of_cons⟩
    newPool := fun d hd => h.newPool d (hsub hd)
    apart := fun d hd hm => h.apart d hd (hsub hm)
    pool := fun d hd e => (h.pool d hd (Set.notMem_empty d)).imp_right fun hm => by
      rw [hn] at hm
      exact (mem_cons.mp hm).resolve_left e
    sparePlace := h.sparePlace_of fun d hd _ e =>
      absurd (h.newPool c hc).1 (not_lt.mpr (Set.mem_singleton_iff.mp e ▸ (h.sparePlace d hd).1))
    place := h.place_of fun d _ hlru _ => hlru (Set.notMem_empty d)
    hashed := fun d hd _ => h.hashed d hd (Set.notMem_empty d) }

theorem pushSpare (h : Threads cfg s L {c}) (hc : cfg.cachesize ≤ c) (hchain : ¬L.Hashed c) :
    Threads cfg (toSpare s c) { L with spare := c :: L.spare } ∅ := by
  have hlru : c ∉ L.lru := fun hl => absurd (h.lruPool c hl) (not_lt.mpr hc)
  have hspare : c ∉ L.spare := fun hs => (h.sparePlace c hs).2.2.1 rfl
  have hput := (h.setNext hlru (h.held c rfl).2 hspare s.dhcpSpare).putDown
    (fun hp => absurd hp (not_lt.mpr hc)) (fun hp => absurd hp (not_lt.mpr hc))
  exact { hput with
    spare := h.spare.push hspare
    sparePlace := fun d hd => by
      rcases mem_cons.mp hd with rfl | hd
      · exact ⟨hc, (h.held d rfl).1, Set.notMem_empty d, hchain⟩
      · exact h.sparePlace_of (fun d _ _ => Set.notMem_empty d) d hd }

theorem popSpare (h : Threads cfg s L ∅) {spare : List CrecId} (hs : L.spare = c :: spare) :
    Threads cfg { s with dhcpSpare := s.next c } { L with spare := spare } {c} := by
  have hc : c ∈ L.spare := hs ▸ mem_cons_self
  have hsp := h.spare
  rw [hs] at hsp
  have h1 : Threads cfg { s with dhcpSpare := s.next c } { L with spare := spare } ∅ :=
    { h with
      spare := hsp.2
      sparePlace := fun d hd => h.sparePlace d (hs ▸ mem_cons_of_mem c hd) }
  refine h1.pickUp (h.sparePlace c hc).2.1 (fun hn => ?_) hsp.not_mem_of_cons
  exact absurd (h.newPool c hn).1 (not_lt.mpr (h.sparePlace c hc).1)

theorem allocate (h : Threads cfg s L ∅) (n : ℕ) :
    Threads cfg { s.modify s.nextCrec fun _ => {} with nextCrec := s.nextCrec + 1, allocs := n }
    L {s.nextCrec} := by
  have hnew : s.nextCrec ∉ L.new :=
    fun hn => absurd ((h.newPool _ hn).1.trans_le h.bound) (lt_irrefl _)
  have hspare : s.nextCrec ∉ L.spare := fun hs => absurd (h.sparePlace _ hs).2.1 (lt_irrefl _)
  have hhash : ¬L.Hashed s.nextCrec := fun ⟨_, hi⟩ => absurd (h.unhashed_lt hi) (lt_irrefl _)
  have h1 : Threads cfg { s with nextCrec := s.nextCrec + 1, allocs := n } L ∅ :=
    { h with
      bound := h.bound.trans (Nat.le_succ _)
      held := fun d hd => absurd hd (Set.notMem_empty d)
      sparePlace := fun d hd => ⟨(h.sparePlace d hd).1, Nat.lt_succ_of_lt (h.sparePlace d hd).2.1,
        Set.notMem_empty d, (h.sparePlace d hd).2.2.2⟩
      place := fun i d hd => ⟨(h.place i d hd).1, Nat.lt_succ_of_lt (h.place i d hd).2.1,
        (h.place i d hd).2.2.1, (h.place i d hd).2.2.2⟩ }
  exact (h1.pickUp (Nat.lt_succ_self _) hnew hspare).modify hhash fun _ => {}

theorem modify_inert (h : Threads cfg s L hand) {u : Crec →
    Crec} (hname : (u (s.crec c)).name = (s.crec c).name) (hflags :
    (u (s.crec c)).flags = (s.crec c).flags ∨
      cfg.cachesize ≤ c ∧ (u (s.crec c)).flags = { (s.crec c).flags with immortal := true })
    (hptr : cfg.cachesize ≤ c → (u (s.crec c)).isNamePtr = (s.crec c).isNamePtr) :
    Threads cfg (s.modify c u) L hand := by
  have hself : (s.modify c u).crec c = u (s.crec c) := update_self _ _ _
  -- every record is as it was, or changed like `c`
  have hrel : ∀ d, ((s.modify c u).crec d).name = (s.crec d).name ∧
      (((s.modify c u).crec d).flags = (s.crec d).flags ∨
        cfg.cachesize ≤ d ∧ ((s.modify c u).crec d).flags =
        { (s.crec d).flags with immortal := true }) ∧
      (cfg.cachesize ≤ d → ((s.modify c u).crec d).isNamePtr = (s.crec d).isNamePtr) := by
    intro d
    by_cases e : d = c
    · subst e
      rw [hself]
      exact ⟨hname, hflags, hptr⟩
    · rw [show (s.modify c u).crec d = s.crec d from update_of_ne e _ _]
      exact ⟨rfl, .inl rfl, fun _ => rfl⟩
  have field : ∀ {α : Type} (π : Flags → α), (∀ f : Flags, π { f with immortal := true } = π f) →
      ∀ d, π ((s.modify c u).crec d).flags = π (s.crec d).flags := by
    intro α π hπ d
    rcases (hrel d).2.1 with hf | ⟨-, hf⟩
    · rw [hf]
    · rw [hf, hπ]
  have hpool : ∀ d, d < cfg.cachesize → ((s.modify c u).crec d).flags = (s.crec d).flags :=
    fun d hd =>
    (hrel d).2.1.resolve_right fun hf => absurd hd (not_lt.mpr hf.1)
  have hbucket : ∀ d, bucketOf cfg (s.modify c u) d = bucketOf cfg s d := by
    intro d
    rw [bucketOf, (hrel d).1]
    rfl
  have himmortal : ∀ d, (s.crec d).flags.immortal = true →
      ((s.modify c u).crec d).flags.immortal = true := by
    intro d hd
    rcases (hrel d).2.1 with hf | ⟨-, hf⟩
    · rwa [hf]
    · rw [hf]
  have hok : ∀ d, Hashable cfg (s.crec d) d → Hashable cfg ((s.modify c u).crec d) d := by
    intro d hd
    constructor
    · intro hp
      rw [hpool d hp]
      exact hd.pool hp
    intro hp
    obtain ⟨h1, h2, h3, h4, h5, h6⟩ := hd.other hp
    rw [field (·.forward) fun _ => rfl, field (·.isStatic) fun _ => rfl,
      field (·.dnssec) fun _ => rfl,
      field (·.config) fun _ => rfl, field (·.hosts) fun _ => rfl, field (·.ipv4) fun _ => rfl,
      field (·.ipv6) fun _ => rfl, field (·.cname) fun _ => rfl, field (·.dhcp) fun _ => rfl,
      (hrel d).2.2 hp]
    exact ⟨h1, h2, h3, fun hc => himmortal d (h4 hc), h5, h6⟩
  exact { h with
    newPool :=
      fun d hd => ⟨(h.newPool d hd).1, by rw [hpool d (h.newPool d hd).1]; exact (h.newPool d hd).2⟩
    place := fun i d hd => ⟨(hbucket d).trans (h.place i d hd).1, (h.place i d hd).2.1,
      hok d (h.place i d hd).2.2.1, (h.place i d hd).2.2.2⟩
    hashed := fun d hd e hu => by
      rw [hbucket]
      rw [field (·.inUse) fun _ => rfl] at hu
      exact h.hashed d hd e hu
    order := fun i => (h.order i).imp fun {a b} hab => by
      rw [field (·.reverse) fun _ => rfl, field (·.reverse) fun _ => rfl]
      exact hab }

end Threads

end Dnsmasq.Cache
