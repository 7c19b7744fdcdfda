import Dnsmasq.Cache.Leases
import Dnsmasq.Cache.Transaction

/-!
`cache_reload`: everything but the names from DHCP is read again.
-/
namespace Dnsmasq.Cache

open List hiding Chain
open Option Lib

variable {cfg : Config} {s s' t : State} {L L' M : Lists} {i n : ℕ} {c d : CrecId} {S : Crec → Prop}
  {q : CString → Prop}

def Clearing : Action → View → Prop
  | .drop c, v => (v.crec c).flags.hosts = true ∨ (v.crec c).flags.config = true
  | .clear _, _ => True
  | _, _ => False

theorem Threads.clear (h : Threads cfg s L ∅) {pre rest : List CrecId} (hi : L.chain i =
    pre ++ c :: rest) (hc : c < cfg.cachesize) (k : ℕ) :
    Reaches cfg Clearing s L ({ s.store i pre.getLast? (s.hashNext c) with bigFree := k }.modify c
      fun r =>
      { r with flags := {} }) (L.setChain i (pre ++ rest)) := by
  have hmem : c ∈ L.chain i := by simp [hi]
  have hgone := h.not_hashed_of_unhash hi
  have hlru := (h.place i c hmem).2.2.2 hc (Set.notMem_empty c)
  have h1 := (h.unhash hi).modify hgone fun r => { r with flags := {} }
  have h2 := h1.putDown (fun _ => hlru) fun _ hu => by
    rw [State.modify_self] at hu
    cases hu
  constructor
  · exact h2.congr rfl rfl rfl rfl rfl rfl rfl rfl
  · exact (Move.clear (v := s.view L) hi hc (h.notMem_new hmem) hgone).moves trivial

theorem Threads.clearAll (h : Threads cfg s L ∅) :
    ∃ s' L', sweepTable clearEntry s () = some (s', ()) ∧ Reaches cfg Clearing s L s' L' ∧
      ∀ d, L'.Hashed d → (s'.crec d).flags.dhcp = true := by
  obtain ⟨s', L', hs', hR, hp⟩ := sweepTable_filter (P := Clearing) (b := clearEntry)
    (p := fun r => r.flags.hosts || r.flags.config || !r.flags.dhcp)
    (f := fun s c => if (s.crec c).flags.hosts || (s.crec c).flags.config then id else fun t =>
      { t with bigFree := if (s.crec c).flags.bigname then t.bigFree + 1
                 else t.bigFree }.modify c fun r =>
        { r with flags := {} })
    (fun s c => by
      dsimp only [clearEntry]
      cases (s.crec c).flags.hosts <;> cases (s.crec c).flags.config <;>
        cases (s.crec c).flags.dhcp <;> rfl)
    (fun s c t => by split <;> rfl)
    (fun {s L i pre c rest} hT hi hp => by
      have hc : c ∈ L.chain i := by simp [hi]
      have hplace := (hT.place i c hc).2.2.1
      refine ⟨L.setChain i (pre ++ rest), ?_, rfl, ?_, ?_⟩
      · split
        · rename_i hs
          have hle : cfg.cachesize ≤ c := hplace.static_iff.mp (by
            simp only [Flags.isStatic, Bool.or_eq_true] at hs ⊢
            tauto)
          constructor
          · exact (hT.unhash hi).putDown (fun hlt => absurd hlt (not_lt.mpr hle)) fun hlt =>
              absurd hlt (not_lt.mpr hle)
          · have hs' : (s.crec c).flags.hosts = true ∨ (s.crec c).flags.config = true := by
              simpa using hs
            exact (Move.drop (v := s.view L) hi hle).moves hs'
        rename_i hs
        have hlt : c < cfg.cachesize := by
          refine not_le.mp fun hle => ?_
          have := hplace.static_iff.mpr hle
          simp only [Flags.isStatic, Bool.or_eq_true, Bool.not_eq_true'] at this hs hp
          rcases hp with hp | hp
          · exact hs hp
          · simp [hp] at this
            exact hs this
        exact hT.clear hi hlt _
      · intro d hd
        split
        · rfl
        · exact Function.update_of_ne hd _ _
      · split <;> rfl) h
  refine ⟨s', L', hs', hR, fun d hd => ?_⟩
  have := hp d hd
  simp only [Bool.or_eq_false_iff, Bool.not_eq_false'] at this
  exact this.2

def LocalData.Record (cfg : Config) (d : LocalData) (r : Crec) : Prop :=
  (∃ a ∈ d.cnames, r = cnameCrec a {}) ∨ (∃ a ∈ d.ds, r = dsCrec cfg a {}) ∨
    (∃ e ∈ d.hostRecords, ∃ reverse, r = e.1.crec true e.2 1 reverse {}) ∨
    (∃ file ∈ d.hostsFiles, file.Entry cfg.localTtl r) ∨ ∃ name ∈ d.names, r = localName name

theorem cnameCrec_statable (a : CString × ℤ) (r : Crec) : Statable (cnameCrec a r).flags := by
  constructor <;> simp [cnameCrec, Flags.isStatic]

theorem dsCrec_statable (a : CString × ℕ) (r : Crec) : Statable (dsCrec cfg a r).flags := by
  constructor <;> simp [dsCrec, Flags.isStatic]

theorem Statable.config {r : Crec} (h : Statable r.flags) (hc : r.flags.config = true)
    (ha : (r.flags.ipv4 || r.flags.ipv6) = false) (hptr : r.flags.cname = true → r.isNamePtr = true)
    (hle : cfg.cachesize ≤ c) : Hashable cfg r c :=
  ⟨fun hlt => absurd hlt (not_lt.mpr hle),
    fun _ => ⟨h.forward, h.static, fun _ => ⟨hc, ha⟩, h.immortal, hptr, h.alone⟩⟩

theorem foldlM_staged {α : Type} {f : State → α → Option State} {l : List α}
    {s₀ : State} {L₀ : Lists} (hn : n ≤ s₀.nextCrec)
    (hstep : ∀ x ∈ l, ∀ {s L}, Threads cfg s L ∅ → n ≤ s.nextCrec → ∃ s' L', f s x = some s' ∧
      Staged cfg S q n s L s' L')
    (h : Staged cfg S q n s₀ L₀ s L) : ∃ s' L', l.foldlM f s = some s' ∧
      Staged cfg S q n s₀ L₀ s' L' := by
  obtain ⟨s', hs', L', hR⟩ := foldlM_some (f := f) (J := fun t => ∃ M, Staged cfg S q n s₀ L₀ t M)
    (fun x hx t ⟨M, hM⟩ => by
      obtain ⟨t', M', ht', hR⟩ := hstep x hx hM.threads (hn.trans hM.nextCrec_le)
      exact ⟨t', ht', M', hM.trans hR⟩) ⟨L, h⟩
  exact ⟨s', L', hs', hR⟩

theorem Threads.cacheReload (h : Threads cfg s L ∅) (d : LocalData) :
    ∃ s' L' s1 L1, cacheReload cfg s d = some s' ∧ Reaches cfg Clearing s L s1 L1 ∧
      (∀ c, L1.Hashed c → (s1.crec c).flags.dhcp = true) ∧ s1.nextCrec = s.nextCrec ∧
      Staged cfg (d.Record cfg) (fun _ => True) s.nextCrec s1 L1 s' L' := by
  obtain ⟨s1, L1, hs1, hR1, hdhcp⟩ := h.clearAll
  have hnext : s1.nextCrec = s.nextCrec := by
    refine hR1.moves.invariant (I := fun v => v.nextCrec = s.nextCrec) rfl fun a u u' ha hm hI => ?_
    cases hm <;> first | exact hI | exact absurd ha id
  have hn : s.nextCrec ≤ s1.nextCrec := hnext.ge
  obtain ⟨s2, L2, hs2, hR2⟩ := foldlM_staged (S := d.Record cfg) (q := fun _ => True)
    (f := addCname cfg) (l := d.cnames) hn (fun a ha {t M} hT hn => by
      unfold addCname
      split
      · exact ⟨t, M, rfl, .refl hT⟩
      · exact hT.addConfig hn _ (fun c hc => (cnameCrec_statable a {}).config rfl rfl (fun _ => rfl)
          hc) (.inl ⟨a, ha, rfl⟩) (cnameCrec_statable a {}) rfl) (.refl hR1.threads)
  obtain ⟨s3, L3, hs3, hR3⟩ := foldlM_staged (f := addDs cfg) (l := d.ds)
    hn (fun a ha {t M} hT hn =>
    hT.addConfig hn _ (fun c hc => (dsCrec_statable a {}).config rfl rfl (by rintro ⟨⟩) hc)
      (.inr (.inl ⟨a, ha, rfl⟩)) (dsCrec_statable a {}) rfl) hR2
  obtain ⟨s4, L4, hs4, hR4⟩ :=
    foldlM_staged (f := fun s e => Cache.addHost cfg s e.1 true true e.2 1)
    (l := d.hostRecords) hn (fun e he {t M} hT hn =>
      hT.addHost hn e.1 true true e.2 1 (fun reverse => .inr (.inr (.inl ⟨e, he, reverse, rfl⟩)))
        fun _ _ => trivial) hR3
  obtain ⟨⟨s5, m⟩, hs5, L5, hR5⟩ :=
    foldlM_some (f := Cache.readHostsfile cfg true) (l := d.hostsFiles)
    (s := (s4, cfg.cachesize)) (J := fun p : State × ℕ =>
      ∃ M, Staged cfg (d.Record cfg) (fun _ => True) s.nextCrec s1 L1 p.1 M)
    (by
      rintro file hfile ⟨t, m⟩ ⟨M, hM⟩
      obtain ⟨t', m', M', ht', hR⟩ :=
        hM.threads.readHostsfile (S := d.Record cfg) (hn.trans hM.nextCrec_le) true m
        file fun r hr => .inr (.inr (.inr (.inl ⟨file, hfile, hr⟩)))
      exact ⟨(t', m'), ht', M', hM.trans hR⟩) ⟨L4, hR4⟩
  obtain ⟨s6, L6, hs6, hR6⟩ :=
    foldlM_staged (f := fun s name => Cache.makeNonTerminals cfg s (localName name))
    (l := d.names) hn (fun name hname {t M} hT hn => by
      obtain ⟨t', M', ht', hT', hmade⟩ := hT.makeNonTerminals
        (show Statable (localName name).flags by constructor <;> simp [localName, Flags.isStatic])
        hn
      exact ⟨t', M', ht',
        .of_stage hT' (.name (.inr (.inr (.inr (.inr ⟨name, hname, rfl⟩)))) hmade)⟩) hR5
  refine ⟨s6, L6, s1, L1, ?_, hR1, hdhcp, hnext, hR6⟩
  unfold Cache.cacheReload
  simp only [hs1, hs2, hs3, hs4, hs5, bind_eq_bind, bind_some]
  exact hs6

def Effect (cfg : Config) : Op → State → Lists → State → Lists → Prop
  | .startInsert, s, L, s', L' =>
    Reaches cfg (fun a _ => (∃ c, a = .dropNew c) ∨ a = .reset) s L s' L' ∧
      L'.new = [] ∧ s'.insertError = false
  | .insert ins, s, L, s', L' =>
    ∃ new, Inserted cfg ins (ins.entry (cfg.ttl ins.flags ins.ttl)) s L (s', new) L'
  | .linkCname cpp newc, s, L, s', L' => Reaches cfg (fun a _ => a = .link cpp newc) s L s' L'
  | .endInsert, s, L, s', L' => Reaches cfg Committing s L s' L' ∧
      (s.insertError = true ∧ s' = s ∧ L' = L ∨ s.insertError = false ∧ L'.new = [])
  | .findByName name now _ _, s, L, s', L' =>
    Reaches cfg (Searching now (hostnameIsequal · name = true)) s L s' L'
  | .findByAddr _ now _, s, L, s', L' => Reaches cfg (Searching now fun _ => False) s L s' L' ∧
      Survives now (s.view L) (s'.view L')
  | .unhashDhcp, s, L, s', L' => Reaches cfg (fun a _ => ∃ c, a = .spare c) s L s' L' ∧
      ∀ d, L'.Hashed d → (s'.crec d).flags.dhcp = false
  | .addDhcpEntry l, s, L, s', L' => l.Added cfg s L s' L'
  | .hostsFile file, s, L, s', L' =>
    Staged cfg (file.Entry cfg.localTtl) (fun _ => True) s.nextCrec s L s' L'
  | .reload d, s, L, s', L' => ∃ s1 L1, Reaches cfg Clearing s L s1 L1 ∧
      (∀ c, L1.Hashed c → (s1.crec c).flags.dhcp = true) ∧ s1.nextCrec = s.nextCrec ∧
      Staged cfg (d.Record cfg) (fun _ => True) s.nextCrec s1 L1 s' L'

theorem Effect.threads {op : Op} (h : Effect cfg op s L s' L') : Threads cfg s' L' ∅ := by
  cases op with
  | startInsert => exact h.1.threads
  | insert ins =>
    obtain ⟨new, hins⟩ := h
    cases hins with
    | fail hR _ => exact hR.threads
    | found hR _ _ _ _ => exact hR.threads
    | new _ _ _ _ hT _ => exact hT
  | linkCname => exact Reaches.threads h
  | endInsert => exact h.1.threads
  | findByName => exact Reaches.threads h
  | findByAddr => exact h.1.threads
  | unhashDhcp => exact h.1.threads
  | addDhcpEntry =>
    obtain ⟨_, _, _, _, hR⟩ := h
    exact hR.threads
  | hostsFile => exact Staged.threads h
  | reload =>
    obtain ⟨_, _, _, _, _, hR⟩ := h
    exact hR.threads

theorem Threads.step (h : Threads cfg s L ∅) (op : Op) : ∃ s' L', step cfg s op = some s' ∧
    Effect cfg op s L s' L' := by
  cases op with
  | startInsert => exact h.cacheStartInsert
  | insert ins =>
    obtain ⟨⟨s', new⟩, L', hr, hins⟩ := h.cacheInsert ins
    exact ⟨s', L', by simp [Cache.step, hr], new, hins⟩
  | linkCname cpp newc => exact ⟨_, L, rfl, h.linkCname cpp newc⟩
  | endInsert => exact h.cacheEndInsert
  | findByName name now prot noRr =>
    obtain ⟨s', L', ans, _, _, _, hs', hR, -⟩ := h.cacheFindByName name now prot noRr
    exact ⟨s', L', by simp [Cache.step, hs'], hR⟩
  | findByAddr addr now prot =>
    obtain ⟨s', L', ans, _, _, _, hs', hR, hsurv, -⟩ :=
      h.cacheFindByAddr (q := fun _ => False) addr now prot
    exact ⟨s', L', by simp [Cache.step, hs'], hR, hsurv⟩
  | unhashDhcp => exact h.cacheUnhashDhcp
  | addDhcpEntry l => exact h.cacheAddDhcpEntry l
  | hostsFile file =>
    obtain ⟨s', m, L', hs', hR⟩ :=
      h.readHostsfile (S := file.Entry cfg.localTtl) le_rfl false 0 file fun _ hr => hr
    exact ⟨s', L', by simp [Cache.step, hs'], hR⟩
  | reload d =>
    obtain ⟨s', L', s1, L1, hs', hR⟩ := h.cacheReload d
    exact ⟨s', L', hs', s1, L1, hR⟩

/-- Each operation meets the condition in the state it is done in. -/
def Meets (cfg : Config) (ok : State → Op → Prop) : State → List Op → Prop
  | _, [] => True
  | s, op :: ops => ok s op ∧ ∀ s', step cfg s op = some s' → Meets cfg ok s' ops

theorem meets_true (cfg : Config) (s : State) (ops : List Op) :
    Meets cfg (fun _ _ => True) s ops := by
  induction ops generalizing s with
  | nil => trivial
  | cons op ops ih => exact ⟨trivial, fun s' _ => ih s'⟩

variable {I : State → Lists → Prop}

/-- What every operation that meets the condition keeps holds after a run of such operations. -/
theorem Threads.run_invariant {K : State → Op → Prop} (h : Threads cfg s L ∅) (hI : I s L)
    (hstep : ∀ {s L op s' L'}, Threads cfg s L ∅ → I s L → K s op →
      Effect cfg op s L s' L' → I s' L')
    (ops : List Op) (hok : Meets cfg K s ops) :
    ∃ s' L', run cfg s ops = some s' ∧ Threads cfg s' L' ∅ ∧ I s' L' := by
  induction ops generalizing s L with
  | nil => exact ⟨s, L, rfl, h, hI⟩
  | cons op ops ih =>
    obtain ⟨s1, L1, hs1, heff⟩ := h.step op
    obtain ⟨s', L', hs', hT⟩ := ih heff.threads (hstep h hI hok.1 heff) (hok.2 s1 hs1)
    exact ⟨s', L', by simpa [run, hs1] using hs', hT⟩

theorem cacheInit_threads (cfg : Config) : ∃ s L, cacheInit cfg = some s ∧ Threads cfg s L ∅ ∧
    (∀ c, ¬L.Hashed c) ∧ L.new = [] ∧ L.spare = [] ∧ s.warned = false := by
  let empty : State := { next := fun _ => none, prev := fun _ => none, head := none, tail := none
                         bignamesLeft := cfg.cachesize / 10, nextCrec := cfg.cachesize }
  have hlink : ∀ n, ∃ l, (∀ c, c ∈ l ↔ c < n) ∧
      ((List.range n).foldl cacheLink empty).toDLinks.Holds l ∧
      (List.range n).foldl cacheLink empty =
        { empty with toDLinks := ((List.range n).foldl cacheLink empty).toDLinks } := by
    intro n
    induction n with
    | zero => exact ⟨[], by simp, ⟨rfl, rfl⟩, rfl⟩
    | succ n ih =>
      obtain ⟨l, hl, hholds, heq⟩ := ih
      rw [range_succ, foldl_append]
      refine ⟨n :: l, fun c => ?_, hholds.pushFront fun hm => absurd ((hl n).mp hm) (lt_irrefl n),
        ?_⟩
      · rw [mem_cons, hl]
        omega
      have hframe : ∀ t : State, t = { empty with toDLinks := t.toDLinks } →
          cacheLink t n = { empty with toDLinks := (cacheLink t n).toDLinks } := by
        intro t ht
        rw [ht]
        rfl
      exact hframe _ heq
  obtain ⟨l, hl, hholds, heq⟩ := hlink cfg.cachesize
  have hinit : cacheInit cfg = some { empty with
      toDLinks := ((List.range cfg.cachesize).foldl cacheLink empty).toDLinks, table :=
        fun _ => none
      hashSize := doubleTo (cfg.cachesize / 10) (cfg.cachesize / 10) 64 } := by
    change rehash cfg ((List.range cfg.cachesize).foldl cacheLink empty) cfg.cachesize = _
    rw [heq]
    rfl
  refine ⟨_, { lru := l, new := [], spare := [], chain := fun _ => [] }, hinit, ?_,
    fun c ⟨i, hi⟩ => absurd hi not_mem_nil, rfl, rfl, rfl⟩
  exact
    { lru := hholds
      new := rfl
      spare := rfl
      hash := fun _ => rfl
      size := (by decide : 0 < 64).trans_le (le_doubleTo _ _ _)
      bound := le_rfl
      held := nofun
      lruPool := fun c hc => (hl c).mp hc
      newPool := nofun
      apart := fun c _ => not_mem_nil
      pool := fun c hc _ => .inl ((hl c).mpr hc)
      sparePlace := nofun
      place := fun i c hc => absurd hc not_mem_nil
      hashed := fun c _ _ hu => absurd hu (by simp [empty, Flags.inUse])
      order := fun i => List.Pairwise.nil }

theorem run_threads (cfg : Config) (ops : List Op) :
    ∃ s L, (cacheInit cfg).bind (run cfg · ops) = some s ∧ Threads cfg s L ∅ := by
  obtain ⟨s₀, L₀, hinit, hT₀, -⟩ := cacheInit_threads cfg
  obtain ⟨s, L, hs, hT, -⟩ := hT₀.run_invariant (I := fun _ _ => True)
    (K := fun _ _ => True) trivial (fun _ _ _ _ => trivial) ops (meets_true cfg s₀ ops)
  exact ⟨s, L, by rw [hinit]; exact hs, hT⟩

/-- In every reachable state, a record of the pool is either in the LRU list or waiting in
`new_chain`; the LRU list is doubly linked between its head and its tail; a record of it that is in
use is in the chain for its name and in no other, and all records in chains are in use. -/
theorem run_threaded (cfg : Config) (ops : List Op) :
    ∃ (s : State) (lru new : List CrecId) (chain : ℕ → List CrecId),
      (cacheInit cfg).bind (run cfg · ops) = some s ∧
      Chain s.next s.head lru ∧ Chain s.prev s.tail lru.reverse ∧ Chain s.next s.newChain new ∧
      (∀ i, Chain s.hashNext (s.table i) (chain i)) ∧
      (∀ c ∈ lru ++ new, c < cfg.cachesize) ∧ (∀ c < cfg.cachesize, Xor (c ∈ lru) (c ∈ new)) ∧
      (∀ c ∈ lru, (s.crec c).flags.inUse = true → ∀ i, c ∈ chain i ↔
        i = hashBucket cfg s.hashSize (s.crec c).name) ∧
      ∀ i, ∀ c ∈ chain i, (s.crec c).flags.inUse = true := by
  obtain ⟨s, L, hs, hT⟩ := run_threads cfg ops
  refine ⟨s, L.lru, L.new, L.chain, hs, hT.lru.forward, hT.lru.backward, hT.new, hT.hash,
    ?_, ?_, ?_, ?_⟩
  · intro c hc
    rcases mem_append.mp hc with hc | hc
    · exact hT.lruPool c hc
    · exact (hT.newPool c hc).1
  · intro c hc
    rcases hT.pool c hc (Set.notMem_empty c) with hm | hm
    · exact .inl ⟨hm, hT.apart c hm⟩
    · exact .inr ⟨hm, fun hl => hT.apart c hl hm⟩
  · intro c hc hu i
    have hmem := hT.hashed c hc (Set.notMem_empty c) hu
    constructor
    · intro hi
      exact hT.chain_unique hi hmem
    · rintro rfl
      exact hmem
  · intro i c hc
    exact (hT.place i c hc).2.2.1.inUse

/-!
A reply is inserted in one transaction, in the way of `extract_addresses`.
-/

/-- A record of a reply, and for a CNAME the name it points to. -/
structure Item where
  ins : Insert
  target : CString := []

def Follows : CString → List Item → Prop
  | _, [] => True
  | name, it :: rest =>
    it.ins.name = some name ∧ Follows (if it.ins.flags.cname then it.target else name) rest

/-- What is inserted between `cache_start_insert` and `cache_end_insert`, which is left out if the
reply is not to be cached. -/
structure Transaction where
  items : List Item
  commit : Bool := true
  /-- Replies with CNAMEs have no DNSSEC records that are cached in the same transaction. -/
  shape : (∀ it ∈ items, it.ins.flags.cname = false) ∨
    (∀ it ∈ items, it.ins.flags.dnssec = false) ∧ ∃ name, Follows name items

/-- The CNAME `cpp` that waits for its target is made to point at the new record. -/
def linkWaiting (s : State) : Option CrecId → Option CrecId → State
  | some newc, some cpp => linkCname s cpp newc
  | _, _ => s

def insertItem (cfg : Config) : State × Option CrecId → Item → Option (State × Option CrecId)
  | (s, cpp), it => do
      let (s, newc) ← cacheInsert cfg s it.ins
      some (linkWaiting s newc cpp, if it.ins.flags.cname then newc else none)

def Transaction.run (cfg : Config) (s : State) (t : Transaction) : Option State := do
  let s ← cacheStartInsert s
  let (s, _) ← t.items.foldlM (insertItem cfg) (s, none)
  if t.commit then cacheEndInsert cfg s else some s

def Op.outside : Op → Bool
  | .startInsert | .insert _ | .linkCname _ _ | .endInsert => false
  | _ => true

inductive Event
  | transaction (t : Transaction)
  | other (op : Op) (outside : op.outside = true)

def Event.step (cfg : Config) (s : State) : Event → Option State
  | .transaction t => t.run cfg s
  | .other op _ => Cache.step cfg s op

def runEvents (cfg : Config) (s : State) (events : List Event) : Option State :=
    events.foldlM (Event.step cfg) s

structure ItemEffect (cfg : Config) (it : Item) (cpp : Option CrecId) (s : State) (L : Lists)
    (s' : State) (L' : Lists) (cpp' : Option CrecId) : Prop where
  effect : ∃ s1 L1 new, Inserted cfg it.ins (it.ins.entry (cfg.ttl it.ins.flags it.ins.ttl))
    s L (s1, new) L1 ∧ (match new, cpp with
      | some c, some p => Reaches cfg (fun a _ => a = .link p c) s1 L1 s' L'
      | _, _ => s' = s1 ∧ L' = L1) ∧
    cpp' = if it.ins.flags.cname then new else none

theorem Inserted.threads {ins : Insert} {fill : Bool → ℕ → Crec → Crec} {r : State × Option CrecId}
    (h : Inserted cfg ins fill s L r L') : Threads cfg r.1 L' ∅ := by
  cases h with
  | fail hR _ => exact hR.threads
  | found hR _ _ _ _ => exact hR.threads
  | new _ _ _ _ hT _ => exact hT

theorem Threads.insertItem (h : Threads cfg s L ∅) (cpp : Option CrecId) (it : Item) :
    ∃ s' L' cpp', insertItem cfg (s, cpp) it = some (s', cpp') ∧ Threads cfg s' L' ∅ ∧
      ItemEffect cfg it cpp s L s' L' cpp' := by
  obtain ⟨⟨s1, new⟩, L1, hs1, hins⟩ := h.cacheInsert it.ins
  have hT := hins.threads
  have hitem : Cache.insertItem cfg (s, cpp) it = some (linkWaiting s1 new cpp,
      if it.ins.flags.cname then new else none) := by
    simp only [Cache.insertItem, hs1, bind_eq_bind, bind_some]
  cases new with
  | none => exact ⟨s1, L1, _, hitem, hT, ⟨s1, L1, none, hins, ⟨rfl, rfl⟩, rfl⟩⟩
  | some c =>
    cases cpp with
    | none => exact ⟨s1, L1, _, hitem, hT, ⟨s1, L1, some c, hins, ⟨rfl, rfl⟩, rfl⟩⟩
    | some p =>
      have hR := hT.linkCname p c
      exact ⟨_, L1, _, hitem, hR.threads, ⟨s1, L1, some c, hins, hR, rfl⟩⟩

/-- What every item of a transaction keeps holds at its end; `J` may speak of the items to come. -/
theorem Threads.transaction {J : State → Lists → Option CrecId → List Item → Prop}
    (h : Threads cfg s L ∅) (t : Transaction)
    (hstart : ∀ {s1 L1}, Effect cfg .startInsert s L s1 L1 → J s1 L1 none t.items)
    (hitem : ∀ {s L it rest cpp s' L' cpp'}, Threads cfg s L ∅ → J s L cpp (it :: rest) →
      ItemEffect cfg it cpp s L s' L' cpp' → J s' L' cpp' rest)
    (hend : ∀ {s L cpp s' L'}, Threads cfg s L ∅ → J s L cpp [] →
      Effect cfg .endInsert s L s' L' → I s' L')
    (hleave : ∀ {s L cpp}, Threads cfg s L ∅ → J s L cpp [] → I s L) :
    ∃ s' L', t.run cfg s = some s' ∧ Threads cfg s' L' ∅ ∧ I s' L' := by
  obtain ⟨s1, L1, hs1, hR1⟩ := h.step .startInsert
  have hfold : ∀ (items : List Item) {s : State} {L : Lists} {cpp : Option CrecId},
      Threads cfg s L ∅ → J s L cpp items →
      ∃ s' L' cpp', items.foldlM (Cache.insertItem cfg) (s, cpp) = some (s', cpp') ∧
        Threads cfg s' L' ∅ ∧ J s' L' cpp' [] := by
    intro items
    induction items with
    | nil => exact fun {s L cpp} hT hJ => ⟨s, L, cpp, rfl, hT, hJ⟩
    | cons it rest ih =>
      intro s L cpp hT hJ
      obtain ⟨s1, L1, cpp1, hs1, hT1, heff⟩ := hT.insertItem cpp it
      obtain ⟨s', L', cpp', hs', hrest⟩ := ih hT1 (hitem hT hJ heff)
      exact ⟨s', L', cpp', by simp [foldlM_cons, hs1, hs'], hrest⟩
  obtain ⟨s2, L2, cpp, hs2, hT2, hJ2⟩ := hfold t.items hR1.threads (hstart hR1)
  have hs1' : Cache.cacheStartInsert s = some s1 := hs1
  unfold Transaction.run
  simp only [hs1', hs2, bind_eq_bind, bind_some]
  cases t.commit with
  | true =>
    obtain ⟨s3, L3, hs3, hR3⟩ := hT2.step .endInsert
    exact ⟨s3, L3, hs3, hR3.threads, hend hT2 hJ2 hR3⟩
  | false => exact ⟨s2, L2, rfl, hT2, hleave hT2 hJ2⟩

/-- Each event meets the condition in the state it happens in. -/
def MeetsAll (cfg : Config) (ok : State → Event → Prop) : State → List Event → Prop
  | _, [] => True
  | s, e :: events => ok s e ∧ ∀ s', e.step cfg s = some s' → MeetsAll cfg ok s' events

theorem Threads.runEvents_invariant {K : State → Event → Prop} (h : Threads cfg s L ∅)
    (hI : I s L)
    (htxn : ∀ {s L}, Threads cfg s L ∅ → I s L → ∀ t : Transaction, K s (.transaction t) →
      ∃ s' L', t.run cfg s = some s' ∧ Threads cfg s' L' ∅ ∧ I s' L')
    (hop : ∀ {s L op s' L'} (hout : op.outside = true), Threads cfg s L ∅ → I s L →
      K s (.other op hout) → Effect cfg op s L s' L' → I s' L') (events : List Event) (hok :
      MeetsAll cfg K s events) :
    ∃ s' L', runEvents cfg s events = some s' ∧ Threads cfg s' L' ∅ ∧ I s' L' := by
  induction events generalizing s L with
  | nil => exact ⟨s, L, rfl, h, hI⟩
  | cons e events ih =>
    obtain ⟨s1, L1, hs1, hT1, hI1⟩ : ∃ s1 L1, e.step cfg s = some s1 ∧ Threads cfg s1 L1 ∅ ∧
        I s1 L1 := by
      cases e with
      | transaction t => exact htxn h hI t hok.1
      | other op hout =>
        obtain ⟨s1, L1, hs1, heff⟩ := h.step op
        exact ⟨s1, L1, hs1, heff.threads, hop hout h hI hok.1 heff⟩
    obtain ⟨s', L', hs', hrest⟩ := ih hT1 hI1 (hok.2 s1 hs1)
    exact ⟨s', L', by simp [runEvents, foldlM_cons, hs1] at hs' ⊢; exact hs', hrest⟩

end Dnsmasq.Cache
