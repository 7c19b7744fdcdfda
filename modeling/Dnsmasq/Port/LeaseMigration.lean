import Dnsmasq.Port.LeaseLine

/-!
A lease file of the C server, read by the Rust port, written again and read by the C server: the
statement, and what is known of the names that come back however the fields are cut.
-/
namespace Dnsmasq.Port.LeaseStore

open List LeaseFile

/-- What a lease file may hold: leases of any hardware type, name and client-id. -/
structure LeaseSet where
  leases : List Lease
  duid : Option Bytes
  dhcpMax : ℕ
  expires : ∀ l ∈ leases, l.expires < 2 ^ 63
  hostname : ∀ l ∈ leases, ∀ name, l.hostname = some name → ∀ c ∈ name, isSpace c = false ∧ c ≠ 0
  hwaddr : ∀ l ∈ leases, l.addr.isV4 = true → l.hwaddr.length ≤ 16 ∧ l.hwType < 2 ^ 32
  room : leases.length ≤ dhcpMax
  hasDuid : ∀ l ∈ leases, l.addr.isV4 = false → duid.isSome = true
  duidNonempty : duid ≠ some []

namespace LeaseSet

variable (text : AddrText) (w : LeaseSet)

/-- The words that `lease_update_file` writes, with what follows each. -/
def fields : List (CString × UInt8) :=
  (w.leases.filter (·.addr.isV4)).flatMap (Lease.fields text) ++ match w.duid with
    | none => []
    | some duid =>
      [(duidWord, 32), (colonHex duid, 10)] ++ (w.leases.filter (!·.addr.isV4)).flatMap
        (Lease.fields text)

def file : Bytes := (w.fields text).flatMap fun x => x.1 ++ [x.2]

def inOrder : List Lease := w.leases.filter (·.addr.isV4) ++ w.leases.filter (!·.addr.isV4)

/-- The port accepts every line, and what it then writes gives the same leases. -/
def Survives {text : AddrText} (rust : RustText text) (opts : NameOptions) (w : LeaseSet) : Prop :=
  ∃ db, loadFromFile rust.fromStr (w.file text) = some db ∧ db.rejected = [] ∧
    ∃ clean r, readLeases text opts w.dhcpMax (formatEntries rust.display db.leases) =
      some (clean, r) ∧ r.leases.Perm w.leases

/-- The leases have what the format of the port and the reader of the C server can carry. -/
structure Portable (opts : NameOptions) (w : LeaseSet) : Prop where
  plain : ∀ l ∈ w.leases, l.Plain
  ether : ∀ l ∈ w.leases, l.addr.isV4 = true → l.hwaddr ≠ [] ∧ l.hwType = arphrdEther
  name : ∀ l ∈ w.leases, ∀ name, l.hostname = some name →
    name ≠ [star] ∧ name.length ≤ 255 ∧ isUtf8 name = true ∧ Unspaced name
  names : w.leases.Pairwise fun l l' => clash opts l l' = false

end LeaseSet

set_option maxRecDepth 20000 in
theorem isContinuation_of_ascii {c : UInt8} (h : c < 0x80) : isContinuation c = false := by
  have hall : ∀ n : Fin 256, UInt8.ofFin n < 0x80 → isContinuation (.ofFin n) = false := by decide
  exact hall c.toFin h

theorem isUtf8_cons_ascii {c : UInt8} (hc : c < 0x80) (s : Bytes) : isUtf8 (c :: s) = isUtf8 s := by
  rw [isUtf8.eq_def]
  dsimp only
  rw [if_pos hc]

theorem isUtf8_ascii_append {s : Bytes} (hs : ∀ c ∈ s, c < 0x80) (t : Bytes) :
    isUtf8 (s ++ t) = isUtf8 t := by
  induction s with
  | nil => rfl
  | cons c s ih =>
    obtain ⟨hc, hs⟩ := forall_mem_cons.mp hs
    rw [cons_append, isUtf8_cons_ascii hc, ih hs]

theorem isUtf8_concat_ascii (s : Bytes) {c : UInt8} (hc : c < 0x80) :
    isUtf8 (s ++ [c]) = isUtf8 s := by
  have hcont := isContinuation_of_ascii hc
  fun_induction isUtf8 s with
  | case1 => simp [isUtf8, hc]
  | case2 a rest ha ih => rw [cons_append, isUtf8_cons_ascii ha, ih]
  | case3 a ha h2 b rest ih => simp [isUtf8, ha, h2, ih]
  | case4 a rest ha h2 hrest =>
    rcases rest with _ | ⟨x, rest⟩
    · simp [isUtf8, ha, h2, hcont]
    · exact (hrest x rest rfl).elim
  | case5 a ha h2 h3 b c rest ih => simp [isUtf8, ha, h2, h3, ih]
  | case6 a rest ha h2 h3 hrest =>
    rcases rest with _ | ⟨x, _ | ⟨y, rest⟩⟩
    · simp [isUtf8, ha, h2, h3]
    · simp [isUtf8, ha, h2, h3, hcont]
    · exact (hrest x y rest rfl).elim
  | case7 a ha h2 h3 h4 b c d rest ih => simp [isUtf8, ha, h2, h3, h4, ih]
  | case8 a rest ha h2 h3 h4 hrest =>
    rcases rest with _ | ⟨x, _ | ⟨y, _ | ⟨z, rest⟩⟩⟩
    · simp [isUtf8, ha, h2, h3, h4]
    · simp [isUtf8, ha, h2, h3, h4]
    · simp [isUtf8, ha, h2, h3, h4, hcont]
    · exact (hrest x y z rest rfl).elim
  | case9 a rest ha h2 h3 h4 =>
    rw [cons_append, isUtf8.eq_def]
    dsimp only
    rw [if_neg ha, if_neg h2, if_neg h3, if_neg h4]

theorem isUtf8_append_ascii (s : Bytes) {t : Bytes} (ht : ∀ c ∈ t, c < 0x80) :
    isUtf8 (s ++ t) = isUtf8 s := by
  induction t using List.reverseRecOn with
  | nil => rw [append_nil]
  | append_singleton t c ih =>
    rw [← append_assoc, isUtf8_concat_ascii _ (ht c (by simp)), ih fun x hx => ht x (by simp [hx])]

def EntryNamed (e : LeaseEntry) : Prop := ∀ name, e.hostname = some name → name ≠ [] ∧ Unspaced name

variable {fromStr : Text → Option IpAddr} {e : LeaseEntry} {text : AddrText}

theorem entryNamed_of_parseFields {p0 p1 p2 p3 p4 : Text}
    (hp3 : p3 ≠ [] ∧ Unspaced p3) (h : parseFields fromStr p0 p1 p2 p3 p4 = .ok e) :
    EntryNamed e := by
  unfold parseFields at h
  split at h
  · cases h
  split at h
  · cases h
  generalize (if p4 = [star] then Except.ok none else (parseHexWithColons p4).map some) =
    clientId at h
  cases clientId with
  | error err => cases h
  | ok clientId =>
    rename_i expiry _ _ address _
    cases hsecond : parseSecond address p1 with
    | error err =>
      rw [hsecond] at h
      cases h
    | ok second =>
      rw [hsecond] at h
      cases h
      intro name hname
      split_ifs at hname
      cases hname
      exact hp3

theorem entryNamed_of_parseLeaseLine {line : Text}
    (h : parseLeaseLine fromStr line = .ok (.lease e)) : EntryNamed e := by
  unfold parseLeaseLine at h
  have hwords := fun x => @unspaced_of_mem_splitWhitespace line x
  generalize splitWhitespace line = parts at h hwords
  cases parts with
  | nil => cases h
  | cons p0 parts =>
    dsimp only at h
    split_ifs at h
    · cases parts with
      | nil => cases h
      | cons p1 parts =>
        dsimp only at h
        cases hhex : parseHexWithColons p1 with
        | error err =>
          rw [hhex] at h
          cases h
        | ok bytes =>
          rw [hhex] at h
          cases h
    split at h
    · next p1 p2 p3 p4 rest =>
      cases hfields : parseFields fromStr p0 p1 p2 p3 p4 with
      | error err =>
        rw [hfields] at h
        cases h
      | ok e' =>
        rw [hfields] at h
        cases h
        exact entryNamed_of_parseFields (hwords p3 (by simp)) hfields
    · cases h

theorem entryNamed_of_loadLines {lines : List Bytes} {db db' : Loaded}
    (hdb : ∀ e ∈ db.leases, EntryNamed e) (h : loadLines fromStr db lines = some db') :
    ∀ e ∈ db'.leases, EntryNamed e := by
  induction lines generalizing db with
  | nil =>
    cases h
    exact hdb
  | cons line lines ih =>
    have hline : ∀ e ∈ (db.line fromStr line).leases, EntryNamed e := by
      unfold Loaded.line
      split
      · next entry hparse =>
        intro e he
        rcases mem_append.mp he with he | he
        · exact hdb e he
        · rw [mem_singleton.mp he]
          exact entryNamed_of_parseLeaseLine hparse
      · exact hdb
      · exact hdb
    rw [loadLines] at h
    split_ifs at h
    split at h
    · exact ih hdb h
    refine ih ?_ h
    split_ifs
    · exact hdb
    · exact hline

/-- The words of a line that is written for an entry. -/
def entryFields (display : IpAddr → Text) (e : LeaseEntry) : List (Text × UInt8) :=
  formatWords display e ++ [(formatClientId e, 10)]

theorem formatEntries_eq (display : IpAddr → Text) (entries : List LeaseEntry) :
    formatEntries display entries = (entries.flatMap (entryFields display)).flatMap fun x =>
    x.1 ++ [x.2] := by
  induction entries with
  | nil => rfl
  | cons e entries ih =>
    unfold formatEntries at ih ⊢
    rw [flatMap_cons, ih]
    simp [formatLeaseLine, entryFields]

theorem isSpace_of_unspaced {s : Text} (h : Unspaced s) : ∀ c ∈ s, isSpace c = false := by
  induction s with
  | nil => exact forall_mem_nil _
  | cons c s ih =>
    obtain ⟨hc, hs⟩ := unspaced_cons.mp h
    refine forall_mem_cons.mpr ⟨?_, ih hs⟩
    by_contra hspace
    rw [Bool.not_eq_false] at hspace
    have hone : spaceLength (c :: s) = 1 := if_pos hspace
    omega

theorem unspaced_entryFields (rust : RustText text) (he : EntryNamed e)
    {x : Text × UInt8} (hx : x ∈ entryFields rust.display e) : Unspaced x.1 ∧
    isSpace x.2 = true := by
  have hstar : Unspaced [star] := unspaced_of_ascii fun c hc => by
    cases mem_singleton.mp hc
    decide
  simp only [entryFields, formatWords, cons_append, nil_append, mem_cons, not_mem_nil,
    or_false] at hx
  rcases hx with rfl | rfl | rfl | rfl | rfl
  · exact ⟨unspaced_of_ascii fun c hc => ascii_decimal hc, rfl⟩
  · refine ⟨?_, rfl⟩
    unfold formatSecond
    split
    · refine unspaced_of_ascii fun c hc => ?_
      rcases mem_append.mp hc with hc | hc
      · split_ifs at hc
        · cases mem_singleton.mp hc
          decide
        · cases hc
      split at hc
      · exact ascii_decimal hc
      · cases mem_singleton.mp hc
        decide
    · split_ifs
      · exact hstar
      · exact unspaced_of_ascii fun c hc => ascii_colonHex hc
  · exact ⟨unspaced_of_ascii fun c hc => ascii_addrText (rust.isAddrText _) hc, rfl⟩
  · refine ⟨?_, rfl⟩
    cases hname : e.hostname with
    | none => exact hstar
    | some name => exact (he name hname).2
  refine ⟨?_, rfl⟩
  unfold formatClientId
  split
  · exact unspaced_of_ascii fun c hc => ascii_colonHex hc
  · exact hstar

/-- Whatever the port has read, the names that come back have no white space of Unicode. -/
theorem named_of_formatEntries (rust : RustText text) {opts : NameOptions} {dhcpMax : ℕ}
    {entries : List LeaseEntry} (he : ∀ e ∈ entries, EntryNamed e) {clean : Bool} {r : Reader}
    (h : readLeases text opts dhcpMax (formatEntries rust.display entries) = some (clean, r)) :
    ∀ l ∈ r.leases, Lease.Named (fun name => name ≠ [] ∧ Unspaced name) l := by
  have hfields : ∀ x ∈ entries.flatMap (entryFields rust.display), Unspaced x.1 ∧
      isSpace x.2 = true := by
    intro x hx
    obtain ⟨e, hmem, hx⟩ := mem_flatMap.mp hx
    exact unspaced_entryFields rust (he e hmem) hx
  have hwords : ∀ v ∈ Lib.words isSpace (formatEntries rust.display entries), v ≠ [] ∧
      Unspaced v := by
    have heq :=
      Lib.words_flatMap_append (fun x hx => ⟨isSpace_of_unspaced (hfields x hx).1,
        (hfields x hx).2⟩) []
    rw [append_nil, Lib.words_nil, append_nil, ← formatEntries_eq] at heq
    intro v hv
    refine ⟨Lib.ne_nil_of_mem_words hv, ?_⟩
    rw [heq] at hv
    obtain ⟨x, hx, rfl⟩ := mem_map.mp (mem_filter.mp hv).1
    exact (hfields x hx).1
  refine Reader.named_readLoop (fun v hv => hv.1) ?_ ?_ hwords (forall_mem_nil _) h
  · intro v n hn hv
    refine ⟨fun e => ?_, hv.2.take n⟩
    rcases take_eq_nil_iff.mp e with rfl | e
    · exact absurd hn (Nat.lt_irrefl 0)
    · exact hv.1 e
  intro v n hn hv
  refine ⟨fun e => ?_, hv.2.drop n⟩
  have hlen := drop_eq_nil_iff.mp e
  omega

end Dnsmasq.Port.LeaseStore
