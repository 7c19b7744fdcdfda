import Dnsmasq.Port.LeaseMigration

/-!
The lease file line by line: what the Rust port writes for the entries of leases, and what it makes
of a file that the C server has written.
-/
namespace Dnsmasq.Port.LeaseStore

open List LeaseFile

/-- Addresses as the port writes them and the C server reads them. -/
def RustText.asAddrText {text : AddrText} (rust : RustText text) : AddrText where
  ntop4 a := rust.display (.v4 a)
  pton4 := text.pton4
  ntop6 a := rust.display (.v6 a)
  pton6 := text.pton6
  text4 _ := rust.isAddrText _
  text6 _ := rust.isAddrText _
  pton4_ntop4 := rust.pton4_v4
  pton4_ntop6 := rust.pton4_v6
  pton6_ntop6 := rust.pton6_v6

theorem readLoop_asAddrText {text : AddrText} (rust : RustText text) (opts : NameOptions)
    (fuel : ℕ) (r : Reader)
    (file : List CString) : Reader.readLoop rust.asAddrText opts fuel r file =
    Reader.readLoop text opts fuel r file := by
  induction fuel generalizing r file with
  | zero => rfl
  | succ fuel ih =>
    unfold Reader.readLoop
    simp only [ih]
    rfl

/-- The lease as the port writes it: of Ethernet, if it is one of IPv4. -/
def written (l : Lease) : Lease :=
  match l.addr with
  | .v4 _ => { l with hwType := arphrdEther }
  | .v6 _ _ _ => { l with hwaddr := [], hwType := 0 }

section Written

variable {text : AddrText} (rust : RustText text) {l : Lease}

@[simp] theorem written_addr (l : Lease) : (written l).addr = l.addr := by
  unfold written
  split <;> rfl

@[simp] theorem written_clid (l : Lease) : (written l).clid = l.clid := by
  unfold written
  split <;> rfl

@[simp] theorem written_hostname (l : Lease) : (written l).hostname = l.hostname := by
  unfold written
  split <;> rfl

@[simp] theorem written_expires (l : Lease) : (written l).expires = l.expires := by
  unfold written
  split <;> rfl

theorem formatSecond_entryOf (h : l.addr.isV4 = true → l.hwaddr ≠ []) :
    formatSecond (entryOf l) = (written l).idText := by
  unfold formatSecond entryOf Lease.idText
  rw [written_addr]
  cases haddr : l.addr with
  | v4 a =>
    have hne := h (by rw [haddr]; rfl)
    simp [written, haddr, Lease.hwText, LeaseAddr.isV4, hne]
  | v6 type iaid a => cases type <;> rfl

theorem display_entryOf : rust.display
    (entryOf l).address = (written l).addrText rust.asAddrText := by
  unfold entryOf Lease.addrText
  rw [written_addr]
  cases l.addr <;> rfl

/-- The port writes the words that the C server would write for the lease of Ethernet. -/
theorem entryFields_entryOf (h : l.addr.isV4 = true → l.hwaddr ≠ []) :
    entryFields rust.display (entryOf l) = (written l).fields rust.asAddrText := by
  have hname : (entryOf l).hostname.getD [star] = (written l).nameText := by
    have hsame : (written l).nameText = l.nameText := by
      rw [Lease.nameText, written_hostname, Lease.nameText]
    rw [hsame]
    show (if l.nameText = [star] then none else some l.nameText).getD [star] = l.nameText
    split_ifs with hstar
    · exact hstar.symm
    · rfl
  have hclid : formatClientId (entryOf l) = (written l).clidText := by
    unfold formatClientId entryOf Lease.clidText
    by_cases hempty : l.clid = [] <;> simp [hempty]
  have hexpiry : (entryOf l).expiry = (written l).expires := (written_expires l).symm
  simp only [entryFields, formatWords, formatSecond_entryOf h, display_entryOf, hname, hclid,
    hexpiry, Lease.fields, cons_append, nil_append]

end Written

theorem stripCr_of_ne {s : Text} (h : 13 ∉ s) : stripCr s = s := by
  refine if_neg fun e => h ?_
  exact mem_of_getLast? e

theorem fileLines_flatMap {lines : List Bytes} (h : ∀ s ∈ lines, 10 ∉ s ∧ 13 ∉ s) :
    fileLines (lines.flatMap fun s => s ++ [10]) = lines := by
  have hsplit : (lines.flatMap fun s => s ++ [10]).splitOn 10 = lines ++ [[]] := by
    induction lines with
    | nil => rfl
    | cons s lines ih =>
      obtain ⟨hs, hlines⟩ := forall_mem_cons.mp h
      rw [flatMap_cons, append_assoc, singleton_append, splitOn_append_cons hs.1, ih hlines]
      rfl
  unfold fileLines
  rw [hsplit]
  dsimp only
  rw [getLast?_concat]
  simp only [if_true, dropLast_concat]
  exact (map_congr_left fun s hs => stripCr_of_ne (h s hs).2).trans (map_id' lines)

section Load

variable {text : AddrText} {rust : RustText text}

theorem isUtf8_of_loadLines {fromStr : Text → Option IpAddr} {lines : List Bytes} {db db' : Loaded}
    (h : loadLines fromStr db lines = some db') : ∀ s ∈ lines, isUtf8 s = true := by
  induction lines generalizing db with
  | nil => exact forall_mem_nil _
  | cons s lines ih =>
    rw [loadLines] at h
    split_ifs at h with hutf
    refine forall_mem_cons.mpr ⟨by simpa using hutf, ?_⟩
    split at h
    · exact ih h
    · exact ih h

theorem loadLines_cons {fromStr : Text → Option IpAddr} {db : Loaded} {s v : Text} {vs : List Text}
    (hutf : isUtf8 s = true) (hwords : splitWhitespace s = v :: vs) (hhash : v.head? ≠ some 35)
    (lines : List Bytes) : loadLines fromStr db (s :: lines) =
    loadLines fromStr (db.line fromStr s) lines := by
  rw [loadLines, if_neg (by simp [hutf]), hwords]
  dsimp only
  rw [if_neg hhash]

structure Legible (text : AddrText) (l : Lease) : Prop where
  expires : l.expires < 2 ^ 63
  utf8 : isUtf8 (line text l) = true
  unspaced : Unspaced l.nameText
  nonempty : l.nameText ≠ []

def accepted (l : Lease) : Bool := !(l.addr.isV4 && l.hwaddr.isEmpty)

theorem loadLines_leases {ls : List Lease} (h : ∀ l ∈ ls, Legible text l) (db : Loaded)
    (rest : List Bytes) : loadLines rust.fromStr db (ls.map (line text) ++ rest) =
    loadLines rust.fromStr { db with
        leases := db.leases ++ (ls.filter accepted).map entryOf
        rejected := db.rejected ++ (ls.filter (!accepted ·)).map fun l => (line text l,
          .invalidHexByte []) } rest := by
  induction ls generalizing db with
  | nil => simp
  | cons l ls ih =>
    obtain ⟨hl, hls⟩ := forall_mem_cons.mp h
    have hhash : (decimal l.expires).head? ≠ some 35 := fun e => by
      cases isDigit_of_mem_decimal (mem_of_mem_head? e)
    rw [map_cons, cons_append,
      loadLines_cons hl.utf8 (splitWhitespace_line text hl.unspaced hl.nonempty) hhash, ih hls]
    have hstep : db.line rust.fromStr (line text l) =
        if accepted l then { db with leases := db.leases ++ [entryOf l] }
        else { db with rejected := db.rejected ++ [(line text l, .invalidHexByte [])] } := by
      unfold Loaded.line accepted
      rw [parseLeaseLine_line rust hl.expires hl.unspaced hl.nonempty]
      by_cases hbad : l.addr.isV4 = true ∧ l.hwaddr = []
      · simp [hbad]
      rw [if_neg hbad]
      have hgood : (!(l.addr.isV4 && l.hwaddr.isEmpty)) = true := by
        simpa [imp_iff_not_or] using hbad
      rw [hgood]
      rfl
    rw [hstep]
    by_cases hacc : accepted l = true
    · simp [hacc]
    · simp [hacc]

def duidLine (duid : Bytes) : Text := duidWord ++ 32 :: colonHex duid

theorem loadLines_duid {duid : Bytes} (hne : duid ≠ []) (db : Loaded) (rest : List Bytes) :
    loadLines rust.fromStr db (duidLine duid :: rest) =
    loadLines rust.fromStr { db with duid := some duid } rest := by
  have hutf : isUtf8 (duidLine duid) = true := by
    refine isUtf8_of_ascii fun c hc => ?_
    rcases mem_append.mp hc with hc | hc
    · exact (ascii_duidWord c hc).1
    · rcases mem_cons.mp hc with rfl | hc
      · decide
      · exact (ascii_colonHex hc).1
  have hwords : splitWhitespace (duidLine duid) = [duidWord, colonHex duid] := by
    unfold splitWhitespace duidLine
    rw [splitLoop_word (unspaced_of_ascii ascii_duidWord) rfl,
      splitLoop_last (unspaced_of_ascii fun c hc => ascii_colonHex hc)]
    simp only [nil_append, flush_of_ne_nil (colonHex_ne_nil hne)]
    rfl
  rw [loadLines_cons hutf hwords (by decide)]
  unfold Loaded.line parseLeaseLine
  rw [hwords]
  dsimp only
  rw [parseHexWithColons_colonHex hne]
  rfl

theorem isUtf8_line (text : AddrText) (l : Lease) : isUtf8 (line text l) = isUtf8 l.nameText := by
  have hpre : ∀ c ∈ decimal l.expires ++ 32 :: (l.idText ++ 32 :: (l.addrText text ++ [32])),
      c < 0x80 := by
    intro c hc
    simp only [mem_append, mem_cons, not_mem_nil, or_false] at hc
    rcases hc with hc | rfl | hc | rfl | hc | rfl
    · exact (ascii_decimal hc).1
    · decide
    · exact (ascii_idText l hc).1
    · decide
    · exact (ascii_addrText (Lease.isAddrText_addrText text l) hc).1
    · decide
  have hpost : ∀ c ∈ 32 :: l.clidText, c < 0x80 := by
    refine forall_mem_cons.mpr ⟨by decide, fun c hc => (ascii_clidText l hc).1⟩
  have hline :
      line text l = (decimal l.expires ++ 32 :: (l.idText ++ 32 :: (l.addrText text ++ [32]))) ++
      (l.nameText ++ 32 :: l.clidText) := by
    simp [line]
  rw [hline, isUtf8_ascii_append hpre, isUtf8_append_ascii _ hpost]

end Load

namespace LeaseSet

variable {text : AddrText} {rust : RustText text} {opts : NameOptions} {w : LeaseSet}

def lines (text : AddrText) (w : LeaseSet) : List Bytes :=
  (w.leases.filter (·.addr.isV4)).map (line text) ++ match w.duid with
    | none => []
    | some duid => duidLine duid :: (w.leases.filter (!·.addr.isV4)).map (line text)

theorem file_eq (text : AddrText) (w : LeaseSet) :
    w.file text = (w.lines text).flatMap fun s => s ++ [10] := by
  have hlines : ∀ ls : List Lease,
      ((ls.flatMap (Lease.fields text)).flatMap fun x => x.1 ++ [x.2]) =
      (ls.map (line text)).flatMap fun s => s ++ [10] := by
    intro ls
    induction ls with
    | nil => rfl
    | cons l ls ih => rw [flatMap_cons, flatMap_append, ih, fields_eq_line, map_cons, flatMap_cons]
  unfold file fields lines
  rw [flatMap_append, flatMap_append, hlines]
  cases w.duid with
  | none => rfl
  | some duid =>
    rw [flatMap_append, hlines]
    simp [duidLine]

theorem perm_inOrder (w : LeaseSet) : w.inOrder.Perm w.leases := filter_append_perm _ _

theorem filter_v6_eq_nil (w : LeaseSet) (h : w.duid = none) : w.leases.filter (!·.addr.isV4) = [] :=
  filter_eq_nil_iff.mpr fun l hl h6 => by
    have hduid := w.hasDuid l hl (by simpa using h6)
    rw [h] at hduid
    cases hduid

theorem isSpace_nameText {l : Lease} (hl : l ∈ w.leases) : ∀ c ∈ l.nameText, isSpace c = false := by
  unfold Lease.nameText
  cases hname : l.hostname with
  | none => exact fun c hc => (ascii_star c hc).2
  | some name => exact fun c hc => (w.hostname l hl name hname c hc).1

theorem isSpace_line {l : Lease} (hl : l ∈ w.leases) {c : UInt8} (hc : c ∈ line text l)
    (hspace : isSpace c = true) : c = 32 := by
  simp only [line, mem_append, mem_cons] at hc
  rcases hc with hc | rfl | hc | rfl | hc | rfl | hc | rfl | hc
  · rw [(ascii_decimal hc).2] at hspace
    cases hspace
  · rfl
  · rw [(ascii_idText l hc).2] at hspace
    cases hspace
  · rfl
  · rw [(ascii_addrText (Lease.isAddrText_addrText text l) hc).2] at hspace
    cases hspace
  · rfl
  · rw [isSpace_nameText hl c hc] at hspace
    cases hspace
  · rfl
  · rw [(ascii_clidText l hc).2] at hspace
    cases hspace

theorem fileLines_file (text : AddrText) (w : LeaseSet) :
    fileLines (w.file text) = w.lines text := by
  have hline : ∀ l ∈ w.leases, 10 ∉ line text l ∧ 13 ∉ line text l := fun l hl =>
    ⟨fun h => absurd (isSpace_line hl h rfl) (by decide),
      fun h => absurd (isSpace_line hl h rfl) (by decide)⟩
  have hlines : ∀ p : Lease → Bool, ∀ s ∈ (w.leases.filter p).map (line text), 10 ∉ s ∧ 13 ∉ s := by
    intro p s hs
    obtain ⟨l, hl, rfl⟩ := mem_map.mp hs
    exact hline l (mem_filter.mp hl).1
  rw [file_eq, fileLines_flatMap]
  intro s hs
  rcases mem_append.mp hs with hs | hs
  · exact hlines _ s hs
  cases hduid : w.duid with
  | none =>
    rw [hduid] at hs
    cases hs
  | some duid =>
    rw [hduid] at hs
    rcases mem_cons.mp hs with rfl | hs
    · have hspace : ∀ c ∈ duidLine duid, c = 32 ∨ isSpace c = false := by
        intro c hc
        rcases mem_append.mp hc with hc | hc
        · exact .inr (ascii_duidWord c hc).2
        · exact (mem_cons.mp hc).imp_right fun hc => (ascii_colonHex hc).2
      exact ⟨fun h => absurd (hspace 10 h) (by decide), fun h => absurd (hspace 13 h) (by decide)⟩
    · exact hlines _ s hs

theorem loadFromFile_file (h : ∀ l ∈ w.leases, Legible text l) :
    loadFromFile rust.fromStr (w.file text) = some
      { leases := (w.inOrder.filter accepted).map entryOf
        duid := w.duid
        rejected := (w.inOrder.filter (!accepted ·)).map fun l => (line text l,
          .invalidHexByte []) } := by
  have hlegible : ∀ p : Lease → Bool, ∀ l ∈ w.leases.filter p, Legible text l :=
    fun p l hl => h l (mem_filter.mp hl).1
  unfold loadFromFile
  rw [fileLines_file, lines, loadLines_leases (hlegible _)]
  cases hduid : w.duid with
  | none =>
    unfold inOrder
    rw [w.filter_v6_eq_nil hduid, append_nil]
    rfl
  | some duid =>
    have hne : duid ≠ [] := fun e => w.duidNonempty (e ▸ hduid)
    rw [loadLines_duid hne, ← append_nil ((w.leases.filter (!·.addr.isV4)).map (line text)),
      loadLines_leases (hlegible _)]
    unfold inOrder
    rw [filter_append, filter_append, map_append, map_append]
    rfl

theorem entryNamed_entryOf {l : Lease} (h : Unspaced l.nameText) (hne : l.nameText ≠ []) :
    EntryNamed (entryOf l) := by
  intro name hname
  unfold entryOf at hname
  dsimp only at hname
  split_ifs at hname
  cases hname
  exact ⟨hne, h⟩

theorem readLeases_entries {ls : List Lease} (hnamed : ∀ l ∈ ls, EntryNamed (entryOf l))
    (hhw : ∀ l ∈ ls, l.addr.isV4 = true → l.hwaddr ≠ []) (hclear : ∀ l ∈ ls, (written l).Clear)
    {dhcpMax : ℕ} (hroom : ls.length ≤ dhcpMax) :
    ∃ left, readLeases text opts dhcpMax (formatEntries rust.display (ls.map entryOf)) =
      some (true, { leases := (ls.map written).foldl (leaseSetHostname opts) [],
                    leasesLeft := left }) := by
  have hfields : (ls.map entryOf).flatMap (entryFields rust.display) =
      (ls.map written).flatMap (Lease.fields rust.asAddrText) := by
    rw [flatMap_map, flatMap_map]
    exact flatMap_congr fun l hl => entryFields_entryOf rust (hhw l hl)
  have hlen : ls.length ≤ (formatEntries rust.display (ls.map entryOf)).length := by
    rw [formatEntries_eq, hfields]
    calc ls.length = (ls.map written).length := (length_map _).symm
      _ ≤ _ := length_le_flatMap (f := Lease.fields rust.asAddrText) (fun _ => cons_ne_nil _ _) _
      _ ≤ _ := length_le_flatMap (by simp) _
  have hspaces : ∀ x ∈ (ls.map entryOf).flatMap (entryFields rust.display),
      (∀ c ∈ x.1, isSpace c = false) ∧ isSpace x.2 = true := by
    intro x hx
    obtain ⟨e, he, hx⟩ := mem_flatMap.mp hx
    obtain ⟨l, hl, rfl⟩ := mem_map.mp he
    obtain ⟨hunspaced, hsep⟩ := unspaced_entryFields rust (hnamed l hl) hx
    exact ⟨isSpace_of_unspaced hunspaced, hsep⟩
  have hwords : Lib.words isSpace (formatEntries rust.display (ls.map entryOf)) =
      (ls.map written).flatMap fun l => (l.fields rust.asAddrText).map Prod.fst := by
    have heq := Lib.words_flatMap_append hspaces []
    rw [append_nil, Lib.words_nil, append_nil, ← formatEntries_eq, hfields, map_flatMap] at heq
    rw [heq, filter_eq_self]
    intro v hv
    obtain ⟨l', hl', hv⟩ := mem_flatMap.mp hv
    obtain ⟨l, hl, rfl⟩ := mem_map.mp hl'
    simpa using (hclear l hl).toPlain.words_ne_nil hv
  unfold readLeases
  rw [hwords, ← readLoop_asAddrText rust]
  generalize (formatEntries rust.display (ls.map entryOf)).length = fuel at hlen
  obtain ⟨k, rfl⟩ := Nat.exists_eq_add_of_le hlen
  have hclear' : ∀ l ∈ ls.map written, l.Clear := by
    intro l hl
    obtain ⟨l0, hl0, rfl⟩ := mem_map.mp hl
    exact hclear l0 hl0
  have hloop := @Reader.readLoop_lines rust.asAddrText opts (ls.map written) hclear' (k + 1)
    { leasesLeft := dhcpMax } (by simpa using hroom) []
  rw [append_nil, length_map] at hloop
  rw [show ls.length + k + 1 = k + 1 + ls.length by omega, hloop]
  exact ⟨_, rfl⟩

theorem clash_written (l l' : Lease) : clash opts (written l) (written l') = clash opts l l' := by
  simp [clash, sameName, nameKey, rivals]

theorem named_written (ls : List Lease) : named (ls.map written) = named ls := by
  simp [named, countP_map, Function.comp_def]

theorem clear_written {l : Lease} (hl : l ∈ w.leases) (hplain : l.Plain)
    (hname : ∀ name, l.hostname = some name → name ≠ [star] ∧ name.length ≤ 255) :
    (written l).Clear := by
  refine ⟨⟨?_, ?_, ?_⟩, ?_, ?_, ?_⟩
  · rw [written_clid]
    exact hplain.clid
  · rw [written_hostname]
    exact hplain.hostname
  · intro h6
    rw [written_addr] at h6
    unfold written
    split
    · next a haddr =>
      rw [haddr] at h6
      cases h6
    · exact ⟨rfl, rfl⟩
  · rw [written_expires]
    exact w.expires l hl
  · rw [written_hostname]
    exact hname
  intro h4
  rw [written_addr] at h4
  have hlen := (w.hwaddr l hl h4).1
  unfold written
  split
  · have htype : arphrdEther < 2 ^ 32 ∧ arphrdEther ≠ 0 := by decide
    exact ⟨hlen, htype.1, fun h => absurd h htype.2⟩
  · next type iaid a haddr =>
    rw [haddr] at h4
    cases h4

theorem nameText_unspaced {l : Lease} (h : ∀ name, l.hostname = some name → Unspaced name) :
    Unspaced l.nameText := by
  unfold Lease.nameText
  cases hname : l.hostname with
  | none => exact unspaced_of_ascii ascii_star
  | some name => exact h name hname

theorem mem_lines {l : Lease} (hl : l ∈ w.leases) : line text l ∈ w.lines text := by
  unfold lines
  cases h4 : l.addr.isV4 with
  | true => exact mem_append_left _ (mem_map_of_mem (mem_filter.mpr ⟨hl, h4⟩))
  | false =>
    obtain ⟨duid, hduid⟩ := Option.isSome_iff_exists.mp (w.hasDuid l hl h4)
    rw [hduid]
    refine mem_append_right _ (mem_cons_of_mem _ (mem_map_of_mem (mem_filter.mpr ⟨hl, ?_⟩)))
    rw [h4]
    rfl

theorem accepted_iff {l : Lease} : accepted l = true ↔ (l.addr.isV4 = true → l.hwaddr ≠ []) := by
  unfold accepted
  cases l.addr.isV4 <;> simp

theorem mem_inOrder {l : Lease} : l ∈ w.inOrder ↔ l ∈ w.leases := (perm_inOrder w).mem_iff

theorem readLeases_inOrder (hnames : ∀ l ∈ w.leases,
    Lease.Named (fun name => name ≠ [] ∧ Unspaced name) l) (hhw : ∀ l ∈ w.leases,
    l.addr.isV4 = true → l.hwaddr ≠ []) :
    ∃ left, readLeases text opts w.dhcpMax (formatEntries rust.display (w.inOrder.map entryOf)) =
      some (true, { leases := (w.inOrder.map written).foldl (leaseSetHostname opts) [],
                    leasesLeft := left }) := by
  apply readLeases_entries
  · intro l hl
    have hl := mem_inOrder.mp hl
    exact entryNamed_entryOf (nameText_unspaced fun name hname =>
      ((hnames l hl).name name hname).1.2) (Lease.nameText_ne_nil (hnames l hl).hostname)
  · exact fun l hl => hhw l (mem_inOrder.mp hl)
  · intro l hl
    have hl := mem_inOrder.mp hl
    exact clear_written hl (hnames l hl).toPlain fun name hname => ((hnames l hl).name name hname).2
  · exact (perm_inOrder w).length_eq.trans_le w.room

theorem of_perm_foldl
    (hperm : ((w.inOrder.map written).foldl (leaseSetHostname opts) []).Perm w.leases) :
    (∀ l ∈ w.leases, l.addr.isV4 = true → l.hwType = arphrdEther) ∧
      w.leases.Pairwise fun l l' => clash opts l l' = false := by
  -- All names have come back, so none was taken away.
  have hcount : named ((w.inOrder.map written).foldl (leaseSetHostname opts) []) =
      named (w.inOrder.map written) := by
    rw [named_written]
    exact (hperm.trans (perm_inOrder w).symm).countP_eq _
  have hpairs :=
    (@pairwise_of_named opts (w.inOrder.map written) []
      (by rw [hcount]; exact (Nat.zero_add _).le)).2
  constructor
  · intro l hl h4
    rw [foldl_of_pairwise (fun _ _ => forall_mem_nil _) hpairs, append_nil] at hperm
    obtain ⟨l0, -, rfl⟩ := mem_map.mp (mem_reverse.mp (hperm.mem_iff.mpr hl))
    rw [written_addr] at h4
    unfold written
    split
    · rfl
    · next haddr =>
      rw [haddr] at h4
      cases h4
  · rw [pairwise_map] at hpairs
    simp only [clash_written] at hpairs
    exact ((perm_inOrder w).pairwise_iff fun {l l'} h => clash_comm l l' ▸ h).mp hpairs

theorem Survives.portable (h : w.Survives rust opts) : w.Portable opts := by
  obtain ⟨db, hload, hrej, clean, r, hread, hperm⟩ := h
  have hentries := entryNamed_of_loadLines (forall_mem_nil _) hload
  have hnamed : ∀ l ∈ w.leases, Lease.Named (fun name => name ≠ [] ∧ Unspaced name) l := fun l hl =>
    named_of_formatEntries rust hentries hread l (hperm.mem_iff.mpr hl)
  have hutf : ∀ l ∈ w.leases, isUtf8 (line text l) = true := by
    have hall := isUtf8_of_loadLines hload
    rw [fileLines_file] at hall
    exact fun l hl => hall _ (mem_lines hl)
  have hlegible : ∀ l ∈ w.leases, Legible text l := fun l hl =>
    ⟨w.expires l hl, hutf l hl, nameText_unspaced fun name hname =>
      ((hnamed l hl).name name hname).1.2, Lease.nameText_ne_nil (hnamed l hl).hostname⟩
  rw [loadFromFile_file hlegible] at hload
  cases hload
  have hacc : ∀ l ∈ w.inOrder, accepted l = true := by
    intro l hl
    have hnone := filter_eq_nil_iff.mp (map_eq_nil_iff.mp hrej) l hl
    simpa using hnone
  have hhw : ∀ l ∈ w.leases, l.addr.isV4 = true → l.hwaddr ≠ [] := fun l hl =>
    accepted_iff.mp (hacc l (mem_inOrder.mpr hl))
  obtain ⟨left, hread'⟩ := @readLeases_inOrder text rust opts w hnamed hhw
  rw [filter_eq_self.mpr hacc, hread'] at hread
  cases hread
  obtain ⟨hether, hpairs⟩ := of_perm_foldl hperm
  refine ⟨fun l hl => (hnamed l hl).toPlain,
    fun l hl h4 => ⟨hhw l hl h4, hether l hl h4⟩, ?_, hpairs⟩
  intro l hl name hname
  obtain ⟨⟨-, hunspaced⟩, hstar, hlen⟩ := (hnamed l hl).name name hname
  have hutf := hutf l hl
  rw [isUtf8_line, Lease.nameText, hname] at hutf
  exact ⟨hstar, hlen, hutf, hunspaced⟩

theorem Portable.survives (rust : RustText text) (h : w.Portable opts) : w.Survives rust opts := by
  have hnamed : ∀ l ∈ w.leases, Lease.Named (fun name => name ≠ [] ∧ Unspaced name) l := by
    intro l hl
    refine ⟨h.plain l hl, fun name hname => ?_⟩
    obtain ⟨hstar, hlen, -, hunspaced⟩ := h.name l hl name hname
    exact ⟨⟨fun e => (h.plain l hl).hostname (e ▸ hname), hunspaced⟩, hstar, hlen⟩
  have hlegible : ∀ l ∈ w.leases, Legible text l := by
    intro l hl
    refine ⟨w.expires l hl, ?_, nameText_unspaced fun name hname => (h.name l hl name hname).2.2.2,
      Lease.nameText_ne_nil (h.plain l hl).hostname⟩
    rw [isUtf8_line, Lease.nameText]
    cases hname : l.hostname with
    | none => rfl
    | some name => exact (h.name l hl name hname).2.2.1
  have hacc : ∀ l ∈ w.inOrder, accepted l = true := fun l hl =>
    accepted_iff.mpr fun h4 => (h.ether l (mem_inOrder.mp hl) h4).1
  refine ⟨_, loadFromFile_file hlegible, ?_, ?_⟩
  · rw [map_eq_nil_iff, filter_eq_nil_iff]
    intro l hl
    rw [hacc l hl]
    decide
  obtain ⟨left, hread⟩ := @readLeases_inOrder text rust opts w hnamed fun l hl h4 =>
    (h.ether l hl h4).1
  rw [filter_eq_self.mpr hacc]
  refine ⟨true, _, hread, ?_⟩
  have hsame : w.inOrder.map written = w.inOrder := by
    refine (map_congr_left fun l hl => ?_).trans (map_id' _)
    have hl := mem_inOrder.mp hl
    unfold written
    split
    · next a haddr =>
      have hether := (h.ether l hl (by rw [haddr]; rfl)).2
      rw [← hether]
    · next type iaid a haddr =>
      obtain ⟨hnone, htype⟩ := (h.plain l hl).hwaddr (by rw [haddr]; rfl)
      rw [← hnone, ← htype]
  have hpairs := ((perm_inOrder w).pairwise_iff fun {l l'} h => clash_comm l l' ▸ h).mpr h.names
  rw [hsame]
  rw [foldl_of_pairwise (fun _ _ => forall_mem_nil _) hpairs, append_nil]
  exact (reverse_perm _).trans (perm_inOrder w)

/-- Every lease comes back as it was if and only if it has what the port and the reader keep. -/
theorem survives_iff_portable (rust : RustText text) (opts : NameOptions) (w : LeaseSet) :
    w.Survives rust opts ↔ w.Portable opts := ⟨Survives.portable, Portable.survives rust⟩

end LeaseSet

/-- The same texts in the port. -/
def sampleRust : RustText sampleText where
  fromStr s := ((sampleText.pton4 s).map .v4).or ((sampleText.pton6 s).map .v6)
  display
    | .v4 a => sampleText.ntop4 a
    | .v6 a => sampleText.ntop6 a
  fromStr_ntop4 a := by rw [sampleText.pton4_ntop4]; rfl
  fromStr_ntop6 a := by rw [sampleText.pton4_ntop6, sampleText.pton6_ntop6]; rfl
  isAddrText a := by
    cases a with
    | v4 a => exact sampleText.text4 a
    | v6 a => exact sampleText.text6 a
  pton4_v4 := sampleText.pton4_ntop4
  pton4_v6 := sampleText.pton4_ntop6
  pton6_v6 := sampleText.pton6_ntop6

def oneLease (hwType : UInt8) (hwaddr : Bytes) : Lease where
  addr := .v4 sampleAddr4
  hwaddr := hwaddr
  hwType := hwType.toNat
  expires := 3600

def oneLeaseSet (hwType : UInt8) (hwaddr : Bytes) (h : hwaddr.length ≤ 16) : LeaseSet where
  leases := [oneLease hwType hwaddr]
  duid := none
  dhcpMax := 1000
  expires l hl := by
    cases mem_singleton.mp hl
    show 3600 < 2 ^ 63
    norm_num
  hostname l hl name hname := by
    cases mem_singleton.mp hl
    cases hname
  hwaddr l hl _ := by
    cases mem_singleton.mp hl
    exact ⟨h, hwType.toNat_lt.trans (by norm_num)⟩
  room := by norm_num
  hasDuid l hl h6 := by
    cases mem_singleton.mp hl
    cases h6
  duidNonempty := nofun

/-- A lease of Token Ring comes back as one of Ethernet, and the line of a lease without a hardware
address is refused. -/
theorem oneLease_lost :
    (((loadFromFile sampleRust.fromStr
      ((oneLeaseSet 6 [2, 0, 0, 0, 0, 1] (by decide)).file sampleText)).bind fun db =>
      (readLeases sampleText {} 1000 (formatEntries sampleRust.display db.leases)).map fun x =>
        (db.rejected, x.2.leases)) = some ([], [oneLease 1 [2, 0, 0, 0, 0, 1]])) ∧
    ¬ (oneLeaseSet 6 [2, 0, 0, 0, 0, 1] (by decide)).Survives sampleRust {} ∧
    (loadFromFile sampleRust.fromStr ((oneLeaseSet 1 [] (by decide)).file sampleText)).map
      (fun db =>
      (db.leases, db.rejected.map Prod.snd)) = some ([], [.invalidHexByte []]) ∧
    ¬ (oneLeaseSet 1 [] (by decide)).Survives sampleRust {} := by
  refine ⟨by decide +kernel, fun h => ?_, by decide +kernel, fun h => ?_⟩
  · exact absurd (h.portable.ether _ (mem_singleton_self _) rfl).2 (by decide)
  · exact absurd rfl (h.portable.ether _ (mem_singleton_self _) rfl).1

end Dnsmasq.Port.LeaseStore
