import Dnsmasq.Dns.Compare
import Dnsmasq.Dnssec.Nsec3

/-!
The iterator `get_rdata` over the canonical form of the records that `explore_rrset` collects. Names
are read with escapes.
-/
namespace Dnsmasq.Dnssec

open List Option Dns Function

/-- The number of plain bytes before the next name, 0 for a name; this value ends a descriptor. -/
def descEnd : ℕ := 65535

def rrDesc : List (ℕ × List ℕ) :=
  [(2, [0, descEnd]), (3, [0, descEnd]), (4, [0, descEnd]), (5, [0, descEnd]), (6, [0, 0, descEnd]),
    (7, [0, descEnd]), (8, [0, descEnd]), (9, [0, descEnd]), (12, [0, descEnd]),
    (14, [0, 0, descEnd]), (15, [2, 0, descEnd]), (17, [0, 0, descEnd]), (18, [2, 0, descEnd]),
    (21, [2, 0, descEnd]), (24, [18, 0, descEnd]), (26, [2, 0, 0, descEnd]), (30, [0, descEnd]),
    (36, [2, 0, descEnd]), (33, [6, 0, descEnd]), (39, [0, descEnd])]

def rrfilterDesc (type : ℕ) : List ℕ :=
  match rrDesc.find? fun entry => entry.1 == type with
  | some entry => entry.2
  | none => [descEnd]

/-- A label of the text, in lower case and without escapes, and what is left behind it. -/
def toWireLabel : CString → Label × CString
  | [] => ([], [])
  | c :: s =>
    if c = dot then ([], c :: s)
    else if c = nameEscape then
      match s with
      -- the terminator moves to the place of the escape and is decremented
      | [] => ([255], [])
      | e :: s => ((e - 1) :: (toWireLabel s).1, (toWireLabel s).2)
    else (lower c :: (toWireLabel s).1, (toWireLabel s).2)

def toWireLoop : ℕ → CString → List UInt8
  | _, [] => []
  | 0, _ :: _ => []
  | fuel + 1, c :: s =>
    let r := toWireLabel (c :: s)
    UInt8.ofNat r.1.length :: r.1 ++ toWireLoop fuel (r.2.drop 1)

/-- The buffer after `to_wire`, as long as its return value says. -/
def toWire (name : CString) : List UInt8 := toWireLoop name.length name ++ [0]

/-- A byte of the message or of the scratch buffer. -/
inductive Place
  | packet (p : ℕ)
  | buff (i : ℕ)
  deriving DecidableEq, Repr

def Place.next : Place → Place
  | packet p => packet (p + 1)
  | buff i => buff (i + 1)

structure RdataState where
  desc : List ℕ
  c : ℕ
  endp : ℕ
  ip : ℕ
  op : Option Place
  buff : List UInt8
  deriving DecidableEq, Repr

/-- A difference of pointers, stored as `size_t`. -/
def sizeT (x : ℤ) : ℕ := (x % 2 ^ 64).toNat

def nextField (pkt : Packet) : List ℕ → RdataState → Option RdataState
  | [], _ => none
  | d :: desc, s =>
    if d = descEnd then
      let c := sizeT (s.endp - s.ip)
      if c ≠ 0 then some { s with desc := d :: desc, c := c, op := some (.packet s.ip),
                                  ip := s.endp }
      else none
    else if d = 0 then
      match pkt.extractText true s.ip 0 with
      | none => nextField pkt desc s
      | some (name, ip) =>
        let len := (toWire name).length
        if len = 0 then nextField pkt desc { s with ip := ip }
        else some { s with desc := desc, c := len, op := some (.buff 0), ip := ip,
                           buff := toWire name }
    else
      let d : ℤ := if (s.endp - s.ip : ℤ) < d then s.endp - s.ip else d
      if d = 0 then nextField pkt desc s
      else some { s with desc := desc, c := sizeT d, op := some (.packet s.ip),
                         ip := (s.ip + d).toNat }

variable (pkt : Packet)

/-- The next byte, or `none` for a return of 0. -/
def getRdata (s : RdataState) : Option RdataState :=
  match s.op with
  | some op =>
    if s.c ≠ 1 then some { s with op := some op.next, c := sizeT (s.c - 1) }
    else nextField pkt s.desc s
  | none => nextField pkt s.desc s

/-- What `*state->op` is. -/
def RdataState.read (s : RdataState) : Place → UInt8
  | .packet p => pkt.mem p
  | .buff i => s.buff.getD i 0

/-- The bytes until `get_rdata` returns 0, each with its place; `none` if that takes longer. -/
def iterate (pkt : Packet) : ℕ → RdataState → Option (List (Place × UInt8))
  | 0, _ => none
  | fuel + 1, s =>
    match getRdata pkt s with
    | none => some []
    | some s' =>
      (iterate pkt fuel s').map fun ys => (s'.op.map fun op => (op, s'.read pkt op)).toList ++ ys

structure Explored where
  rrset : List ℕ
  sigs : List ℕ
  keyname : Option CString
  deriving DecidableEq, Repr

def memOf (s : CString) : ℕ → UInt8 := fun i => s.getD i 0

def skipQuestions (pkt : Packet) : ℕ → ℕ → Option ℕ
  | 0, ansp => some ansp
  | q + 1, ansp => (Nsec3.skipName pkt ansp 4).bind fun ansp => skipQuestions pkt q (ansp + 4)

def chopped : CString → List CString
  | [] => []
  | c :: s => if c = dot then s :: chopped s else chopped s

/-- The table of `expand_workspace` never gets longer. -/
def maxRecords : ℕ := 100

def exploreSig (type : ℕ) (name : CString) (pdata rdlen : ℕ) (e : Explored) : Option Explored :=
  let p := pdata + 6
  if rdlen < 18 then none
  else
    let e' : Option Explored :=
      match e.keyname with
      | some keyname =>
        match pkt.compareName true (memOf keyname) (p + 18) 0 with
        | some (true, _) => some e
        | _ => none
      | none =>
        match pkt.extractText true (p + 18) 0 with
        | none => none
        | some (keyname, _) =>
          if keyname ≠ [] ∧ !(name :: chopped name).any (hostnameIsequal · keyname) then none
          else some { e with keyname := some keyname }
    e'.bind fun e =>
      if pkt.getShort p = type then
        if maxRecords ≤ e.sigs.length then none else some { e with sigs := e.sigs ++ [pdata] }
      else some e

def exploreRecord (type : ℕ) (name : CString) (pstart pdata stype rdlen : ℕ) (e : Explored) :
    Option Explored :=
  let e' : Option Explored :=
    if stype = type then
      if maxRecords ≤ e.rrset.length then none else some { e with rrset := e.rrset ++ [pstart] }
    else some e
  e'.bind fun e => if stype = 46 then exploreSig pkt type name pdata rdlen e else some e

def exploreLoop (pkt : Packet) (cls type : ℕ) (name : CString) : ℕ → ℕ → Explored → Option Explored
  | 0, _, e => some e
  | j + 1, p, e =>
    match pkt.compareName true (memOf name) p 10 with
    | none => none
    | some (matched, q) =>
      let rdlen := pkt.getShort (q + 8)
      if !pkt.checkLen (q + 10) rdlen then none
      else
        (if matched && pkt.getShort (q + 2) == cls then
          exploreRecord pkt type name p (q + 4) (pkt.getShort q) rdlen e
        else some e).bind fun e => exploreLoop pkt cls type name j (q + 10 + rdlen) e

/-- `explore_rrset`: the positions of the records and of the signatures. -/
def exploreRrset (cls type : ℕ) (name : CString) : Option Explored :=
  (skipQuestions pkt (pkt.getShort 4) 12).bind fun p =>
    exploreLoop pkt cls type name (pkt.getShort 6 + pkt.getShort 8) p ⟨[], [], none⟩

/-- The state with which `validate_rrset` starts on a record. -/
def recordState (type p : ℕ) : Option RdataState :=
  (pkt.extractText true p 10).bind fun r =>
    let rdlen := pkt.getShort (r.2 + 8)
    if !pkt.checkLen (r.2 + 10) rdlen then none
    else some { desc := rrfilterDesc type, c := 0, endp := r.2 + 10 + rdlen, ip := r.2 + 10,
                op := none, buff := [] }

/-- The canonical form: plain fields clipped to the data, names in lower case and uncompressed,
then the bytes up to the end. -/
def canonicalRdata (pkt : Packet) (endp : ℕ) : List ℕ → ℕ → List UInt8
  | [], _ => []
  | d :: desc, ip =>
    if d = descEnd then pkt.bytes ip (endp - ip)
    else if d = 0 then
      match pkt.extractName ip 0 with
      | none => canonicalRdata pkt endp desc ip
      | some (n, stop) => wire (n.map foldCase) ++ [0] ++ canonicalRdata pkt endp desc stop
    else pkt.bytes ip (min d (endp - ip)) ++ canonicalRdata pkt endp desc (ip + min d (endp - ip))

/-- The iteration ends, with the canonical form, and takes no byte from outside the data. -/
def Exact (s : RdataState) : Prop :=
  ∃ fuel ys, iterate pkt fuel s = some ys ∧
    ys.map Prod.snd = canonicalRdata pkt s.endp s.desc s.ip ∧
    ∀ p c, (Place.packet p, c) ∈ ys → s.ip ≤ p ∧ p < s.endp

/-- No name that the descriptor leads to ends behind the data. -/
def NamesInside (pkt : Packet) (endp : ℕ) : List ℕ → ℕ → Prop
  | [], _ => True
  | d :: desc, ip =>
    if d = descEnd then True
    else if d = 0 then
      match pkt.extractName ip 0 with
      | none => NamesInside pkt endp desc ip
      | some (_, stop) => stop ≤ endp ∧ NamesInside pkt endp desc stop
    else NamesInside pkt endp desc (ip + min d (endp - ip))

theorem toWireLabel_encode (l : Label) {rest : CString} (hrest : ∀ c ∈ rest.head?, c = dot) :
    toWireLabel (encode true l ++ rest) = (foldCase l, rest) := by
  induction l with
  | nil =>
    cases rest with
    | nil => rfl
    | cons c rest =>
      show toWireLabel (c :: rest) = _
      rw [toWireLabel.eq_def]
      dsimp only
      rw [if_pos (hrest c rfl)]
      rfl
  | cons c l ih =>
    rw [encode_cons, if_pos rfl, escapeByte, append_assoc]
    split_ifs with hesc
    · have hlower : lower c = c := by rcases hesc with rfl | rfl | rfl <;> rfl
      rw [cons_append, singleton_append, toWireLabel, if_neg (by decide)]
      simp [ih, foldCase, hlower]
    push Not at hesc
    rw [singleton_append, toWireLabel.eq_def]
    dsimp only
    rw [if_neg hesc.2.1, if_neg hesc.2.2, ih]
    rfl

variable {n : Name} {fuel k q ip : ℕ} {s : RdataState} {o : Place} {c : UInt8}

theorem toWireLoop_dotted (hn : WellFormed n) (hfuel : n.length ≤ fuel) :
    toWireLoop fuel (dotted true n).dropLast = wire (n.map foldCase) := by
  induction n generalizing fuel with
  | nil => cases fuel <;> rfl
  | cons l n ih =>
    obtain ⟨hl, hn⟩ := forall_mem_cons.mp hn
    cases fuel with
    | zero => simp at hfuel
    | succ fuel =>
      have hlabel := @toWireLabel_encode l (if n = [] then [] else dot :: (dotted true n).dropLast)
        (by split <;> simp)
      rw [dropLast_dotted_cons]
      obtain ⟨c, s, hcs⟩ := exists_cons_of_ne_nil (@encode_ne_nil true l hl)
      rw [hcs, cons_append] at hlabel ⊢
      rw [toWireLoop, hlabel, map_cons, wire_cons]
      rw [← ih hn (Nat.le_of_succ_le_succ hfuel)]
      split_ifs with hnil
      · rw [hnil]
        rfl
      · rfl

def Place.add : Place → ℕ → Place
  | packet p, i => packet (p + i)
  | buff j, i => buff (j + i)

@[simp] theorem Place.add_zero (o : Place) : o.add 0 = o := by cases o <;> rfl

theorem Place.next_add (o : Place) (i : ℕ) : o.next.add i = o.add (i + 1) := by
  cases o <;> simp [next, add, Nat.add_comm i 1, Nat.add_assoc]

def fieldBytes (pkt : Packet) (s : RdataState) (o : Place) (k : ℕ) : List (Place × UInt8) :=
  (List.range k).map fun i => (o.add i, s.read pkt (o.add i))

variable {pkt : Packet}

theorem sizeT_natCast (hk : k < 2 ^ 64) : sizeT k = k := by
  unfold sizeT
  omega

def Fresh (s : RdataState) : Prop := s.op = none ∨ s.c = 1

theorem getRdata_fresh {s : RdataState} (h : Fresh s) :
    getRdata pkt s = nextField pkt s.desc s := by
  unfold getRdata
  rcases h with h | h
  · rw [h]
  · split
    · rw [if_neg (by simpa using h)]
    · rfl

theorem iterate_congr {s' : RdataState} (h : getRdata pkt s = getRdata pkt s') (fuel : ℕ) :
    iterate pkt fuel s = iterate pkt fuel s' := by
  cases fuel with
  | zero => rfl
  | succ fuel => rw [iterate, iterate, h]

theorem iterate_mono {fuel m : ℕ} {s : RdataState} {ys : List (Place × UInt8)}
    (h : iterate pkt fuel s = some ys) : iterate pkt (fuel + m) s = some ys := by
  induction fuel generalizing s ys with
  | zero => cases h
  | succ fuel ih =>
    rw [Nat.succ_add, iterate]
    rw [iterate] at h
    split at h
    · exact h
    · obtain ⟨ys', hys, rfl⟩ := Option.map_eq_some_iff.mp h
      rw [ih hys]
      rfl

theorem iterate_rest (hop : s.op = some o) (hc : s.c = k + 1) (hk : k < 2 ^ 64) :
    iterate pkt (fuel + k) s =
      (iterate pkt fuel { s with op := some (o.add k), c := 1 }).map
      (fieldBytes pkt s o.next k ++ ·) := by
  induction k generalizing s o with
  | zero =>
    have hs : { s with op := some (o.add 0), c := 1 } = s := by
      cases s
      simp_all
    rw [hs]
    simp [fieldBytes]
  | succ k ih =>
    have hstep : getRdata pkt s = some { s with op := some o.next, c := k + 1 } := by
      unfold getRdata
      rw [hop]
      dsimp only
      rw [if_pos (by omega), hc]
      have hsub : sizeT (((k + 1 + 1 : ℕ) : ℤ) - 1) = k + 1 := by
        unfold sizeT
        omega
      rw [hsub]
    rw [← Nat.add_assoc, iterate, hstep]
    dsimp only
    rw [ih rfl rfl (by omega), Option.map_map, Place.next_add]
    congr 1
    funext ys
    have hone : o.add 1 = o.next := by cases o <;> rfl
    simp [hone, fieldBytes, range_succ_eq_map, comp_def, Place.next_add, RdataState.read]

/-- A field of `k + 1` octets from `o` on is next. -/
structure Begins (pkt : Packet) (s t : RdataState) (o : Place) (k : ℕ) : Prop where
  fresh : Fresh s
  next : nextField pkt s.desc s = some t
  op : t.op = some o
  c : t.c = k + 1
  lt : k < 2 ^ 64

theorem iterate_field {t : RdataState} (h : Begins pkt s t o k) : iterate pkt (fuel + (k + 1)) s =
      (iterate pkt fuel { t with op := some (o.add k), c := 1 }).map
      (fieldBytes pkt t o (k + 1) ++ ·) := by
  rw [← Nat.add_assoc, iterate, getRdata_fresh h.fresh, h.next]
  dsimp only
  rw [iterate_rest h.op h.c h.lt, h.op]
  simp [fieldBytes, range_succ_eq_map, comp_def, Place.next_add]

theorem fieldBytes_packet (s : RdataState) (p k : ℕ) :
    (fieldBytes pkt s (.packet p) k).map Prod.snd = pkt.bytes p k := by
  simp [fieldBytes, Packet.bytes, comp_def, RdataState.read, Place.add]

theorem fieldBytes_buff (s : RdataState) :
    (fieldBytes pkt s (.buff 0) s.buff.length).map Prod.snd = s.buff := by
  apply ext_getElem
  · simp [fieldBytes]
  · intro i h1 h2
    simp [fieldBytes, RdataState.read, Place.add, getElem?_eq_getElem h2]

theorem mem_fieldBytes_packet {p : ℕ} :
    (Place.packet q, c) ∈ fieldBytes pkt s (.packet p) k → p ≤ q ∧ q < p + k := by
  simp only [fieldBytes, List.mem_map, mem_range, Prod.mk.injEq, Place.add, Place.packet.injEq]
  omega

theorem extractText_of_extractName (h : pkt.extractName ip 0 = some (n, q)) :
    pkt.extractText true ip 0 = some ((dotted true n).dropLast, q) ∧ Storable true n ∧ ip < q ∧
    q ≤ pkt.plen := by
  have htext : ∀ l ∈ n, HasText true l := fun l _ hfalse => by cases hfalse
  obtain ⟨⟨k, -, hat⟩, -, hroom⟩ := Packet.extractName_eq_some_iff.mp h
  refine ⟨Packet.extractText_eq_some_iff.mpr ⟨n, h, htext, rfl⟩, ?_,
    ?_, by simpa [Packet.checkLen] using hroom⟩
  · exact ⟨fun l hl => (hat.labels l hl).1, fun l hl => (hat.labels l hl).2, htext⟩
  clear h hroom htext
  induction hat with
  | root => omega
  | label hin hpos hlen hbytes h ih => omega
  | pointer hin hlen h ih => omega

theorem extractText_eq_none (h : pkt.extractName ip 0 = none) :
    pkt.extractText true ip 0 = none := by
  rw [Option.eq_none_iff_forall_ne_some]
  rintro ⟨t, q⟩ ht
  obtain ⟨n, hn, -⟩ := Packet.extractText_eq_some_iff.mp ht
  rw [h] at hn
  cases hn

theorem length_wire_foldCase (n : Name) : (wire (n.map foldCase)).length = (wire n).length := by
  induction n with
  | nil => rfl
  | cons l n ih => simp [ih, foldCase]

section NextField

variable {s : RdataState} {d : ℕ} {desc : List ℕ}

theorem nextField_desc (desc' : List ℕ) :
    nextField pkt desc { s with desc := desc' } = nextField pkt desc s := by
  induction desc generalizing s with
  | nil => rfl
  | cons d desc ih =>
    rw [nextField, nextField]
    dsimp only
    split_ifs
    · rfl
    · rfl
    · cases pkt.extractText true s.ip 0 with
      | none => exact ih
      | some r =>
        dsimp only
        split_ifs
        · exact @ih { s with ip := r.2 }
        · rfl
    all_goals first | exact ih | rfl

theorem nextField_name_none (h : pkt.extractName s.ip 0 = none) :
    nextField pkt (0 :: desc) s = nextField pkt desc s := by
  rw [nextField, if_neg (by decide), if_pos rfl, extractText_eq_none h]

theorem nextField_name {n : Name} {q : ℕ} (h : pkt.extractName s.ip 0 = some (n, q)) :
    nextField pkt (0 :: desc) s =
      some { s with desc := desc, c := (wire n).length + 1, op := some (.buff 0), ip := q,
                    buff := wire (n.map foldCase) ++ [0] } := by
  obtain ⟨htext, hstore, -, -⟩ := extractText_of_extractName h
  rw [nextField, if_neg (by decide), if_pos rfl, htext]
  dsimp only
  rw [toWire, toWireLoop_dotted hstore.nonempty (length_dotted hstore), length_append,
    length_wire_foldCase, length_singleton, if_neg (by omega)]

theorem nextField_plain_empty (hd : d ≠ descEnd) (hpos : d ≠ 0) (h : s.ip = s.endp) :
    nextField pkt (d :: desc) s = nextField pkt desc s := by
  rw [nextField, if_neg hd, if_neg hpos]
  rw [if_pos]
  split_ifs <;> omega

theorem nextField_plain (hd : d ≠ descEnd) (hpos : d ≠ 0) (h : s.ip < s.endp)
    (hend : s.endp < 2 ^ 64) : nextField pkt (d :: desc) s = some { s with
        desc := desc, c := min d (s.endp - s.ip), op := some (.packet s.ip), ip :=
          s.ip + min d (s.endp - s.ip) } := by
  have hclip : (if (s.endp - s.ip : ℤ) < d then (s.endp - s.ip : ℤ) else d) =
      (min d (s.endp - s.ip) : ℕ) := by
    split_ifs <;> omega
  rw [nextField, if_neg hd, if_neg hpos]
  rw [hclip, if_neg (by omega), sizeT_natCast (by omega)]
  rfl

theorem nextField_end (h : s.ip < s.endp) (hend : s.endp < 2 ^ 64) :
    nextField pkt (descEnd :: desc) s =
      some { s with desc := descEnd :: desc, c := s.endp - s.ip, op := some (.packet s.ip),
                    ip := s.endp } := by
  have hsub : sizeT (s.endp - s.ip) = s.endp - s.ip := by
    unfold sizeT
    omega
  rw [nextField, if_pos rfl, hsub, if_pos (by omega)]

/-- Behind the end of the data the next field that is no name begins where the iterator is. -/
theorem nextField_outside (hpos : d ≠ 0) (h : s.endp < s.ip) (hip : s.ip < 2 ^ 64) :
    ∃ t, nextField pkt (d :: desc) s = some t ∧ t.op = some (.packet s.ip) := by
  rw [nextField]
  by_cases hd : d = descEnd
  · have hsub : sizeT (s.endp - s.ip) ≠ 0 := by
      unfold sizeT
      omega
    rw [if_pos hd]
    exact ⟨_, if_pos hsub, rfl⟩
  rw [if_neg hd, if_neg hpos]
  rw [if_neg (by omega)]
  exact ⟨_, rfl, rfl⟩

end NextField

theorem iterate_skip {s : RdataState} {d : ℕ} {desc : List ℕ} (hs : Fresh s)
    (hd : s.desc = d :: desc) (h : nextField pkt (d :: desc) s = nextField pkt desc s) (fuel : ℕ) :
    iterate pkt fuel s = iterate pkt fuel { s with desc := desc } := by
  apply iterate_congr
  rw [getRdata_fresh hs, hd, h, @getRdata_fresh pkt { s with desc := desc } hs]
  exact (nextField_desc desc).symm

theorem iterate_append {s t : RdataState} {o : Place} {k fuel : ℕ} {ys : List (Place × UInt8)}
    (hbegins : Begins pkt s t o k)
    (h : iterate pkt fuel { t with op := some (o.add k), c := 1 } = some ys) :
    iterate pkt (fuel + (k + 1)) s = some (fieldBytes pkt t o (k + 1) ++ ys) := by
  rw [iterate_field hbegins, h]
  rfl

theorem iterate_end {s : RdataState} {desc : List ℕ} (hs : Fresh s) (hd : s.desc = descEnd :: desc)
    (h : s.ip = s.endp) : iterate pkt 1 s = some [] := by
  rw [iterate, getRdata_fresh hs, hd, nextField, h]
  simp [sizeT]

/-- Where all names end inside the data, the canonical form comes out. -/
theorem exact_of_namesInside {desc : List ℕ} {s : RdataState} (hs : Fresh s) (hd : s.desc = desc)
    (hle : s.ip ≤ s.endp) (hend : s.endp < 2 ^ 64) (hin : NamesInside pkt s.endp desc s.ip) :
    ∃ fuel ys, iterate pkt fuel s = some ys ∧
      ys.map Prod.snd = canonicalRdata pkt s.endp desc s.ip ∧
      ∀ p c, (Place.packet p, c) ∈ ys → s.ip ≤ p ∧ p < s.endp := by
  induction desc generalizing s with
  | nil =>
    refine ⟨1, [], ?_, rfl, fun p c h => by cases h⟩
    rw [iterate, getRdata_fresh hs, hd]
    rfl
  | cons d desc ih =>
    rw [NamesInside] at hin
    rw [canonicalRdata]
    by_cases hde : d = descEnd
    · subst hde
      rw [if_pos rfl]
      rcases Nat.eq_or_lt_of_le hle with heq | hlt
      · exact ⟨1, [],
          iterate_end hs hd heq, by rw [heq, Nat.sub_self]; rfl, fun p c h => by cases h⟩
      have hstep := @nextField_end pkt s desc hlt hend
      rw [← hd] at hstep
      obtain ⟨k, hk⟩ : ∃ k, s.endp - s.ip = k + 1 := ⟨s.endp - s.ip - 1, by omega⟩
      have hiter := iterate_append ⟨hs, hstep, rfl, hk, by omega⟩
        (@iterate_end pkt { s with desc := s.desc, c := 1, op := some ((Place.packet s.ip).add k),
                                   ip := s.endp } desc
          (.inr rfl) hd rfl)
      rw [append_nil] at hiter
      refine ⟨_, _, hiter, ?_, ?_⟩
      · rw [fieldBytes_packet, hk]
      · intro p c hmem
        have hrange := mem_fieldBytes_packet hmem
        omega
    rw [if_neg hde] at hin ⊢
    by_cases hd0 : d = 0
    · subst hd0
      rw [if_pos rfl] at hin ⊢
      cases hname : pkt.extractName s.ip 0 with
      | none =>
        rw [hname] at hin
        simp only [iterate_skip hs hd (nextField_name_none hname)]
        exact @ih { s with desc := desc } hs rfl hle hend hin
      | some r =>
        obtain ⟨n, q⟩ := r
        rw [hname] at hin
        obtain ⟨hq, hin⟩ := hin
        obtain ⟨-, -, hlt, -⟩ := extractText_of_extractName hname
        obtain ⟨-, hshort, -⟩ := Packet.extractName_eq_some_iff.mp hname
        have hstep := @nextField_name pkt s desc n q hname
        rw [← hd] at hstep
        obtain ⟨fuel, ys, hys, hbytes, hplaces⟩ := @ih
          { s with desc := desc, c := 1, op := some ((Place.buff 0).add (wire n).length), ip := q,
                   buff := wire (n.map foldCase) ++ [0] }
          (.inr rfl) rfl hq hend hin
        refine ⟨_, _, iterate_append ⟨hs, hstep, rfl, rfl, hshort.trans (by decide)⟩ hys, ?_, ?_⟩
        · have hbuff := @fieldBytes_buff pkt
            { s with desc := desc, c := (wire n).length + 1, op := some (.buff 0), ip := q,
                     buff := wire (n.map foldCase) ++ [0] }
          simp only [length_append, length_wire_foldCase, length_singleton] at hbuff
          rw [map_append, hbuff, hbytes]
        intro p c hmem
        rcases mem_append.mp hmem with hmem | hmem
        · simp [fieldBytes, Place.add] at hmem
        · have hrange := hplaces p c hmem
          dsimp only at hrange
          omega
    rw [if_neg hd0] at hin ⊢
    rcases Nat.eq_or_lt_of_le hle with heq | hlt
    · simp only [iterate_skip hs hd (nextField_plain_empty hde hd0 heq)]
      have hmin : min d (s.endp - s.ip) = 0 := by omega
      rw [hmin] at hin ⊢
      exact @ih { s with desc := desc } hs rfl hle hend hin
    have hstep := @nextField_plain pkt s d desc hde hd0 hlt hend
    rw [← hd] at hstep
    obtain ⟨k, hk⟩ : ∃ k, min d (s.endp - s.ip) = k + 1 := ⟨min d (s.endp - s.ip) - 1, by omega⟩
    obtain ⟨fuel, ys, hys, hbytes, hplaces⟩ := @ih
      { s with desc := desc, c := 1, op := some ((Place.packet s.ip).add k),
               ip := s.ip + min d (s.endp - s.ip) }
      (.inr rfl) rfl (by dsimp only; omega) hend hin
    refine ⟨_, _, iterate_append ⟨hs, hstep, rfl, hk, by omega⟩ hys, ?_, ?_⟩
    · rw [map_append, fieldBytes_packet, hbytes, ← hk]
    intro p c hmem
    rcases mem_append.mp hmem with hmem | hmem
    · have hrange := mem_fieldBytes_packet hmem
      omega
    · have hrange := hplaces p c hmem
      dsimp only at hrange
      omega

def Leaves (endp : ℕ) (ys : List (Place × UInt8)) : Prop :=
    ∃ p c, (Place.packet p, c) ∈ ys ∧ endp ≤ p

theorem Leaves.append_left {endp : ℕ} {ys : List (Place × UInt8)} (h : Leaves endp ys)
    (xs : List (Place × UInt8)) : Leaves endp (xs ++ ys) := by
  obtain ⟨p, c, hmem, hp⟩ := h
  exact ⟨p, c, mem_append_right _ hmem, hp⟩

theorem leaves_of_first {s t : RdataState} {p fuel : ℕ} {ys : List (Place × UInt8)} (hs : Fresh s)
    (ht : nextField pkt s.desc s = some t) (hop : t.op = some (.packet p)) (hp : s.endp ≤ p)
    (h : iterate pkt fuel s = some ys) : Leaves s.endp ys := by
  cases fuel with
  | zero => cases h
  | succ fuel =>
    rw [iterate, getRdata_fresh hs, ht] at h
    obtain ⟨ys', -, rfl⟩ := map_eq_some_iff.mp h
    exact ⟨p, t.read pkt (.packet p), by simp [hop], hp⟩

theorem leaves_of_rest {s t : RdataState} {o : Place} {k fuel : ℕ} {ys : List (Place × UInt8)}
    (hbegins : Begins pkt s t o k) (h : iterate pkt fuel s = some ys)
    (hrest : ∀ ys', iterate pkt fuel { t with op := some (o.add k), c := 1 } = some ys' →
      Leaves s.endp ys') :
    Leaves s.endp ys := by
  have hmore := @iterate_mono pkt fuel (k + 1) s ys h
  rw [iterate_field hbegins] at hmore
  obtain ⟨ys', hys', rfl⟩ := map_eq_some_iff.mp hmore
  exact (hrest ys' hys').append_left _

theorem leaves_of_not_namesInside
    {desc : List ℕ} {s : RdataState} {fuel : ℕ} {ys : List (Place × UInt8)}
    (h : iterate pkt fuel s = some ys) (hs : Fresh s) (hd : s.desc = desc) (hmark : descEnd ∈ desc)
    (hip : s.ip ≤ pkt.plen)
    (hend : s.endp ≤ pkt.plen) (hplen : pkt.plen < 2 ^ 64) (hin : s.ip ≤ s.endp →
      ¬ NamesInside pkt s.endp desc s.ip) :
    Leaves s.endp ys := by
  induction desc generalizing s fuel ys with
  | nil => cases hmark
  | cons d desc ih =>
    rw [NamesInside] at hin
    by_cases hd0 : d = 0
    · subst hd0
      have htail : descEnd ∈ desc := (mem_cons.mp hmark).resolve_left (by decide)
      cases hname : pkt.extractName s.ip 0 with
      | none =>
        rw [hname] at hin
        rw [iterate_skip hs hd (nextField_name_none hname)] at h
        exact @ih { s with desc := desc } fuel ys h hs rfl htail hip hend hin
      | some r =>
        obtain ⟨n, q⟩ := r
        rw [hname] at hin
        obtain ⟨-, -, hlt, hq⟩ := extractText_of_extractName hname
        obtain ⟨-, hshort, -⟩ := Packet.extractName_eq_some_iff.mp hname
        have hstep := @nextField_name pkt s desc n q hname
        rw [← hd] at hstep
        refine leaves_of_rest ⟨hs, hstep, rfl, rfl, hshort.trans (by decide)⟩ h fun ys' hys' => ?_
        have hleaves := ih hys' (.inr rfl) rfl htail hq hend fun hstop hrest =>
          hin (hlt.le.trans hstop) ⟨hstop, hrest⟩
        exact hleaves
    rcases Nat.lt_or_ge s.endp s.ip with hout | hle
    · obtain ⟨t, ht, hop⟩ := @nextField_outside pkt s d desc hd0 hout (hip.trans_lt hplen)
      rw [← hd] at ht
      exact leaves_of_first hs ht hop hout.le h
    replace hin := hin hle
    by_cases hde : d = descEnd
    · rw [if_pos hde] at hin
      exact absurd trivial hin
    have htail : descEnd ∈ desc := (mem_cons.mp hmark).resolve_left (Ne.symm hde)
    rw [if_neg hde, if_neg hd0] at hin
    rcases Nat.eq_or_lt_of_le hle with heq | hlt
    · have hmin : min d (s.endp - s.ip) = 0 := by omega
      rw [hmin] at hin
      rw [iterate_skip hs hd (nextField_plain_empty hde hd0 heq)] at h
      exact @ih { s with desc := desc } fuel ys h hs rfl htail hip hend fun _ => hin
    have hstep := @nextField_plain pkt s d desc hde hd0 hlt (hend.trans_lt hplen)
    rw [← hd] at hstep
    obtain ⟨k, hk⟩ : ∃ k, min d (s.endp - s.ip) = k + 1 := ⟨min d (s.endp - s.ip) - 1, by omega⟩
    refine leaves_of_rest ⟨hs, hstep, rfl, hk, by omega⟩ h fun ys' hys' => ?_
    have hnext : s.ip + min d (s.endp - s.ip) ≤ pkt.plen := by omega
    have hleaves := ih hys' (.inr rfl) rfl htail hnext hend fun _ => hin
    exact hleaves

theorem exact_iff_namesInside {s : RdataState} (hop : s.op = none) (hmark : descEnd ∈ s.desc)
    (hle : s.ip ≤ s.endp)
    (hend : s.endp ≤ pkt.plen) (hplen : pkt.plen < 2 ^ 64) : Exact pkt s ↔
    NamesInside pkt s.endp s.desc s.ip := by
  constructor
  · rintro ⟨fuel, ys, hys, -, hplaces⟩
    by_contra hin
    obtain ⟨p, c, hmem, hp⟩ := leaves_of_not_namesInside hys (.inl hop) rfl hmark (hle.trans hend)
      hend hplen fun _ => hin
    have hrange := hplaces p c hmem
    omega
  · exact exact_of_namesInside (.inl hop) rfl hle (hend.trans_lt hplen)

/-- What `explore_rrset` has checked of a record. -/
def Checked (pkt : Packet) (p : ℕ) : Prop :=
  ∃ n q, pkt.extractName p 10 = some (n, q) ∧ pkt.checkLen (q + 10) (pkt.getShort (q + 8)) = true

theorem exploreSig_rrset {type pdata rdlen : ℕ} {name : CString} {e e' : Explored}
    (h : exploreSig pkt type name pdata rdlen e = some e') : e'.rrset = e.rrset := by
  unfold exploreSig at h
  by_cases hshort : rdlen < 18
  · rw [if_pos hshort] at h
    cases h
  rw [if_neg hshort] at h
  obtain ⟨e1, he1, h⟩ := bind_eq_some_iff.mp h
  have hrr : e1.rrset = e.rrset := by
    split at he1
    · split at he1
      · cases he1
        rfl
      · cases he1
    split at he1
    · cases he1
    · split_ifs at he1
      cases he1
      rfl
  split_ifs at h <;> cases h <;> exact hrr

theorem exploreRecord_rrset {type pstart pdata stype rdlen : ℕ} {name : CString} {e e' : Explored}
    (h : exploreRecord pkt type name pstart pdata stype rdlen e = some e') :
    ∀ p ∈ e'.rrset, p ∈ e.rrset ∨ p = pstart := by
  obtain ⟨e1, he1, h⟩ := bind_eq_some_iff.mp h
  have hrr : e'.rrset = e1.rrset := by
    split_ifs at h
    · exact exploreSig_rrset h
    · cases h
      rfl
  intro p hp
  rw [hrr] at hp
  split_ifs at he1
  · cases he1
    simpa using hp
  · cases he1
    exact .inl hp

theorem exploreLoop_checked {cls type : ℕ} {name : CString} {j p : ℕ} {e e' : Explored}
    (he : ∀ p ∈ e.rrset, Checked pkt p) (h : exploreLoop pkt cls type name j p e = some e') :
    ∀ p ∈ e'.rrset, Checked pkt p := by
  induction j generalizing p e with
  | zero =>
    cases h
    exact he
  | succ j ih =>
    rw [exploreLoop] at h
    split at h
    · cases h
    next matched q hmatch =>
    dsimp only at h
    split_ifs at h with hlen
    · obtain ⟨e1, he1, h⟩ := bind_eq_some_iff.mp h
      refine ih ?_ h
      intro p' hp'
      rcases exploreRecord_rrset he1 p' hp' with hp' | rfl
      · exact he p' hp'
      rw [Packet.compareName_eq, map_eq_some_iff] at hmatch
      obtain ⟨⟨n, q'⟩, hname, heq⟩ := hmatch
      cases heq
      exact ⟨n, q', hname, by simpa using hlen⟩
    · exact ih he h

theorem descEnd_mem (type : ℕ) : descEnd ∈ rrfilterDesc type := by
  have htable : ∀ entry ∈ rrDesc, descEnd ∈ entry.2 := by decide
  unfold rrfilterDesc
  split
  · next entry hfind => exact htable entry (mem_of_find?_eq_some hfind)
  · exact mem_singleton_self _

/-- For every record of a set that was accepted, the iterator is exact if and only if no name in its
data runs past their end. -/
theorem getRdata_exact_iff (hplen : pkt.plen < 2 ^ 64) {cls type : ℕ} {name : CString}
    {e : Explored} (he : exploreRrset pkt cls type name = some e) {p : ℕ} (hp : p ∈ e.rrset) :
    ∃ s, recordState pkt type p = some s ∧ (Exact pkt s ↔ NamesInside pkt s.endp s.desc s.ip) := by
  obtain ⟨_, -, hloop⟩ := bind_eq_some_iff.mp he
  obtain ⟨n, q, hname, hlen⟩ := exploreLoop_checked (forall_mem_nil _) hloop p hp
  have htext : ∀ l ∈ n, HasText true l := fun l _ hfalse => by cases hfalse
  have hin : q + 10 + pkt.getShort (q + 8) ≤ pkt.plen := by simpa [Packet.checkLen] using hlen
  have hstate : recordState pkt type p = some
      { desc := rrfilterDesc type, c := 0, endp := q + 10 + pkt.getShort (q + 8), ip := q + 10,
        op := none, buff := [] } := by
    rw [recordState, Packet.extractText_eq_some_iff.mpr ⟨n, hname, htext, rfl⟩]
    exact if_neg (by simp [hlen])
  refine ⟨_, hstate, ?_⟩
  apply exact_iff_namesInside
  · rfl
  · exact descEnd_mem type
  · exact Nat.le_add_right _ _
  · exact hin
  · exact hplen

/-- An answer with one NS record of the root, for the name `a`, with a given length of the data. -/
def nsAnswer (rdlen : UInt8) : Packet :=
  .ofBytes ([0, 0, 0, 0, 0, 0, 0, 1, 0, 0, 0, 0] ++ [0] ++ [0, 2, 0, 1, 0, 0, 0, 0, 0,
    rdlen] ++ [1, 97, 0])

theorem nsAnswer_exact : exploreRrset (nsAnswer 3) 1 2 [] = some ⟨[12], [], none⟩ ∧
      ∃ s, recordState (nsAnswer 3) 2 12 = some s ∧
        (Exact (nsAnswer 3) s ↔ NamesInside (nsAnswer 3) s.endp s.desc s.ip) :=
  have h : exploreRrset (nsAnswer 3) 1 2 [] = some ⟨[12], [], none⟩ := by decide +kernel
  ⟨h, getRdata_exact_iff (by decide) h (mem_singleton_self _)⟩

def nsState : RdataState where
  desc := [0, descEnd]
  c := 0
  endp := 24
  ip := 23
  op := none
  buff := []

/-- The data are one byte long, the name in them three: behind the name the iterator has
2 ^ 64 - 2 more bytes to yield, from the end of the message on. -/
theorem nsAnswer_overrun :
    exploreRrset (nsAnswer 1) 1 2 [] = some ⟨[12], [], none⟩ ∧
    recordState (nsAnswer 1) 2 12 = some nsState ∧
      ((((getRdata (nsAnswer 1) nsState).bind (getRdata (nsAnswer 1))).bind
        (getRdata (nsAnswer 1))).bind
        (getRdata (nsAnswer 1))).map (fun t => (t.op, t.c)) = some (some (.packet 26), 2 ^ 64 - 2) ∧
      ¬ Exact (nsAnswer 1) nsState := by
  refine ⟨by decide +kernel, by decide +kernel, by decide +kernel, ?_⟩
  rw [exact_iff_namesInside rfl (by decide) (by decide) (by decide) (by decide)]
  intro h
  have hname : (nsAnswer 1).extractName 23 0 = some ([[97]], 26) := by decide +kernel
  change NamesInside (nsAnswer 1) 24 [0, descEnd] 23 at h
  rw [NamesInside, if_neg (by decide), if_pos rfl, hname] at h
  exact absurd h.1 (by decide)

end Dnsmasq.Dnssec
