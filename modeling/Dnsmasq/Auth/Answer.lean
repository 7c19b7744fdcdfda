import Dnsmasq.Lib.NodeStack
import Dnsmasq.Lib.Rotation
import Dnsmasq.Util.Hostname

/-!
`answer_auth` and what it does to the configuration: MX and SRV records are rotated, and for a zone
transfer the zone is cut off the names in place. The reply is left out.
-/
namespace Dnsmasq.Auth

open Lib

/-- The memory of a string. A NUL that is written into it ends the string there. -/
abbrev Buffer := List UInt8

def cstr (b : Buffer) : CString := b.takeWhile (· ≠ 0)

def typeA : ℕ := 1
def typeNS : ℕ := 2
def typeSOA : ℕ := 6
def typePTR : ℕ := 12
def typeMX : ℕ := 15
def typeTXT : ℕ := 16
def typeAAAA : ℕ := 28
def typeSRV : ℕ := 33
def typeNAPTR : ℕ := 35
def typeAXFR : ℕ := 252
def classIN : ℕ := 1

/-- A zone, with `find_subnet` and `find_exclude` for its addresses. -/
structure Zone (α : Type) where
  domain : CString
  findSubnet : α → Bool := fun _ => false
  findExclude : α → Bool := fun _ => false
  hasSubnet : Bool := false

structure MxSrv where
  name : Buffer
  issrv : Bool

structure TxtRecord where
  name : Buffer
  classOf : ℕ

structure InterfaceAddr (α : Type) where
  addr : α
  ipv6 : Bool
  revonly : Bool := false

structure InterfaceName (α : Type) where
  name : Buffer
  addrs : List (InterfaceAddr α) := []

structure Cname where
  aliasName : Buffer
  target : CString

/-- The configuration. The MX and SRV records are cells that are linked to a list; there are
`mxCount` of them. -/
structure Config (α β : Type) where
  authZones : List (Zone α) := []
  mxnames : Option ℕ := none
  mxNext : ℕ → Option ℕ := fun _ => none
  mx : ℕ → MxSrv := fun _ => ⟨[], false⟩
  mxCount : ℕ := 0
  rr : List TxtRecord := []
  txt : List TxtRecord := []
  naptr : List Buffer := []
  intNames : List (InterfaceName α) := []
  cnames : List Cname := []
  authPeers : List β := []
  secondaryForwardServer : Bool := false
  dhcpFqdn : Bool := false

structure Question where
  name : CString
  qtype : ℕ
  qclass : ℕ

/-- A packet: whether its header and question section are in order, and what `extract_name`
makes of each question. A question that it cannot read is missing. -/
structure Query (β : Type) where
  wellFormed : Bool := true
  questions : List (Option Question)
  peer : β
  localQuery : Bool := false

/-- What is known from elsewhere while the packet is handled: the address that a reverse name
stands for, names and addresses in the cache, and synthetic names. -/
structure World (α : Type) where
  inArpaName2Addr : CString → Option α := fun _ => none
  ptrFound : CString → Bool := fun _ => false
  isNameSynthetic : ℕ → CString → Bool := fun _ _ => false
  dhcpName : CString → Bool := fun _ => false
  hostsName : CString → Bool := fun _ => false
  nonTerminal : CString → Bool := fun _ => false

structure Flags (α : Type) where
  auth : Bool
  nxdomain : Bool := true
  axfr : Bool := false
  zone : Option (Zone α) := none

/-- 2 if the names are equal, 1 if `b` is below `a`. -/
def hostnameIssubdomain (a b : CString) : ℕ :=
  if b.length < a.length ∨ a = [] then 0
  else
    let front := b.take (b.length - a.length)
    if foldCase a ≠ foldCase (b.drop (b.length - a.length)) then 0
    else if front = [] then 2
    else if front.getLast? = some dot then 1
    else 0

/-- Whether the name is in the zone, and where the zone can be cut off. -/
def Zone.inZone {α : Type} (z : Zone α) (name : CString) : Option (Option ℕ) :=
  let off := name.length - z.domain.length
  if z.domain.length ≤ name.length && hostnameIsequal z.domain (name.drop off) then
    if off = 0 then some none
    else if name[off - 1]? = some dot then some (some (off - 1))
    else none
  else none

def Zone.filterZone {α : Type} (z : Zone α) (a : α) : Bool :=
  !z.findExclude a && (!z.hasSubnet || z.findSubnet a)

/-- The suffix of the name, from a dot behind its first character on, that a wildcard stands for. -/
def wildcardTest (name pattern : CString) : Option CString :=
  name.tail.tails.find? fun test => test.head? = some dot && hostnameIsequal test pattern

structure Candidate where
  wclen : ℕ := 0
  cname : Option Cname := none
  cnameWildcard : Bool := false

def Candidate.try (name : CString) (s : Candidate) (a : Cname) : Candidate :=
  match cstr a.aliasName with
  | 42 :: pattern =>
    match wildcardTest name pattern with
    | none => s
    | some test =>
      if s.wclen < test.length && !s.cnameWildcard then ⟨test.length, some a, true⟩ else s
  | whole =>
    if hostnameIsequal whole name && s.wclen < whole.length then
      { s with wclen := whole.length, cname := some a }
    else s

namespace Config

variable {α β : Type} [DecidableEq β]

variable (c : Config α β)

def mxCells : List ℕ := (NodeStack.walk c.mxNext c.mxCount c.mxnames).getD []

def mxRecords : List MxSrv := c.mxCells.map c.mx

/-- Refuse all AXFR unless `--auth-sec-servers` or `--auth-peers` is set. -/
def transferAllowed (peer : β) : Bool :=
  !((!c.secondaryForwardServer && c.authPeers.isEmpty) ||
    (!c.authPeers.isEmpty && !c.authPeers.contains peer))

/-- The names of the records that a name may stand for or have below it. -/
def names : List Buffer :=
  c.mxRecords.map (·.name) ++ c.rr.map (·.name) ++ (c.txt.filter (·.classOf = classIN)).map
    (·.name) ++ c.naptr ++ c.intNames.map (·.name)

/-- There is a configured record of the type for exactly this name. -/
def hasRecord (zone : Zone α) (localQuery : Bool) (qtype : ℕ) (name : CString) : Bool :=
  let same (b : Buffer) := hostnameIssubdomain name (cstr b) = 2
  (qtype = typeMX && c.mxRecords.any fun rec => !rec.issrv && same rec.name) ||
  (qtype = typeSRV && c.mxRecords.any fun rec => rec.issrv && same rec.name) ||
  (c.rr.any fun rec => rec.classOf = qtype && same rec.name) ||
  (qtype = typeTXT && c.txt.any fun rec => rec.classOf = classIN && same rec.name) ||
  (qtype = typeNAPTR && c.naptr.any same) ||
  (c.intNames.any fun intr => same intr.name && intr.addrs.any fun a =>
    (if a.ipv6 then typeAAAA else typeA) = qtype &&
      (localQuery || zone.filterZone a.addr) && !a.revonly)

/-- The zone of a name and where to cut it. A name that has been found already is not looked
up again. -/
def locate (f : Flags α) (found : Bool) (name : CString) : Option (Zone α × Option ℕ) :=
  if found then f.zone.map fun zone => (zone, none)
  else c.authZones.findSome? fun zone => (zone.inZone name).map fun cut => (zone, cut)

/-- The first SRV record for the name or below it goes to the end of the list. -/
def rotateSrv (name : CString) : Config α β :=
  let r :=
    rotateFirst (fun i => (c.mx i).issrv &&
      hostnameIssubdomain name (cstr (c.mx i).name) ≠ 0) c.mxCount
    c.mxNext c.mxnames
  { c with mxNext := r.1, mxnames := r.2 }

end Config

/-- How the code for one name ends: with the question, with a configured alias that leads to
another name, or with `return 0`. -/
inductive Outcome (α : Type)
  | done (f : Flags α)
  | restart (name : CString) (f : Flags α)
  | returned

namespace Config

variable {α β : Type} [DecidableEq β]

def outcome (c : Config α β) (w : World α) (query : Query β) (qtype : ℕ) (f : Flags α)
    (found : Bool) (name : CString) (zone : Zone α) (cut : Option ℕ) : Outcome α :=
  let f := { f with zone := some zone }
  let known := c.names.any fun b => hostnameIssubdomain name (cstr b) ≠ 0
  let found := found || c.hasRecord zone query.localQuery qtype name
  let synthetic := !found && w.isNameSynthetic qtype name
  let nxdomain := f.nxdomain && !known && !synthetic && cut.isSome
  if cut.isNone && qtype = typeAXFR && !c.transferAllowed query.peer then .returned
  else
    let axfr := cut.isNone && qtype = typeAXFR
    let f := { f with axfr := f.axfr || axfr
                      auth :=
                        f.auth || (cut.isNone && (qtype = typeSOA || qtype = typeNS || axfr)) }
    let bare := cut.any fun k => !c.dhcpFqdn && !(name.take k).contains dot &&
      w.dhcpName (name.take k)
    let nxdomain := nxdomain && !bare && !w.hostsName name
    if nxdomain then
      match (c.cnames.foldl (Candidate.try name) {}).cname with
      | some a =>
        .restart (if a.target.contains dot then a.target else a.target ++ dot :: zone.domain)
          { f with nxdomain }
      | none => .done { f with nxdomain := !w.nonTerminal name }
    else .done { f with nxdomain }

/-- The code behind `cname_restart`, until a name does not lead to another one. `rotate` is what
happens to the list of SRV records meanwhile. -/
def answerNames (rotate : Config α β → CString → Config α β) (w : World α) (query : Query β)
    (qtype : ℕ) : ℕ → Config α β → Flags α → Bool → CString → Option (Config α β × Option (Flags α))
  | 0, _, _, _, _ => none
  | turns + 1, c, f, found, name =>
    match c.locate f found name with
    | none => some (c, some { f with auth := false, zone := none })
    | some (zone, cut) =>
      match c.outcome w query qtype f found name zone cut with
      | .done f => some (rotate c name, some f)
      | .returned => some (rotate c name, none)
      | .restart name' f => answerNames rotate w query qtype turns (rotate c name) f true name'

/-- One question: a class that is not served, a reverse name, or a name. -/
def answerQuestion (rotate : Config α β → CString → Config α β) (w : World α) (query : Query β)
    (c : Config α β) (f : Flags α) (q : Question) : Option (Config α β × Option (Flags α)) :=
  if q.qclass ≠ classIN then some (c, some { f with auth := false })
  else
    let reverse := if q.qtype = typePTR || q.qtype = typeSOA || q.qtype = typeNS then
      w.inArpaName2Addr q.name else none
    match reverse with
    | none => answerNames rotate w query q.qtype 2 c f false q.name
    | some addr =>
      if query.localQuery then
        if q.qtype = typePTR then some (c,
          some { f with nxdomain := f.nxdomain && !w.ptrFound q.name })
        else answerNames rotate w query q.qtype 2 c f false q.name
      else
        match c.authZones.find? (·.findSubnet addr) with
        | none => some (c, some { f with auth := false, zone := none })
        | some zone =>
          if q.qtype = typePTR then
            some (c,
              some { f with zone := some zone, nxdomain := f.nxdomain && !w.ptrFound q.name })
          else answerNames rotate w query q.qtype 2 c { f with zone := some zone } true q.name

def answerQuestions (rotate : Config α β → CString → Config α β) (w : World α) (query : Query β) :
    Config α β → Flags α → List (Option Question) → Option (Config α β × Option (Flags α))
  | c, f, [] => some (c, some f)
  | c, _, none :: _ => some (c, none)
  | c, f, some q :: qs =>
    match answerQuestion rotate w query c f q with
    | none => none
    | some (c, none) => some (c, none)
    | some (c, some f) => answerQuestions rotate w query c f qs

end Config

/-- The zone is cut off the name for the record, and the dot is put back. -/
def transferName {α : Type} (z : Zone α) (b : Buffer) : Buffer :=
  match z.inZone (cstr b) with
  | some (some k) => (b.set k 0).set k dot
  | _ => b

def transferAlias {α : Type} (z : Zone α) (b : Buffer) : Buffer :=
  match z.inZone (cstr b) with
  | some (some k) => b.set k 0
  | _ => b

namespace Config

variable {α β : Type} [DecidableEq β]

def transfer (c : Config α β) (z : Zone α) : Config α β :=
  { c with
    mx := fun i => if i ∈ c.mxCells then { c.mx i with name := transferName z (c.mx i).name }
      else c.mx i
    rr := c.rr.map fun rec => { rec with name := transferName z rec.name }
    txt := c.txt.map fun rec => if rec.classOf = classIN then
      { rec with name := transferName z rec.name } else rec
    naptr := c.naptr.map (transferName z)
    intNames := c.intNames.map fun intr => { intr with name := transferName z intr.name }
    cnames := c.cnames.map fun a => { a with aliasName := transferAlias z a.aliasName } }

/-- The configuration after a packet, if the packet is ever done with. -/
def answerAuth (c : Config α β) (w : World α) (query : Query β) : Option (Config α β) :=
  if !query.wellFormed then some c
  else
    match answerQuestions rotateSrv w query c { auth := !query.localQuery } query.questions with
    | none => none
    | some (c, none) => some c
    | some (c, some f) =>
      match f.zone with
      | some zone => some (if f.auth && f.axfr then c.transfer zone else c)
      | none => some c

def answerAll : Config α β → List (World α × Query β) → Option (Config α β)
  | c, [] => some c
  | c, (w, query) :: rest => (c.answerAuth w query).bind fun c => answerAll c rest

end Config

open List hiding Chain

variable {α β : Type} {c c' c₀ : Config α β} {l l' : List ℕ} {w : World α} {query : Query β}

namespace Config

structure Lists (c : Config α β) (l : List ℕ) : Prop where
  chain : Chain c.mxNext c.mxnames l
  bound : ∀ i ∈ l, i < c.mxCount

/-- Only the list of MX and SRV records has been rearranged. -/
structure Kept (c : Config α β) (l : List ℕ) (c' : Config α β) : Prop where
  rest : c' = { c with mxNext := c'.mxNext, mxnames := c'.mxnames }
  lists : ∃ l', c'.Lists l' ∧ l'.Perm l

/-- All names but the aliases are as they were, and the list is a permutation of what it was. -/
structure Rearranged (c : Config α β) (l : List ℕ) (c' : Config α β) : Prop where
  mx : c'.mx = c.mx
  rr : c'.rr = c.rr
  txt : c'.txt = c.txt
  naptr : c'.naptr = c.naptr
  intNames : c'.intNames = c.intNames
  lists : ∃ l', c'.Lists l' ∧ l'.Perm l

structure Intact (c : Config α β) (l : List ℕ) (c' : Config α β) :
    Prop extends c.Rearranged l c' where
  cnames : c'.cnames = c.cnames

section

variable [DecidableEq β] (c : Config α β) (w : World α) (query : Query β)

def transferAsked : Option (Zone α) :=
  if !query.wellFormed then none
  else
    match answerQuestions (fun c _ => c) w query c { auth := !query.localQuery }
      query.questions with
    | some (_, some f) => if f.auth && f.axfr then f.zone else none
    | _ => none

def Harmless : Prop :=
  ∀ z, c.transferAsked w query = some z → ∀ a ∈ c.cnames, ∀ k, z.inZone (cstr a.aliasName) ≠
    some (some k)

end

def AllHarmless [DecidableEq β] : Config α β → List (World α × Query β) → Prop
  | _, [] => True
  | c, (w, query) :: rest =>
    c.Harmless w query ∧ ∀ c', c.answerAuth w query = some c' → AllHarmless c' rest

theorem Lists.length_le (h : c.Lists l) : l.length ≤ c.mxCount := by
  have hsub : l ⊆ List.range c.mxCount := fun i hi => mem_range.mpr (h.bound i hi)
  simpa using (h.chain.nodup.subperm hsub).length_le

theorem Lists.mxCells_eq (h : c.Lists l) : c.mxCells = l := by
  rw [mxCells, NodeStack.walk_of_chain h.chain h.length_le, Option.getD_some]

theorem Kept.refl (h : c.Lists l) : c.Kept l c := ⟨rfl, l, h, .refl l⟩

section

variable (h : c₀.Kept l c)
include h

theorem Kept.rotateSrv (name : CString) : c₀.Kept l (c.rotateSrv name) := by
  obtain ⟨hrest, l', hl', hperm⟩ := h
  constructor
  · rw [hrest]
    rfl
  · refine ⟨_, ⟨rotateFirst_chain _ hl'.chain hl'.length_le, ?_⟩, (moveFirst_perm _ l').trans hperm⟩
    intro i hi
    exact hl'.bound i ((moveFirst_perm _ l').mem_iff.mp hi)

section

variable (h₀ : c₀.Lists l)
include h₀

theorem Kept.mxRecords_perm : c.mxRecords.Perm c₀.mxRecords := by
  obtain ⟨hrest, l', hl', hperm⟩ := h
  have hmx : c.mx = c₀.mx := by rw [hrest]
  rw [mxRecords, mxRecords, hl'.mxCells_eq, h₀.mxCells_eq, hmx]
  exact hperm.map _

theorem Kept.any_mxRecords (p : MxSrv → Bool) : c.mxRecords.any p = c₀.mxRecords.any p :=
  (h.mxRecords_perm h₀).any_eq

theorem Kept.any_names (p : Buffer → Bool) : c.names.any p = c₀.names.any p := by
  have hmx := h.any_mxRecords h₀ (p ∘ MxSrv.name)
  unfold names
  simp only [any_append, any_map]
  rw [hmx, h.rest]

theorem Kept.hasRecord_eq : c.hasRecord = c₀.hasRecord := by
  unfold hasRecord
  simp only [h.any_mxRecords h₀]
  rw [h.rest]

end

theorem Kept.locate_eq : c.locate = c₀.locate := by
  rw [h.rest]
  rfl

end

variable [DecidableEq β]

theorem Kept.outcome_eq (h : c₀.Kept l c) (h₀ : c₀.Lists l) :
    c.outcome w query = c₀.outcome w query := by
  unfold outcome
  simp only [h.any_names h₀, h.hasRecord_eq h₀]
  rw [h.rest]
  rfl

theorem outcome_cut_none {qtype : ℕ} {f f' : Flags α} {found : Bool} {name name' : CString}
    {zone : Zone α} : c.outcome w query qtype f found name zone none ≠ .restart name' f' := by
  unfold outcome
  simp only [Option.isSome_none, Bool.and_false, Bool.false_and, Bool.false_eq_true, if_false]
  split_ifs <;> nofun

section

variable (h₀ : c₀.Lists l) (h : c₀.Kept l c)
include h₀ h

/-- The two runs agree: the one that rotates the list and the one that does not. -/
theorem Kept.answerNames {qtype turns : ℕ} {f : Flags α} {found : Bool} {name : CString}
    (hturns : 2 ≤ turns ∨ found = true ∧ 1 ≤ turns) :
    ∃ c' r, Config.answerNames Config.rotateSrv w query qtype turns c f found name = some (c', r) ∧
      c₀.Kept l c' ∧ Config.answerNames (fun c _ => c) w query qtype turns c₀ f found name =
      some (c₀, r) := by
  induction turns generalizing c f found name with
  | zero => omega
  | succ turns ih =>
    rw [Config.answerNames, Config.answerNames, h.locate_eq]
    cases hloc : c₀.locate f found name with
    | none => exact ⟨c, _, rfl, h, rfl⟩
    | some located =>
      obtain ⟨zone, cut⟩ := located
      dsimp only
      rw [h.outcome_eq h₀]
      cases hout : c₀.outcome w query qtype f found name zone cut with
      | done f | returned => exact ⟨_, _, rfl, h.rotateSrv name, rfl⟩
      | restart name' f' =>
        apply ih (h.rotateSrv name)
        right
        refine ⟨rfl, ?_⟩
        rcases hturns with hturns | ⟨hfound, -⟩
        · omega
        have hcut : cut = none := by
          rw [locate, if_pos hfound] at hloc
          obtain ⟨zone', -, heq⟩ := Option.map_eq_some_iff.mp hloc
          cases heq
          rfl
        subst hcut
        exact absurd hout outcome_cut_none

theorem Kept.answerQuestion (f : Flags α) (q : Question) :
    ∃ c' r, Config.answerQuestion Config.rotateSrv w query c f q = some (c', r) ∧ c₀.Kept l c' ∧
      Config.answerQuestion (fun c _ => c) w query c₀ f q = some (c₀, r) := by
  have hzones : c.authZones = c₀.authZones := by rw [h.rest]
  have hnames (f : Flags α) (found : Bool) :=
    @Kept.answerNames α β c c₀ l w query _ h₀ h q.qtype 2 f found q.name (Or.inl (Nat.le_refl 2))
  unfold Config.answerQuestion
  dsimp only
  rw [hzones]
  split
  · exact ⟨c, _, rfl, h, rfl⟩
  split
  · exact hnames f false
  split
  · split
    · exact ⟨c, _, rfl, h, rfl⟩
    · exact hnames f false
  split
  · exact ⟨c, _, rfl, h, rfl⟩
  · split
    · exact ⟨c, _, rfl, h, rfl⟩
    · exact hnames _ true

theorem Kept.answerQuestions (f : Flags α) (qs : List (Option Question)) :
    ∃ c' r, Config.answerQuestions Config.rotateSrv w query c f qs = some (c', r) ∧ c₀.Kept l c' ∧
      Config.answerQuestions (fun c _ => c) w query c₀ f qs = some (c₀, r) := by
  induction qs generalizing c f with
  | nil => exact ⟨c, _, rfl, h, rfl⟩
  | cons q qs ih =>
    cases q with
    | none => exact ⟨c, _, rfl, h, rfl⟩
    | some q =>
      obtain ⟨c', r, hstep, hkept, hask⟩ := @Kept.answerQuestion α β c c₀ l w query _ h₀ h f q
      rw [Config.answerQuestions, Config.answerQuestions, hstep, hask]
      cases r with
      | none => exact ⟨c', none, rfl, hkept, rfl⟩
      | some f' => exact ih hkept f'

end

end Config

theorem getElem?_cstr {b : Buffer} {k : ℕ} {x : UInt8} (h : (cstr b)[k]? = some x) :
    b[k]? = some x := by
  obtain ⟨hk, rfl⟩ := List.getElem?_eq_some_iff.mp h
  have hpre : cstr b <+: b := takeWhile_prefix _
  rw [getElem?_eq_getElem (hk.trans_le hpre.length_le), List.IsPrefix.getElem hpre hk]

theorem Zone.inZone_cut {z : Zone α} {name : CString} {k : ℕ} (h : z.inZone name = some (some k)) :
    name[k]? = some dot := by
  unfold Zone.inZone at h
  dsimp only at h
  split_ifs at h with h1 h2 h3
  · cases h
  · cases h
    exact h3

theorem transferName_eq (z : Zone α) (b : Buffer) : transferName z b = b := by
  unfold transferName
  split
  · next k hk =>
    have hdot := getElem?_cstr (Zone.inZone_cut hk)
    obtain ⟨hlt, hget⟩ := List.getElem?_eq_some_iff.mp hdot
    rw [set_set, ← hget, set_getElem_self]
  · rfl

theorem transferAlias_eq {z : Zone α} {b : Buffer} (h : ∀ k, z.inZone (cstr b) ≠ some (some k)) :
    transferAlias z b = b := by
  unfold transferAlias
  split
  · next k hk => exact absurd hk (h k)
  · rfl

theorem length_cstr_set {b : Buffer} {k : ℕ} (h : k < (cstr b).length) :
    (cstr (b.set k 0)).length = k := by
  induction b generalizing k with
  | nil => simp [cstr] at h
  | cons x b ih =>
    unfold cstr at h ih ⊢
    rw [takeWhile_cons] at h
    split_ifs at h with hx
    · cases k with
      | zero => simp
      | succ k =>
        rw [set_cons_succ, takeWhile_cons, if_pos hx, length_cons, ih (by simpa using h)]
    · simp at h

theorem length_transferAlias (z : Zone α) (b : Buffer) :
    (cstr (transferAlias z b)).length ≤ (cstr b).length ∧
      ((∃ k, z.inZone (cstr b) = some (some k)) →
        (cstr (transferAlias z b)).length < (cstr b).length) := by
  unfold transferAlias
  split
  · next k hk =>
    have hlt := (List.getElem?_eq_some_iff.mp (Zone.inZone_cut hk)).1
    rw [length_cstr_set hlt]
    exact ⟨hlt.le, fun _ => hlt⟩
  · next hno =>
    exact ⟨Nat.le_refl _, fun ⟨k, hk⟩ => absurd hk (hno k)⟩

namespace Config

theorem transfer_eq (c : Config α β) (z : Zone α) :
    c.transfer z =
    { c with cnames := c.cnames.map fun a =>
               { a with aliasName := transferAlias z a.aliasName } } := by
  have hid : transferName z = id := funext (transferName_eq z)
  unfold transfer
  simp [hid]

def aliasLength (c : Config α β) : ℕ := (c.cnames.map fun a => (cstr a.aliasName).length).sum

theorem aliasLength_transfer (c : Config α β) (z : Zone α) :
    (c.transfer z).aliasLength ≤ c.aliasLength ∧
      ((c.transfer z).aliasLength = c.aliasLength → ∀ a ∈ c.cnames, ∀ k,
        z.inZone (cstr a.aliasName) ≠ some (some k)) := by
  rw [transfer_eq]
  unfold aliasLength
  dsimp only
  induction c.cnames with
  | nil => exact ⟨Nat.le_refl _, fun _ => forall_mem_nil _⟩
  | cons a cnames ih =>
    obtain ⟨hle, hlt⟩ := length_transferAlias z a.aliasName
    simp only [map_cons, sum_cons]
    refine ⟨Nat.add_le_add hle ih.1, ?_⟩
    intro heq
    refine forall_mem_cons.mpr ⟨?_, ih.2 (by omega)⟩
    intro k hk
    have := hlt ⟨k, hk⟩
    omega

theorem Kept.rearranged (h : c.Kept l c') : c.Rearranged l c' :=
  ⟨by rw [h.rest], by rw [h.rest], by rw [h.rest], by rw [h.rest], by rw [h.rest], h.lists⟩

theorem Rearranged.transfer (h : c.Rearranged l c') (z : Zone α) :
    c.Rearranged l (c'.transfer z) := by
  obtain ⟨l', hl', hperm⟩ := h.lists
  rw [transfer_eq]
  exact ⟨h.mx, h.rr, h.txt, h.naptr, h.intNames, l', ⟨hl'.chain, hl'.bound⟩, hperm⟩

theorem Rearranged.trans {c'' : Config α β} (h : c.Rearranged l c') (h' : c'.Rearranged l' c'')
    (hl : l'.Perm l) : c.Rearranged l c'' := by
  obtain ⟨l'', hl'', hperm⟩ := h'.lists
  exact ⟨h'.mx.trans h.mx, h'.rr.trans h.rr, h'.txt.trans h.txt, h'.naptr.trans h.naptr,
    h'.intNames.trans h.intNames, l'', hl'', hperm.trans hl⟩

variable [DecidableEq β]

/-- One packet: the list is rearranged, and then a transfer is made if one was asked for. -/
theorem Lists.answerAuth (h : c.Lists l) (w : World α) (query : Query β) :
    ∃ c', c.Kept l c' ∧ c.answerAuth w query =
      some (((c.transferAsked w query).map c'.transfer).getD c') := by
  unfold Config.answerAuth transferAsked
  split
  · exact ⟨c, .refl h, rfl⟩
  obtain ⟨c', r, hstep, hkept, hask⟩ :=
    @Kept.answerQuestions α β c c l w query _ h (.refl h) { auth := !query.localQuery }
      query.questions
  rw [hstep, hask]
  refine ⟨c', hkept, ?_⟩
  cases r with
  | none => rfl
  | some f =>
    dsimp only
    cases f.zone with
    | none => cases f.auth && f.axfr <;> rfl
    | some zone => cases f.auth && f.axfr <;> rfl

/-- One packet: the aliases do not get longer, and they are as before exactly if it is harmless. -/
theorem Lists.step (h : c.Lists l) (w : World α) (query : Query β) :
    ∃ c', c.answerAuth w query = some c' ∧ c.Rearranged l c' ∧ c'.aliasLength ≤ c.aliasLength ∧
      (c'.aliasLength = c.aliasLength → c.Harmless w query) ∧
      (c.Harmless w query → c'.cnames = c.cnames) := by
  obtain ⟨c₁, hkept, hstep⟩ := h.answerAuth w query
  have hcnames : c₁.cnames = c.cnames := by rw [hkept.rest]
  have hlength : c₁.aliasLength = c.aliasLength := by rw [aliasLength, hcnames, aliasLength]
  refine ⟨_, hstep, ?_⟩
  cases hask : c.transferAsked w query with
  | none =>
    refine ⟨hkept.rearranged, hlength.le, ?_, fun _ => hcnames⟩
    intro _ z hz
    rw [hask] at hz
    cases hz
  | some z =>
    obtain ⟨hle, hcut⟩ := aliasLength_transfer c₁ z
    rw [hlength, hcnames] at hcut
    refine ⟨hkept.rearranged.transfer z, hle.trans hlength.le, ?_, ?_⟩
    · intro heq z' hz'
      rw [hask] at hz'
      cases hz'
      exact hcut heq
    intro hharmless
    show (c₁.transfer z).cnames = c.cnames
    rw [transfer_eq, ← hcnames]
    rw [map_congr_left, map_id']
    intro a ha
    rw [transferAlias_eq (hharmless z hask a (hcnames ▸ ha))]

theorem Lists.answerAll (h : c.Lists l) (steps : List (World α × Query β)) :
    ∃ c', c.answerAll steps = some c' ∧ c.Rearranged l c' ∧ c'.aliasLength ≤ c.aliasLength ∧
      (c'.aliasLength = c.aliasLength → c.AllHarmless steps) ∧
      (c.AllHarmless steps → c'.cnames = c.cnames) := by
  induction steps generalizing c l with
  | nil =>
    exact ⟨c, rfl, (Kept.refl h).rearranged, Nat.le_refl _, fun _ => trivial, fun _ => rfl⟩
  | cons s steps ih =>
    obtain ⟨w, query⟩ := s
    obtain ⟨c₁, hstep, hre, hle, hharm, hsame⟩ := h.step w query
    obtain ⟨l₁, hl₁, hperm⟩ := hre.lists
    obtain ⟨c₂, hrest, hre₂, hle₂, hharm₂, hsame₂⟩ := ih hl₁
    refine ⟨c₂, ?_, hre.trans hre₂ hperm, hle₂.trans hle, ?_, ?_⟩
    · rw [Config.answerAll, hstep]
      exact hrest
    · intro heq
      refine ⟨hharm (by omega), ?_⟩
      intro c' hc'
      rw [hstep] at hc'
      cases hc'
      exact hharm₂ (by omega)
    · rintro ⟨hone, hall⟩
      exact (hsame₂ (hall c₁ hstep)).trans (hsame hone)

/-- The configuration is intact after a sequence of packets exactly if none of them was granted
the transfer of a zone that has an alias below its own name. -/
theorem answerAll_intact_iff (h : c.Lists l) (steps : List (World α × Query β)) :
    ∃ c', c.answerAll steps = some c' ∧ (c.Intact l c' ↔ c.AllHarmless steps) := by
  obtain ⟨c', hrun, hre, -, hharm, hsame⟩ := h.answerAll steps
  refine ⟨c', hrun, ?_, ?_⟩
  · intro hintact
    apply hharm
    rw [aliasLength, hintact.cnames, aliasLength]
  · intro hall
    exact ⟨hre, hsame hall⟩

/-- The zone `b`, with two SRV records for `s.b` and the alias `a.b` for `t.b`. -/
def aliasZone : Config ℕ ℕ where
  authZones := [{ domain := [98] }]
  mxnames := some 0
  mxNext i := if i = 0 then some 1 else none
  mx _ := ⟨[115, 46, 98], true⟩
  mxCount := 2
  cnames := [⟨[97, 46, 98], [116, 46, 98]⟩]
  authPeers := [7]

theorem aliasZone_lists : aliasZone.Lists [0, 1] := ⟨⟨rfl, rfl, rfl⟩, by decide⟩

/-- A question for the SRV records rotates the list. -/
theorem answerAll_intact_iff_srv :
    ∃ c', aliasZone.answerAll [({},
      { questions := [some ⟨[115, 46, 98], typeSRV, classIN⟩], peer := 1 })] = some c' ∧
      aliasZone.Intact [0, 1] c' := by
  obtain ⟨c', hrun, hiff⟩ := answerAll_intact_iff aliasZone_lists
    [({}, { questions := [some ⟨[115, 46, 98], typeSRV, classIN⟩], peer := 1 })]
  refine ⟨c', hrun, hiff.mpr ⟨?_, fun _ _ => trivial⟩⟩
  intro z hz
  have hnone : (aliasZone.transferAsked {}
      { questions := [some ⟨[115, 46, 98], typeSRV, classIN⟩], peer := 1 }).isNone := by
    decide
  rw [Option.isNone_iff_eq_none.mp hnone] at hz
  cases hz

/-- After a transfer of the zone to the allowed peer the alias is `a`. -/
theorem answerAll_axfr :
    (aliasZone.answerAll [({}, { questions := [some ⟨[98], typeAXFR, classIN⟩], peer := 7 })]).map
        (fun c => c.cnames.map fun a => cstr a.aliasName) = some [[97]] ∧
      aliasZone.cnames.map (fun a => cstr a.aliasName) = [[97, 46, 98]] := by
  decide

end Config

end Dnsmasq.Auth
