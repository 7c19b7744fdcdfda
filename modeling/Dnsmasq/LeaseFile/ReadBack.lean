import Dnsmasq.Dhcp6.Context
import Dnsmasq.LeaseFile.Text
import Dnsmasq.Lib.Words

/-!
`lease_update_file` and `read_leases`, which reads the file field by field with `fscanf`. Memory is
always found.
-/
namespace Dnsmasq.LeaseFile

open List Lib
open Dhcp6 (In6Addr LeaseType)

/-- The address of a lease, and what else the flags of `struct dhcp_lease` make of it. -/
inductive LeaseAddr
  | v4 (addr : BitVec 32)
  | v6 (type : LeaseType) (iaid : BitVec 32) (addr : In6Addr)
  deriving DecidableEq, Repr

def LeaseAddr.isV4 : LeaseAddr → Bool
  | v4 _ => true
  | v6 _ _ _ => false

structure Lease where
  addr : LeaseAddr
  hwaddr : Bytes := []
  hwType : ℕ := 0
  clid : Bytes := []
  hostname : Option CString := none
  expires : ℕ := 0
  deriving DecidableEq, Repr

def isAddrChar (c : UInt8) : Bool := isXdigit c || c == colon || c == dot

structure IsAddrText (w : CString) : Prop where
  nonempty : w ≠ []
  length : w.length ≤ 45
  chars : ∀ c ∈ w, isAddrChar c = true

/-- `inet_ntop` and `inet_pton`. -/
structure AddrText where
  ntop4 : BitVec 32 → CString
  pton4 : CString → Option (BitVec 32)
  ntop6 : In6Addr → CString
  pton6 : CString → Option In6Addr
  text4 : ∀ a, IsAddrText (ntop4 a)
  text6 : ∀ a, IsAddrText (ntop6 a)
  pton4_ntop4 : ∀ a, pton4 (ntop4 a) = some a
  pton4_ntop6 : ∀ a, pton4 (ntop6 a) = none
  pton6_ntop6 : ∀ a, pton6 (ntop6 a) = some a

/-- What decides whether two leases have the same name. -/
structure NameOptions where
  optDhcpFqdn : Bool := false
  domain : LeaseAddr → Option CString := fun _ => none

def arphrdEther : ℕ := 1

/-- What holds of all leases that the server makes. The name is any C string, as D-Bus does
not look at it. -/
structure Lease.Legal (l : Lease) : Prop where
  expires : l.expires < 2 ^ 63
  hostname : ∀ name, l.hostname = some name → 0 ∉ name
  hwaddr : l.addr.isV4 = true →
    l.hwaddr.length ≤ 16 ∧ l.hwType < 2 ^ 32 ∧ (l.hwType = 0 → l.hwaddr = [])

/-- The leases, the newest first, and the DUID of the server, if it has one. -/
structure Database where
  leases : List Lease
  duid : Option Bytes
  dhcpMax : ℕ
  legal : ∀ l ∈ leases, l.Legal
  room : leases.length ≤ dhcpMax
  duidNonempty : duid ≠ some []

def duidWord : CString := [100, 117, 105, 100]

namespace Lease

def hwText (l : Lease) : CString :=
  (if l.hwType ≠ arphrdEther ∨ l.hwaddr = [] then hexText l.hwType ++ [hyphen] else []) ++
    colonHex l.hwaddr

/-- The hardware address, or the IAID with a `T` before that of a temporary address. -/
def idText (l : Lease) : CString :=
  match l.addr with
  | .v4 _ => l.hwText
  | .v6 .ta iaid _ => 84 :: decimal iaid.toNat
  | .v6 .na iaid _ => decimal iaid.toNat

def addrText (text : AddrText) (l : Lease) : CString :=
  match l.addr with
  | .v4 a => text.ntop4 a
  | .v6 _ _ a => text.ntop6 a

def nameText (l : Lease) : CString := l.hostname.getD [star]

def clidText (l : Lease) : CString := if l.clid = [] then [star] else colonHex l.clid

def fields (text : AddrText) (l : Lease) : List (CString × UInt8) :=
  [(decimal l.expires, 32), (l.idText, 32), (l.addrText text, 32), (l.nameText, 32),
    (l.clidText, 10)]

end Lease

def Database.fields (text : AddrText) (db : Database) : List (CString × UInt8) :=
  (db.leases.filter (·.addr.isV4)).flatMap (Lease.fields text) ++ match db.duid with
    | none => []
    | some duid => [(duidWord, 32), (colonHex duid, 10)] ++
        (db.leases.filter (!·.addr.isV4)).flatMap (Lease.fields text)

def leaseUpdateFile (text : AddrText) (db : Database) : CString :=
  (db.fields text).flatMap fun x => x.1 ++ [x.2]

structure Reader where
  leases : List Lease := []
  leasesLeft : ℕ
  duid : Option Bytes := none

variable (opts : NameOptions)

/-- The name that counts, with the domain or without it. -/
def nameKey (l : Lease) : Option CString :=
  l.hostname.bind fun name =>
    if opts.optDhcpFqdn then (opts.domain l.addr).map fun domain => name ++ dot :: domain
      else some name

def sameName (l other : Lease) : Bool :=
  match nameKey opts l, nameKey opts other with
  | some a, some b => hostnameIsequal b a
  | _, _ => false

/-- Leases that cannot have the same name. Those of one DUID can. -/
def rivals (l other : Lease) : Bool :=
  match l.addr, other.addr with
  | .v4 _, .v4 _ => true
  | .v6 _ _ _, .v6 _ _ _ => decide (¬ (l.clid = other.clid ∧ l.clid ≠ []))
  | _, _ => false

def clash (l other : Lease) : Bool := sameName opts l other && rivals l other

def killName (l : Lease) : Lease := { l with hostname := none }

def killFirst (p : Lease → Bool) : List Lease → List Lease
  | [] => []
  | l :: ls => if p l then killName l :: ls else l :: killFirst p ls

def leaseSetHostname (leases : List Lease) (l : Lease) : List Lease :=
  l :: killFirst (clash opts l) leases

namespace Reader

def add (opts : NameOptions) (r : Reader) (l : Lease) : Option Reader :=
  if r.leasesLeft = 0 then none
  else some { r with leases := leaseSetHostname opts r.leases l, leasesLeft := r.leasesLeft - 1 }

/-- The lease that five fields describe. There is no result if the hardware address cannot be
read, whose length is then taken to be -1. -/
def readLine (text : AddrText) (opts : NameOptions) (r : Reader)
    (expires id addr name clid : CString) : Option Reader :=
  let lease (addr : LeaseAddr) (hwaddr : Bytes) (hwType : ℕ) : Lease :=
    { addr, hwaddr, hwType
      clid := if clid = [star] then [] else ((parseHex 255 false clid).map Prod.fst).getD []
      hostname := if name = [star] then none else some name
      expires := atol expires }
  match text.pton4 addr with
  | some a => (parseHex 16 true id).bind fun (hwaddr, hwType) =>
    r.add opts (lease (.v4 a) hwaddr (if hwType = 0 ∧ hwaddr ≠ [] then arphrdEther else hwType))
  | none =>
    match text.pton6 addr with
    | some a =>
      let (type, iaid) := match id with
        | 84 :: iaid => (LeaseType.ta, iaid)
        | iaid => (LeaseType.na, iaid)
      r.add opts (lease (.v6 type (BitVec.ofNat 32 (strtoul iaid)) a) [] 0)
    | none => some r

/-- The rest of the file, and whether all of it could be read. -/
def readLoop (text : AddrText) (opts : NameOptions) : ℕ → Reader → List CString →
    Option (Bool × Reader)
  | 0, _, _ => none
  | fuel + 1, r, file =>
    match field 255 file with
    | none => some (true, r)
    | some (expires, file) =>
      match field 255 file with
      | none => some (false, r)
      | some (id, file) =>
        if expires = duidWord then
          match parseHex 130 false id with
          | none => some (false, r)
          | some (duid, _) => readLoop text opts fuel { r with duid := some duid } file
        else
          match field 64 file with
          | none => readLoop text opts fuel r []
          | some (addr, file) =>
            match field 255 file with
            | none => readLoop text opts fuel r []
            | some (name, file) =>
              match field 764 file with
              | none => readLoop text opts fuel r []
              | some (clid, file) =>
                (r.readLine text opts expires id addr name clid).bind fun r =>
                  readLoop text opts fuel r file

end Reader

def readLeases (text : AddrText) (opts : NameOptions) (dhcpMax : ℕ) (file : CString) :
    Option (Bool × Reader) :=
  Reader.readLoop text opts (file.length + 1) { leasesLeft := dhcpMax } (words isSpace file)

/-- The server has the same leases and the same DUID after a restart. -/
def Database.Restored (text : AddrText) (opts : NameOptions) (db : Database) : Prop :=
  ∃ clean r, readLeases text opts db.dhcpMax (leaseUpdateFile text db) = some (clean, r) ∧
    r.leases.Perm db.leases ∧ r.duid = db.duid

theorem not_isSpace_of_isDigit {c : UInt8} (h : isDigit c = true) : isSpace c = false := by
  simp only [isDigit, Bool.and_eq_true, decide_eq_true_eq] at h
  simp only [isSpace, Bool.or_eq_false_iff, beq_eq_false_iff_ne, Bool.and_eq_false_iff,
    decide_eq_false_iff_not]
  grind

set_option maxRecDepth 20000 in
theorem isAddrChar_spec {c : UInt8} (h : isAddrChar c = true) : isSpace c = false ∧ c ≠ 117 := by
  have hall : ∀ n : Fin 256, isAddrChar (UInt8.ofNat n) = true →
      isSpace (UInt8.ofNat n) = false ∧ UInt8.ofNat n ≠ 117 := by
    decide
  have hc := hall ⟨c.toNat, c.toNat_lt⟩
  rw [UInt8.ofNat_toNat] at hc
  exact hc h

set_option maxRecDepth 20000 in
theorem isAddrChar_of_isDigit {c : UInt8} (h : isDigit c = true) : isAddrChar c = true := by
  have hall : ∀ n : Fin 256, isDigit (UInt8.ofNat n) = true →
      isAddrChar (UInt8.ofNat n) = true := by decide
  have hc := hall ⟨c.toNat, c.toNat_lt⟩
  rw [UInt8.ofNat_toNat] at hc
  exact hc h

theorem not_isSpace_of_plainHex {c : UInt8} (h : plainHex c = true) : isSpace c = false := by
  simp only [plainHex, Bool.and_eq_true, Bool.not_eq_true'] at h
  exact h.1.2

theorem not_isSpace_of_mem_colonHex {bs : Bytes} {c : UInt8} (h : c ∈ colonHex bs) :
    isSpace c = false := by
  rcases mem_colonHex h with h | rfl
  · exact not_isSpace_of_plainHex h
  · rfl

namespace Lease

variable {text : AddrText} {l : Lease}

theorem mem_hwText {c : UInt8} (h : c ∈ l.hwText) : plainHex c = true ∨ c = hyphen ∨ c = colon := by
  rcases mem_append.mp h with h | h
  · split at h
    · rcases mem_append.mp h with h | h
      · exact .inl (plainHex_of_mem_hexText h)
      · exact .inr (.inl (mem_singleton.mp h))
    · cases h
  · exact (mem_colonHex h).imp_right .inr

theorem length_hwText (h : l.hwaddr.length ≤ 16) (htype : l.hwType < 2 ^ 32) :
    l.hwText.length ≤ 56 := by
  have hcolon := length_colonHex l.hwaddr
  have hdigits : (Nat.digits 16 l.hwType).length ≤ 8 :=
    (Nat.digits_length_le_iff (by norm_num) _).mpr (htype.trans_le (by norm_num))
  unfold hwText
  rw [length_append]
  split
  · rw [length_append, length_hexText, length_singleton]
    omega
  · rw [length_nil]
    omega

theorem length_idText (h : l.addr.isV4 = true → l.hwaddr.length ≤ 16 ∧ l.hwType < 2 ^ 32) :
    l.idText.length ≤ 56 := by
  unfold idText
  have hiaid : ∀ iaid : BitVec 32, (decimal iaid.toNat).length ≤ 10 := fun iaid =>
    length_decimal_le (iaid.isLt.trans (by norm_num)) (by norm_num)
  cases haddr : l.addr with
  | v4 a =>
    obtain ⟨hlen, htype⟩ := h (by rw [haddr]; rfl)
    exact length_hwText hlen htype
  | v6 type iaid a =>
    cases type with
    | na => exact (hiaid iaid).trans (by norm_num)
    | ta => exact (Nat.succ_le_succ (hiaid iaid)).trans (by norm_num)

theorem isAddrText_addrText (text : AddrText) (l : Lease) : IsAddrText (l.addrText text) := by
  unfold addrText
  split
  · exact text.text4 _
  · exact text.text6 _

theorem length_clidText (h : l.clid.length ≤ 255) : l.clidText.length ≤ 764 := by
  unfold clidText
  split
  · exact Nat.one_le_iff_ne_zero.mpr (by norm_num)
  · rw [length_colonHex]
    omega

theorem unspaced_idText {c : UInt8} (h : c ∈ l.idText) : isSpace c = false := by
  unfold idText at h
  split at h
  · rcases mem_hwText h with h | rfl | rfl
    · exact not_isSpace_of_plainHex h
    · rfl
    · rfl
  · rcases mem_cons.mp h with rfl | h
    · rfl
    · exact not_isSpace_of_isDigit (isDigit_of_mem_decimal h)
  · exact not_isSpace_of_isDigit (isDigit_of_mem_decimal h)

theorem unspaced_nameText (hl : ∀ name, l.hostname = some name → ∀ c ∈ name, isSpace c = false)
    {c : UInt8} (h : c ∈ l.nameText) : isSpace c = false := by
  unfold nameText at h
  cases hname : l.hostname with
  | none =>
    rw [hname] at h
    cases mem_singleton.mp h
    rfl
  | some name =>
    rw [hname] at h
    exact hl name hname c h

theorem unspaced_clidText {c : UInt8} (h : c ∈ l.clidText) : isSpace c = false := by
  unfold clidText at h
  split at h
  · cases mem_singleton.mp h
    rfl
  · exact not_isSpace_of_mem_colonHex h

theorem unspaced_fields (hl : ∀ name, l.hostname = some name → ∀ c ∈ name, isSpace c = false)
    {x : CString × UInt8} (h : x ∈ l.fields text) :
    (∀ c ∈ x.1, isSpace c = false) ∧ isSpace x.2 = true := by
  simp only [fields, mem_cons, not_mem_nil, or_false] at h
  rcases h with rfl | rfl | rfl | rfl | rfl
  · exact ⟨fun c hc => not_isSpace_of_isDigit (isDigit_of_mem_decimal hc), rfl⟩
  · exact ⟨fun c => unspaced_idText, rfl⟩
  · exact ⟨fun c hc => (isAddrChar_spec ((isAddrText_addrText text l).chars c hc)).1, rfl⟩
  · exact ⟨fun c => unspaced_nameText hl, rfl⟩
  · exact ⟨fun c => unspaced_clidText, rfl⟩

end Lease

section

variable {text : AddrText} {db : Database}
  (hdb : ∀ l ∈ db.leases, ∀ name, l.hostname = some name → ∀ c ∈ name, isSpace c = false)
include hdb

theorem Database.unspaced_fields {x : CString × UInt8} (h : x ∈ db.fields text) :
    (∀ c ∈ x.1, isSpace c = false) ∧ isSpace x.2 = true := by
  have hleases : ∀ p : Lease → Bool, x ∈ (db.leases.filter p).flatMap (Lease.fields text) →
      (∀ c ∈ x.1, isSpace c = false) ∧ isSpace x.2 = true := fun p hx => by
    obtain ⟨l, hl, hx⟩ := mem_flatMap.mp hx
    exact Lease.unspaced_fields (hdb l (mem_filter.mp hl).1) hx
  rcases mem_append.mp h with h | h
  · exact hleases _ h
  split at h
  · cases h
  rcases mem_append.mp h with h | h
  · simp only [mem_cons, not_mem_nil, or_false] at h
    rcases h with rfl | rfl
    · exact ⟨by simp [duidWord, isSpace], rfl⟩
    · exact ⟨fun c => not_isSpace_of_mem_colonHex, rfl⟩
  · exact hleases _ h

theorem words_leaseUpdateFile : words isSpace (leaseUpdateFile text db) =
    ((db.fields text).map Prod.fst).filter fun w => !w.isEmpty := by
  have h :=
    words_flatMap_append (fun _ (hx : _ ∈ db.fields text) => Database.unspaced_fields hdb hx) []
  rwa [append_nil, words_nil, append_nil] at h

end

structure Lease.Plain (l : Lease) : Prop where
  clid : l.clid.length ≤ 255
  hostname : l.hostname ≠ some []
  hwaddr : l.addr.isV4 = false → l.hwaddr = [] ∧ l.hwType = 0

/-- A lease with a name of which `Q` holds, that is no longer than the field and not the mark
for no name. -/
structure Lease.Named (Q : CString → Prop) (l : Lease) : Prop extends l.Plain where
  name : ∀ name, l.hostname = some name → Q name ∧ name ≠ [star] ∧ name.length ≤ 255

/-- A word of the file. -/
def IsWord (w : CString) : Prop := w ≠ [] ∧ ∀ c ∈ w, isSpace c = false

/-- A lease that comes back from its line. -/
structure Lease.Clear (l : Lease) : Prop extends l.Plain where
  expires : l.expires < 2 ^ 63
  name : ∀ name, l.hostname = some name → name ≠ [star] ∧ name.length ≤ 255
  hwaddr4 : l.addr.isV4 = true →
    l.hwaddr.length ≤ 16 ∧ l.hwType < 2 ^ 32 ∧ (l.hwType = 0 → l.hwaddr = [])

namespace Lease

variable {text : AddrText} {l : Lease}

theorem Named.clear {Q : CString → Prop} (h : l.Named Q) (hlegal : l.Legal) : l.Clear :=
  ⟨h.toPlain, hlegal.expires, fun name hname => (h.name name hname).2, hlegal.hwaddr⟩

theorem parseHex_hwText (h : l.hwaddr.length ≤ 16) :
    parseHex 16 true l.hwText = some (l.hwaddr, if l.hwType ≠ arphrdEther ∨ l.hwaddr = [] then
      l.hwType else 0) := by
  unfold hwText
  split
  · rw [append_assoc, singleton_append, parseHex_hyphen (by norm_num) _ h]
  · rename_i hplain
    have hparse := @parseHex_colonHex 16 l.hwaddr (fun e => hplain (.inr e)) h true [] (.inl rfl)
    rwa [append_nil] at hparse

theorem parse_clidText (h : l.clid.length ≤ 255) :
    (if l.clidText = [star] then [] else ((parseHex 255 false l.clidText).map Prod.fst).getD []) =
    l.clid := by
  unfold clidText
  split
  · rename_i hnone
    rw [if_pos rfl, hnone]
  rename_i hsome
  have hparse := @parseHex_colonHex 255 l.clid hsome h false [] (.inl rfl)
  have hne : colonHex l.clid ≠ [star] := fun e => by
    have hstar : star ∈ colonHex l.clid := e ▸ mem_cons_self
    rcases mem_colonHex hstar with h | h <;> cases h
  rw [append_nil] at hparse
  rw [if_neg hne, hparse]
  rfl

theorem parse_nameText (h : l.Clear) : (if l.nameText = [star] then none else some l.nameText) =
    l.hostname := by
  unfold nameText
  cases hname : l.hostname with
  | none => rfl
  | some name => exact if_neg (h.name name hname).1

theorem nameText_ne_nil (h : l.hostname ≠ some []) : l.nameText ≠ [] := by
  unfold nameText
  cases hname : l.hostname with
  | none => exact cons_ne_nil _ _
  | some name => exact fun e => h (hname.trans (congrArg some e))

theorem clidText_ne_nil : l.clidText ≠ [] := by
  unfold clidText
  split
  · exact cons_ne_nil _ _
  · exact colonHex_ne_nil ‹_›

theorem idText_ne_nil : l.idText ≠ [] := by
  unfold idText
  split
  · unfold hwText
    split
    · simp
    · rename_i hplain
      exact colonHex_ne_nil fun e => hplain (.inr e)
  · exact cons_ne_nil _ _
  · exact decimal_ne_nil _

theorem Plain.words_ne_nil (h : l.Plain) {w : CString} (hw : w ∈ (l.fields text).map Prod.fst) :
    w ≠ [] := by
  simp only [fields, map_cons, map_nil, mem_cons, not_mem_nil, or_false] at hw
  rcases hw with rfl | rfl | rfl | rfl | rfl
  · exact decimal_ne_nil l.expires
  · exact idText_ne_nil
  · exact (isAddrText_addrText text l).nonempty
  · exact nameText_ne_nil h.hostname
  · exact clidText_ne_nil

theorem readLine_fields (opts : NameOptions) (r : Reader) (h : l.Clear) :
    r.readLine text opts (decimal l.expires) l.idText (l.addrText text) l.nameText l.clidText =
    r.add opts l := by
  have hexpires := atol_decimal h.expires
  unfold Reader.readLine
  simp only [parse_clidText h.clid, parse_nameText h, hexpires]
  cases haddr : l.addr with
  | v4 a =>
    obtain ⟨hlen, -, hzero⟩ := h.hwaddr4 (by rw [haddr]; rfl)
    have hid : l.idText = l.hwText := by rw [idText, haddr]
    have htype' : (if (if l.hwType ≠ arphrdEther ∨ l.hwaddr = [] then l.hwType else 0) = 0 ∧
        l.hwaddr ≠ [] then arphrdEther else if l.hwType ≠ arphrdEther ∨ l.hwaddr = [] then l.hwType
        else 0) = l.hwType := by
      by_cases hempty : l.hwaddr = []
      · simp [hempty]
      by_cases hether : l.hwType = arphrdEther
      · simp [hempty, hether]
      · have hne : l.hwType ≠ 0 := fun e => hempty (hzero e)
        simp [hether, hne]
    simp only [addrText, haddr, text.pton4_ntop4, hid, parseHex_hwText hlen,
      Option.bind_some, htype']
    rw [← haddr]
  | v6 type iaid a =>
    obtain ⟨hnone, htype⟩ := h.hwaddr (by rw [haddr]; rfl)
    have hiaid : BitVec.ofNat 32 (strtoul (decimal iaid.toNat)) = iaid := by
      rw [strtoul_decimal (iaid.isLt.trans (by norm_num)), BitVec.ofNat_toNat, BitVec.setWidth_eq]
    simp only [addrText, haddr, text.pton4_ntop6, text.pton6_ntop6]
    cases type with
    | ta =>
      simp only [idText, haddr, hiaid]
      rw [← haddr, ← hnone, ← htype]
    | na =>
      have hdigit : ∀ s, decimal iaid.toNat ≠ 84 :: s := fun s e => by
        have hc := isDigit_of_mem_decimal (e ▸ mem_cons_self : (84 : UInt8) ∈ decimal iaid.toNat)
        cases hc
      have hid : l.idText = decimal iaid.toNat := by rw [idText, haddr]
      rw [hid]
      split
      · rename_i s hs
        exact absurd hs (hdigit s)
      · rw [hiaid, ← haddr, ← hnone, ← htype]

end Lease

namespace Reader

variable {text : AddrText} {opts : NameOptions}

theorem decimal_ne_duidWord (n : ℕ) : decimal n ≠ duidWord := fun e => by
  have hc := isDigit_of_mem_decimal (e ▸ mem_cons_self : (100 : UInt8) ∈ decimal n)
  cases hc

theorem readLoop_line (fuel : ℕ) (r : Reader) {l : Lease} (h : l.Clear) (file : List CString) :
    readLoop text opts (fuel + 1) r ((l.fields text).map Prod.fst ++ file) =
      (r.add opts l).bind fun r => readLoop text opts fuel r file := by
  have hexpires : (decimal l.expires).length ≤ 255 :=
    (length_decimal_le (h.expires.trans (by norm_num : 2 ^ 63 < 10 ^ 19)) (by norm_num)).trans
      (by norm_num)
  have hid : l.idText.length ≤ 255 :=
    (Lease.length_idText fun h4 => ⟨(h.hwaddr4 h4).1, (h.hwaddr4 h4).2.1⟩).trans (by norm_num)
  have haddr : (l.addrText text).length ≤ 64 :=
    (Lease.isAddrText_addrText text l).length.trans (by norm_num)
  have hname : l.nameText.length ≤ 255 := by
    unfold Lease.nameText
    cases hhost : l.hostname with
    | none => exact Nat.one_le_iff_ne_zero.mpr (by norm_num)
    | some name => exact (h.name name hhost).2
  have hclid := Lease.length_clidText h.clid
  simp only [Lease.fields, map_cons, map_nil, cons_append, nil_append, readLoop,
    field_of_le hexpires,
    field_of_le hid, decimal_ne_duidWord, if_false, field_of_le haddr, field_of_le hname,
    field_of_le hclid, Lease.readLine_fields opts r h]

theorem readLoop_duid (fuel : ℕ) (r : Reader) {duid : Bytes} (hne : duid ≠ [])
    (h : duid.length ≤ 85) (file : List CString) :
    readLoop text opts (fuel + 1) r (duidWord :: colonHex duid :: file) =
      readLoop text opts fuel { r with duid := some duid } file := by
  have hword : duidWord.length ≤ 255 := by decide
  have hlen : (colonHex duid).length ≤ 255 := by
    rw [length_colonHex]
    omega
  have hparse := @parseHex_colonHex 130 duid hne (h.trans (by norm_num)) false [] (.inl rfl)
  rw [append_nil] at hparse
  simp only [readLoop, field_of_le hword, field_of_le hlen, if_true, hparse]

/-- The reader after some leases, if there is room for them. -/
def addAll (opts : NameOptions) (r : Reader) (ls : List Lease) : Reader :=
  { r with leases := ls.foldl (leaseSetHostname opts) r.leases,
           leasesLeft := r.leasesLeft - ls.length }

theorem readLoop_lines (ls : List Lease) (h : ∀ l ∈ ls, l.Clear) (fuel : ℕ) (r : Reader)
    (hroom : ls.length ≤ r.leasesLeft) (file : List CString) :
    readLoop text opts (fuel + ls.length)
    r (ls.flatMap (fun l => (l.fields text).map Prod.fst) ++ file) =
      readLoop text opts fuel (r.addAll opts ls) file := by
  induction ls generalizing r with
  | nil => rfl
  | cons l ls ih =>
    have hleft : r.leasesLeft ≠ 0 := fun e => by simp [e] at hroom
    rw [flatMap_cons, append_assoc, length_cons, ← Nat.add_assoc,
      readLoop_line _ r (h l mem_cons_self),
      add, if_neg hleft, Option.bind_some, ih (fun x hx => h x (mem_cons_of_mem l hx))]
    · congr 1
      simp only [addAll, foldl_cons, length_cons, Reader.mk.injEq, true_and, and_true]
      omega
    · simp only [length_cons] at hroom ⊢
      omega

end Reader

end Dnsmasq.LeaseFile
