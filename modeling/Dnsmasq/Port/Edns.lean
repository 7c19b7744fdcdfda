import Dnsmasq.Port.Names

/-!
The Rust port: `OptRecord::from_bytes` of `dns/edns.rs`. It returns unless it comes to a client
subnet option that has more address bytes than the address.
-/
namespace Dnsmasq.Port

open Lib Outcome BigEndian

inductive EdnsError where
  | malformedOption (reason : String)
  | unsupportedVersion (version : UInt8)
  | invalidAddress (reason : String)
  | packetTooShort (needed available : ℕ)
  deriving DecidableEq, Repr

abbrev EdnsResult := Outcome EdnsError

inductive IpAddr where
  | v4 (octets : Vector UInt8 4)
  | v6 (octets : Vector UInt8 16)
  deriving DecidableEq, Repr

structure ClientSubnetInfo where
  family : UInt16
  sourcePrefix : UInt8
  scopePrefix : UInt8
  address : IpAddr
  deriving DecidableEq, Repr

structure ExtendedErrorInfo where
  infoCode : UInt16
  extraText : Text
  deriving DecidableEq, Repr

inductive EdnsOption where
  | clientSubnet (info : ClientSubnetInfo)
  | cookie (client : Vector UInt8 8) (server : Option Bytes)
  | padding (length : ℕ)
  | extendedError (info : ExtendedErrorInfo)
  | umbrella (deviceId : Bytes) (orgId : Option Bytes)
  | unknown (code : UInt16) (data : Bytes)
  deriving DecidableEq, Repr

structure OptRecord where
  udpPayloadSize : UInt16
  extendedRcode : UInt8
  version : UInt8
  dnssecOk : Bool
  options : List EdnsOption
  deriving DecidableEq, Repr

namespace Edns

def clientSubnet : UInt16 := 8
def cookie : UInt16 := 10
def padding : UInt16 := 12
def extendedError : UInt16 := 15
def umbrella : UInt16 := 20292

/-- `addr_bytes[..addr_len].copy_from_slice(src)` in an array of `n` zeros. -/
def copyFromSlice (n : ℕ) (src : Bytes) : EdnsResult (Vector UInt8 n) :=
  if h : src.length ≤ n then .ok ⟨(src ++ List.replicate (n - src.length) 0).toArray, by simp [h]⟩
    else .panic

/-- The address bytes of a subnet with a prefix of `sourcePrefix` bits. -/
def addrLen (sourcePrefix : UInt8) : ℕ := (sourcePrefix.toNat + 7) / 8

def subnetAddress (n : ℕ) (sourcePrefix : UInt8) (data : Bytes) : EdnsResult (Vector UInt8 n) := do
  check (decide (4 + addrLen sourcePrefix ≤ data.length))
    (.packetTooShort (4 + addrLen sourcePrefix) data.length)
  let src ← slice data 4 (4 + addrLen sourcePrefix)
  copyFromSlice n src

def familyAddress (family : UInt16) (sourcePrefix : UInt8) (data : Bytes) : EdnsResult IpAddr :=
  match family with
  | 1 => do
      let octets ← subnetAddress 4 sourcePrefix data
      return .v4 octets
  | 2 => do
      let octets ← subnetAddress 16 sourcePrefix data
      return .v6 octets
  | _ => .err (.invalidAddress s!"Unsupported address family: {family}")

variable (data : Bytes)

def clientSubnetFromBytes : EdnsResult ClientSubnetInfo := do
  check (decide (4 ≤ data.length)) (.packetTooShort 4 data.length)
  let (family, cursor) ← readU16 (.malformedOption "Failed to read family") data
  let (sourcePrefix, cursor) ← readU8 (.malformedOption "Failed to read source prefix") cursor
  let (scopePrefix, _) ← readU8 (.malformedOption "Failed to read scope prefix") cursor
  let address ← familyAddress family sourcePrefix data
  return { family, sourcePrefix, scopePrefix, address }

def extraText : EdnsResult Text :=
  if 2 < data.length then do
    let text ← sliceFrom data 2
    check (isUtf8 text) (.malformedOption "Invalid UTF-8 in extra text")
    return text
  else .ok []

def extendedErrorFromBytes : EdnsResult ExtendedErrorInfo := do
  check (decide (2 ≤ data.length)) (.packetTooShort 2 data.length)
  let (infoCode, _) ← readU16 (.malformedOption "Failed to read info code") data
  let extraText ← extraText data
  return { infoCode, extraText }

/-- The first `n` bytes, and the others if there are any. -/
def splitData (n : ℕ) (short : String) : EdnsResult (Bytes × Option Bytes) := do
  let len := data.length
  check (decide (n ≤ len)) (.malformedOption s!"{short} too short: {len} bytes (need at least {n})")
  let first ← slice data 0 n
  if n < len then do
    let rest ← sliceFrom data n
    return (first, some rest)
  else return (first, none)

def fromCodeAndData (code : UInt16) (data : Bytes) : EdnsResult EdnsOption :=
  if code = clientSubnet then do
    let info ← clientSubnetFromBytes data
    return .clientSubnet info
  else if code = cookie then do
    let (first, server) ← splitData data 8 "Cookie"
    let client ← copyFromSlice 8 first
    return .cookie client server
  else if code = padding then .ok (.padding data.length)
  else if code = extendedError then do
    let info ← extendedErrorFromBytes data
    return .extendedError info
  else if code = umbrella then do
    let (deviceId, orgId) ← splitData data 4 "Umbrella option"
    return .umbrella deviceId orgId
  else .ok (.unknown code data)

def nextOption (rdata : Bytes) : EdnsResult (UInt16 × Bytes × Bytes) := do
  let (code, cursor) ← readU16 (.malformedOption "Failed to read option code") rdata
  let (length, _) ← readU16 (.malformedOption "Failed to read option length") cursor
  check (decide (4 + length.toNat ≤ rdata.length)) (.packetTooShort (4 + length.toNat) rdata.length)
  let data ← slice rdata 4 (4 + length.toNat)
  let rest ← sliceFrom rdata (4 + length.toNat)
  return (code, data, rest)

/-- One turn of the loop of `parse_options`. -/
def parseOption (s : Bytes × List EdnsOption) :
    EdnsResult ((Bytes × List EdnsOption) ⊕ List EdnsOption) :=
  if 4 ≤ s.1.length then do
    let (code, data, rest) ← nextOption s.1
    let option ← fromCodeAndData code data
    return .inl (rest, s.2 ++ [option])
  else .ok (.inr s.2)

def parseOptions (rdata : Bytes) : EdnsResult (List EdnsOption) :=
    loop parseOption (rdata.length + 1) (rdata, [])

def version (ttlBytes : UInt32) : UInt8 := ((ttlBytes >>> 16) &&& 0xFF).toUInt8

def fromBytes (udpPayloadSize : UInt16) (ttlBytes : UInt32) (rdata : Bytes) :
    EdnsResult OptRecord := do
  let extendedRcode := ((ttlBytes >>> 24) &&& 0xFF).toUInt8
  let version := version ttlBytes
  let flags := (ttlBytes &&& 0xFFFF).toUInt16
  check (version == 0) (.unsupportedVersion version)
  let options ← parseOptions rdata
  return { udpPayloadSize, extendedRcode, version,
           dnssecOk := decide (flags &&& 0x8000 ≠ 0), options }

def octets : UInt16 → Option ℕ
  | 1 => some 4
  | 2 => some 16
  | _ => none

/-- The data of a client subnet option whose prefix asks for more bytes than an address of its
family has, and that has these bytes. -/
def Oversized : Prop :=
  ∃ hi lo sourcePrefix scopePrefix addr n, data = hi :: lo :: sourcePrefix :: scopePrefix :: addr ∧
    octets (UInt16.ofNat (hi.toNat * 256 + lo.toNat)) = some n ∧ n < addrLen sourcePrefix ∧
      addrLen sourcePrefix ≤ addr.length

variable {n : ℕ} {sourcePrefix : UInt8} {data rdata : Bytes} {short : String}

theorem safe_copyFromSlice_iff {src : Bytes} : (copyFromSlice n src).Safe ↔ src.length ≤ n := by
  unfold copyFromSlice
  split_ifs with h
  · simp [h]
  · simp [h, Safe]

theorem safe_subnetAddress_iff :
    (subnetAddress n sourcePrefix data).Safe ↔
    ¬ (n < addrLen sourcePrefix ∧ 4 + addrLen sourcePrefix ≤ data.length) := by
  rw [subnetAddress, safe_bind_iff]
  constructor
  · rintro ⟨-, h⟩ ⟨hn, hlen⟩
    have hcheck := h () (check_eq_ok.mpr (by simpa using hlen))
    rw [slice, if_pos ⟨by omega, hlen⟩, ok_bind, safe_copyFromSlice_iff] at hcheck
    simp only [List.length_drop, List.length_take] at hcheck
    omega
  intro h
  refine ⟨safe_check _ _, fun _ hcheck => ?_⟩
  have hlen : 4 + addrLen sourcePrefix ≤ data.length := by simpa using check_eq_ok.mp hcheck
  rw [slice, if_pos ⟨by omega, hlen⟩, ok_bind, safe_copyFromSlice_iff]
  simp only [List.length_drop, List.length_take]
  omega

theorem safe_familyAddress_iff {family : UInt16} : (familyAddress family sourcePrefix data).Safe ↔
      ∀ n, octets family = some n → ¬ (n < addrLen sourcePrefix ∧
        4 + addrLen sourcePrefix ≤ data.length) := by
  unfold familyAddress octets
  split
  · simp [safe_bind_iff, safe_subnetAddress_iff]
  · simp [safe_bind_iff, safe_subnetAddress_iff]
  · simp

theorem safe_clientSubnetFromBytes_iff : (clientSubnetFromBytes data).Safe ↔ ¬ Oversized data := by
  rcases data with _ | ⟨hi, _ | ⟨lo, _ | ⟨sourcePrefix, _ | ⟨scopePrefix, addr⟩⟩⟩⟩
  · simp [clientSubnetFromBytes, Oversized]
  · simp [clientSubnetFromBytes, Oversized]
  · simp [clientSubnetFromBytes, Oversized]
  · simp [clientSubnetFromBytes, Oversized]
  have hlen : 4 ≤ (hi :: lo :: sourcePrefix :: scopePrefix :: addr).length := by simp
  simp only [clientSubnetFromBytes, decide_eq_true hlen, check_true, ok_bind, readU16, readU8,
    safe_bind_iff, safe_familyAddress_iff, Oversized]
  constructor
  · rintro ⟨h, -⟩ ⟨_, _, _, _, _, n, heq, hn, hlt, hle⟩
    cases heq
    exact h n hn ⟨hlt, by simp only [List.length_cons]; omega⟩
  intro h
  refine ⟨fun n hn hlt => ?_, fun _ _ => safe_ok _⟩
  obtain ⟨hlt, hle⟩ := hlt
  simp only [List.length_cons] at hle
  exact h ⟨hi, lo, sourcePrefix, scopePrefix, addr, n, rfl, hn, hlt, by omega⟩

theorem safe_splitData : (splitData data n short).Safe := by
  refine (safe_check _ _).bind fun _ hlen => (safe_slice_iff.mpr ?_).bind fun _ _ => ?_
  · simpa using check_eq_ok.mp hlen
  · split_ifs with h
    · exact (safe_sliceFrom_iff.mpr h.le).bind fun _ _ => safe_ok _
    · exact safe_ok _

theorem length_of_splitData {first : Bytes} {rest : Option Bytes}
    (h : splitData data n short = .ok (first, rest)) : first.length = n := by
  simp only [splitData, bind_eq_ok] at h
  obtain ⟨-, -, first', hfirst, h⟩ := h
  have hn := length_of_slice hfirst
  split_ifs at h
  · obtain ⟨_, -, h⟩ := bind_eq_ok.mp h
    cases h
    simpa using hn
  · cases h
    simpa using hn

theorem safe_extendedErrorFromBytes : (extendedErrorFromBytes data).Safe := by
  have htext : (extraText data).Safe := by
    unfold extraText
    split_ifs with h
    · exact (safe_sliceFrom_iff.mpr h.le).bind fun _ _ => (safe_check _ _).bind fun _ _ => safe_ok _
    · exact safe_ok _
  simp [extendedErrorFromBytes, safe_bind_iff, htext]

theorem safe_fromCodeAndData_iff (code : UInt16) (data : Bytes) :
    (fromCodeAndData code data).Safe ↔ ¬ (code = clientSubnet ∧ Oversized data) := by
  unfold fromCodeAndData
  split_ifs with hsubnet hcookie hpadding herror humbrella
  · simp [safe_bind_iff, safe_clientSubnetFromBytes_iff, hsubnet]
  · simp only [hsubnet, false_and, not_false_eq_true, iff_true]
    refine safe_splitData.bind fun p hp => (safe_copyFromSlice_iff.mpr ?_).bind fun _ _ => safe_ok _
    exact (length_of_splitData hp).le
  · simp [hsubnet]
  · simp [safe_bind_iff, safe_extendedErrorFromBytes, hsubnet]
  · simp [safe_bind_iff, safe_splitData, hsubnet]
  · simp [hsubnet]

theorem safe_nextOption (rdata : Bytes) : (nextOption rdata).Safe := by
  refine (safe_readU16 _ _).bind fun _ _ => (safe_readU16 _ _).bind fun p _ =>
    (safe_check _ _).bind fun _ hlen => ?_
  have hlen : 4 + p.1.toNat ≤ rdata.length := by simpa using check_eq_ok.mp hlen
  exact (safe_slice_iff.mpr ⟨by omega, hlen⟩).bind fun _ _ =>
    (safe_sliceFrom_iff.mpr hlen).bind fun _ _ => safe_ok _

theorem length_of_nextOption {rest : Bytes} {code : UInt16} (h : nextOption rdata =
    .ok (code, data, rest)) : rest.length < rdata.length := by
  simp only [nextOption, bind_eq_ok, check_eq_ok, decide_eq_true_eq] at h
  obtain ⟨_, -, p, -, -, hlen, _, -, _, hrest, h⟩ := h
  cases h
  have := length_of_slice hrest
  omega

/-- The options that the loop comes to: those behind it are not read when one is in error. -/
inductive ReachesOption : Bytes → UInt16 → Bytes → Prop
  | here {rdata data rest : Bytes} {code : UInt16} (hlen : 4 ≤ rdata.length) (h : nextOption rdata =
      .ok (code, data, rest)) : ReachesOption rdata code data
  | later {rdata data rest data' : Bytes} {code code' : UInt16} {option : EdnsOption}
      (hlen : 4 ≤ rdata.length)
      (h : nextOption rdata = .ok (code, data, rest)) (hok : fromCodeAndData code data = .ok option)
      (hrest : ReachesOption rest code' data') : ReachesOption rdata code' data'

theorem safe_loop_parseOption_iff
    {fuel : ℕ} {options : List EdnsOption} (hfuel : rdata.length < fuel) :
    (loop parseOption fuel (rdata, options)).Safe ↔
      ∀ code data, ReachesOption rdata code data → (fromCodeAndData code data).Safe := by
  induction fuel generalizing rdata options with
  | zero => omega
  | succ fuel ih =>
    rw [loop_succ, parseOption]
    by_cases hlen : 4 ≤ rdata.length
    · rw [if_pos hlen]
      cases hnext : nextOption rdata with
      | err e =>
        simp only [err_bind, safe_err, true_iff]
        rintro code data (⟨-, h⟩ | ⟨-, h, -, -⟩) <;> simp [hnext] at h
      | panic => exact absurd hnext (safe_nextOption rdata)
      | ok p =>
        obtain ⟨code, data, rest⟩ := p
        rw [ok_bind, bind_assoc]
        have hrest := length_of_nextOption hnext
        constructor
        · intro hsafe code' data' hreach
          obtain ⟨hone, hmore⟩ := safe_bind_iff.mp hsafe
          cases hreach with
          | here _ h =>
            cases hnext.symm.trans h
            exact hone
          | later _ h hok hreach =>
            cases hnext.symm.trans h
            exact (ih (by omega)).mp (hmore _ hok) code' data' hreach
        intro hall
        apply (hall code data (.here hlen hnext)).bind
        intro option hok
        exact (ih (by omega)).mpr fun code' data' hreach =>
          hall code' data' (.later hlen hnext hok hreach)
    · rw [if_neg hlen]
      simp only [ok_bind, Sum.elim_inr, safe_ok, true_iff]
      rintro code data (⟨h, -⟩ | ⟨h, -, -, -⟩) <;> exact absurd h hlen

/-- The RDATA asks for more bytes of an address than there are, in an option that is reached. -/
def AsksTooMuch (ttlBytes : UInt32) (rdata : Bytes) : Prop :=
  version ttlBytes = 0 ∧ ∃ data, ReachesOption rdata clientSubnet data ∧ Oversized data

theorem safe_fromBytes_iff (udpPayloadSize : UInt16) (ttlBytes : UInt32) (rdata : Bytes) :
    (fromBytes udpPayloadSize ttlBytes rdata).Safe ↔ ¬ AsksTooMuch ttlBytes rdata := by
  by_cases hversion : version ttlBytes = 0
  · have hoptions : (parseOptions rdata).Safe ↔ ¬ AsksTooMuch ttlBytes rdata := by
      rw [parseOptions, safe_loop_parseOption_iff (Nat.lt_succ_self _)]
      simp only [safe_fromCodeAndData_iff, AsksTooMuch, hversion, true_and]
      constructor
      · rintro h ⟨data, hreach, hbig⟩
        exact h _ data hreach ⟨rfl, hbig⟩
      · rintro h code data hreach ⟨rfl, hbig⟩
        exact h ⟨data, hreach, hbig⟩
    rw [← hoptions]
    simp [fromBytes, hversion, safe_bind_iff]
  · have hother : (version ttlBytes == 0) = false := by simpa using hversion
    simp [fromBytes, hother, hversion, AsksTooMuch]

end Edns

end Dnsmasq.Port
