import Dnsmasq.Lib.Mask
import Dnsmasq.Util.Hostname
import Dnsmasq.Lib.BinarySearch

/-!
The server array of `domain-match.c`, its comparison functions, and `filter_servers`, which narrows
a group of entries with one domain to the range that answers a query.
-/
namespace Dnsmasq.DomainMatch

def servLiteralAddress : BitVec 16 := 1
def servUseResolv : BitVec 16 := 2
def servAllZeros : BitVec 16 := 4
def serv4addr : BitVec 16 := 8
def serv6addr : BitVec 16 := 16
def servForNodots : BitVec 16 := 64
def servWildcard : BitVec 16 := 1024
def servDoDnssec : BitVec 16 := 16384

def servLocalAddress : BitVec 16 := serv6addr ||| serv4addr ||| servAllZeros

def fIpv4 : BitVec 32 := 1#32 <<< 7
def fIpv6 : BitVec 32 := 1#32 <<< 8
def fConfig : BitVec 32 := 1#32 <<< 13
def fDnssecok : BitVec 32 := 1#32 <<< 15
def fServer : BitVec 32 := 1#32 <<< 18
def fDomainsrv : BitVec 32 := 1#32 <<< 28

/-- The option parser sets `SERV_FOR_NODOTS` only on the empty domain of `server=//...`. -/
structure Server where
  flags : BitVec 16
  domain : CString
  serial : ℤ := 0
  nodots_domain : Mask.test flags servForNodots = true → domain = [] := by decide
  deriving DecidableEq

theorem nodots_anyName : Mask.test 0 servForNodots = true → ([] : CString) = [] := fun _ => rfl

namespace Server

def has (s : Server) (mask : BitVec 16) : Bool := Mask.test s.flags mask

def domainLen (s : Server) : ℕ := s.domain.length

theorem domain_of_nodots {s : Server} (h : s.has servForNodots = true) : s.domain = [] :=
  s.nodots_domain h

end Server

/-- Entries for dotless names sort last; longer domains sort before shorter ones. -/
def order (qdomain : CString) (qlen : ℕ) (serv : Server) : ℤ :=
  if serv.has servForNodots then -1
  else if qlen < serv.domainLen then 1
  else if serv.domainLen < qlen then -1
  else hostnameOrder qdomain serv.domain

def orderServers (s1 s2 : Server) : ℤ :=
  if s1.has servForNodots then (if s2.has servForNodots then 0 else 1)
  else
    let rc := order s1.domain s1.domainLen s2
    if rc ≠ 0 then rc
    else if s1.has servWildcard then (if s2.has servWildcard then 0 else 1)
    else (if s2.has servWildcard then -1 else 0)

/-- The literal bit is flipped, so that within one domain the order is IPv6 literal, IPv4
literal, all-zeros literal, `resolv.conf` servers, upstream servers, no-data literal. -/
def qsortKey (s : Server) : ℤ :=
  ((s.flags &&& (servLiteralAddress ||| serv4addr ||| serv6addr ||| servUseResolv |||
    servAllZeros)) ^^^ servLiteralAddress).toNat

def orderQsort (s1 s2 : Server) : ℤ :=
  let rc := orderServers s1 s2
  let rc := if rc = 0 then qsortKey s2 - qsortKey s1 else rc
  if rc = 0 ∧ ¬ s1.has servLiteralAddress then s1.serial - s2.serial else rc

/-- What `qsort` may leave in `serverarray`: any arrangement of the entries that the
comparison accepts. Ties of `order_qsort` come in no particular order. -/
structure IsServerArray (servers arr : List Server) : Prop where
  perm : arr.Perm servers
  sorted : arr.Pairwise fun s1 s2 => orderQsort s1 s2 ≤ 0

/-- `server_has_wildcard` is only ever set, so an entry from an earlier configuration
keeps it set. -/
structure Daemon where
  serverarray : List Server
  serverHasWildcard : Bool

variable (arr : List Server)

def sameGroup (i j : ℕ) : Bool :=
  match arr[i]?, arr[j]? with
  | some a, some b => orderServers a b = 0
  | _, _ => false

def expandLow (arr : List Server) : ℕ → ℕ
  | 0 => 0
  | nlow + 1 => if sameGroup arr nlow (nlow + 1) then expandLow arr nlow else nlow + 1

def expandHigh (arr : List Server) : ℕ → ℕ → ℕ
  | 0, nhigh => nhigh
  | fuel + 1, nhigh =>
    if nhigh < arr.length - 1 ∧ sameGroup arr nhigh (nhigh + 1) then
      expandHigh arr fuel (nhigh + 1)
    else nhigh

/-- `for (i = lo; i < hi && p(serverarray[i]); i++);` -/
def scan (p : Server → Bool) (lo hi : ℕ) : ℕ :=
  lo + (((arr.drop lo).take (hi - lo)).takeWhile p).length

/-- The part of `filter_servers` after the range covers one whole group. -/
def narrow (flags : BitVec 32) (nlow nhigh : ℕ) : ℕ × ℕ :=
  if Mask.test flags fConfig then
    if scan arr (fun s => !s.has servLocalAddress) nlow nhigh = nhigh then (nlow, nlow)
    else (nlow, nhigh)
  else
    let i6 := scan arr (·.has serv6addr) nlow nhigh
    if i6 ≠ nlow ∧ Mask.test flags fIpv6 then (nlow, i6)
    else
      let i4 := scan arr (·.has serv4addr) i6 nhigh
      if i4 ≠ i6 ∧ Mask.test flags fIpv4 then (i6, i4)
      else
        let iz := scan arr (·.has servAllZeros) i4 nhigh
        if iz ≠ i4 ∧ Mask.test flags (fIpv4 ||| fIpv6) then (i4, iz)
        else
          let ir := scan arr (·.has servUseResolv) iz nhigh
          if ir ≠ iz then (iz, ir)
          else
            let iu := scan arr (fun s => !s.has servLiteralAddress) ir nhigh
            if iu ≠ ir then
              if Mask.test flags fDnssecok ∧ !(arr[ir]?.any (·.has servDoDnssec)) then
                (nhigh, nhigh)
              else if Mask.test flags fDomainsrv ∧ arr[ir]?.any (·.domainLen = 0) then
                (nhigh, nhigh)
              else (ir, iu)
            else if Mask.test flags (fDnssecok ||| fDomainsrv ||| fServer) then (ir, ir)
            else (ir, nhigh)

/-- The range `[low, high)` that answers for the group of entry `seed`. -/
def filterServers (seed : ℕ) (flags : BitVec 32) : ℕ × ℕ :=
  narrow arr flags (expandLow arr seed) (expandHigh arr arr.length seed + 1)

/-!
`lookup_domain`. One binary search is run for each remaining suffix of the query; the lower bound is
kept, and a failed search crops the query to the longest domain that can still match.
-/
/-- The position is at the start of the query, at its end, or just after a dot. -/
def atLabel (domain : CString) (off : ℕ) : Bool :=
  off = 0 ∨ domain.length ≤ off ∨ domain[off - 1]? = some dot

/-- `while (qlen > 0 && *(qdomain-1) != '.') qlen--, qdomain++;` -/
def skipLabel (domain : CString) : ℕ → ℕ → ℕ
  | 0, off => off
  | qlen + 1, off =>
    if domain[off - 1]? = some dot then off else skipLabel domain qlen (off + 1)

def compareAt (arr : List Server) (qdomain : CString) (i : ℕ) : Option ℤ :=
  arr[i]?.map (order qdomain qdomain.length)

/-- Characters to strip after the search ended behind entry `probe`: down to the first
later domain of another length. -/
def cropAfter (arr : List Server) (qlen : ℤ) (probe : ℕ) (old : ℕ) : ℤ :=
  match (arr.drop (probe + 1)).find? (fun s => s.domainLen ≠ old) with
  | some s => qlen - s.domainLen
  | none => 1

def rewind (arr : List Server) (qdomain : CString) : ℕ → ℕ
  | 0 => 0
  | i + 1 => if compareAt arr qdomain i = some 0 then rewind arr qdomain i else i + 1

def advance (arr : List Server) (qdomain : CString) : ℕ → ℕ → ℕ
  | 0, i => i
  | fuel + 1, i =>
    if i < arr.length - 1 ∧ compareAt arr qdomain (i + 1) = some 0 then
      advance arr qdomain fuel (i + 1)
    else i

/-- The entry a hit of the binary search stands for. With wildcards configured, a hit that
does not start at a label counts only when a wildcard entry has the domain. -/
def resolveHit (d : Daemon) (domain : CString) (off probe : ℕ) : Option ℕ :=
  if d.serverHasWildcard then
    let first := rewind d.serverarray (domain.drop off) probe
    if atLabel domain off then some first
    else
      let last := advance d.serverarray (domain.drop off) d.serverarray.length first
      if d.serverarray[last]?.any (·.has servWildcard) then some last else none
  else some probe

/-- Strip `crop` characters, at least one, and go on to the next label. -/
def nextOffset (d : Daemon) (domain : CString) (off : ℕ) (crop : ℤ) : ℕ :=
  let off' := (off + if crop = 0 then 1 else crop).toNat
  if d.serverHasWildcard then off' else skipLabel domain (domain.length - off') off'

/-- The search over shorter and shorter suffixes. `off` is how far `qdomain` has moved
into the query, so `qlen >= 0` reads `off ≤ domain.length`. -/
def searchSuffixes (d : Daemon) (domain : CString) (flags : BitVec 32) :
    ℕ → ℕ → ℕ → ℕ × ℕ → Option (ℕ × ℕ)
  | 0, _, _, _ => none
  | fuel + 1, off, low, range =>
    if domain.length < off then some range
    else
      let arr := d.serverarray
      let qdomain := domain.drop off
      let qlen : ℤ := domain.length - off
      match BinarySearch.run (compareAt arr qdomain) (arr.length + 2) low arr.length with
      | none => none
      | some (.before probe low) =>
        match arr[probe]? with
        | none => none
        | some s => searchSuffixes d domain flags fuel
            (nextOffset d domain off (qlen - s.domainLen)) low range
      | some (.after probe low) =>
        match arr[probe]? with
        | none => none
        | some s => searchSuffixes d domain flags fuel
            (nextOffset d domain off (cropAfter arr qlen probe s.domainLen)) low range
      | some (.found probe low) =>
        match resolveHit d domain off probe with
        | none => searchSuffixes d domain flags fuel (nextOffset d domain off 1) low range
        | some seed =>
          let range := filterServers arr seed flags
          if range.1 = range.2 then
            searchSuffixes d domain flags fuel (nextOffset d domain off 1) low range
          else
            match arr[range.1]? with
            | none => none
            | some s =>
              -- Told to use the servers without a domain: go on with the empty query.
              if s.has servUseResolv then
                searchSuffixes d domain flags fuel (nextOffset d domain off qlen) low range
              else some range

/-- The return value, and what was stored through `lowout` and `highout`. -/
structure LookupResult where
  ret : Bool
  out : Option (ℕ × ℕ)
  deriving DecidableEq, Repr

/-- The range the caller may use: the stored one, when the return value announces it. -/
def LookupResult.range (r : LookupResult) : Option (ℕ × ℕ) := if r.ret then r.out else none

/-- Dotless names go to the servers configured for them. The empty name and searches for
DNSSEC queries are never diverted. -/
def wantsNodots (domain : CString) (flags : BitVec 32) : Bool :=
  !domain.contains dot && !(domain.isEmpty || Mask.test flags fDnssecok)

def lookupDomain (d : Daemon) (domain : CString) (flags : BitVec 32) : Option LookupResult :=
  let arr := d.serverarray
  if arr.length = 0 then some ⟨false, none⟩
  else
    match searchSuffixes d domain flags (domain.length + 2) 0 0 (0, 0) with
    | none => none
    | some range =>
      let range :=
        if wantsNodots domain flags ∧ arr[arr.length - 1]?.any (·.has servForNodots) ∧
            (range.1 = range.2 ∨ arr[range.1]?.any (·.domainLen = 0)) then
          filterServers arr (arr.length - 1) flags
        else range
      some ⟨range.1 ≠ range.2, some range⟩

end Dnsmasq.DomainMatch
