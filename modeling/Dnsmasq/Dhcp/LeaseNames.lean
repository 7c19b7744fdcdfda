import Dnsmasq.Util.Hostname

/-!
`lease_set_hostname`, which takes a name away from the lease that has it. The warning about a domain
is left out.
-/
namespace Dnsmasq.Dhcp.LeaseNames

open List

structure NamedLease where
  v6 : Bool := false
  clid : Option (List UInt8) := none
  hostname : Option CString := none
  fqdn : Option CString := none
  authName : Bool := false

/-- A call for one of the leases, with what `whine_malloc` returns in it. -/
structure NameCall (n : ℕ) where
  lease : Fin n
  name : Option CString
  auth : Bool := false
  domain : Option CString := none
  nameMemory : Bool := true
  fqdnMemory : Bool := true

variable {n : ℕ}

def NameCall.newName (c : NameCall n) : Option CString := if c.nameMemory then c.name else none

def NameCall.newFqdn (c : NameCall n) : Option CString :=
  if c.fqdnMemory then c.newName.bind fun name => c.domain.map fun domain => name ++ dot :: domain
    else none

def sameName : Option CString → Option CString → Bool
  | some a, some b => hostnameIsequal a b
  | _, _ => false

namespace NamedLease

/-- Leases that may not have the same name. Those of one DUID may. -/
def rivals (l other : NamedLease) : Bool :=
  if l.v6 then other.v6 && !(l.clid.isSome && decide (l.clid = other.clid)) else !other.v6

/-- The name that is compared; `fqdnMode` is the option `OPT_DHCP_FQDN`. -/
def key (fqdnMode : Bool) (l : NamedLease) : Option CString := if fqdnMode then l.fqdn
    else l.hostname

def killName (l : NamedLease) : NamedLease := { l with hostname := none, fqdn := none }

def take (c : NameCall n) (l : NamedLease) : NamedLease :=
  { l with hostname := c.newName, fqdn := c.newFqdn, authName := l.authName || c.auth }

end NamedLease

abbrev Leases (n : ℕ) := Fin n → NamedLease

variable (fqdnMode : Bool) (leases : Leases n) (c : NameCall n)

def clash (i : Fin n) : Bool :=
  sameName ((leases i).key fqdnMode) (((leases c.lease).take c).key fqdnMode) &&
    (leases c.lease).rivals (leases i)

def holder : Option (Fin n) := (List.finRange n).find? (clash fqdnMode leases c)

/-- The call does not return before the name of the lease is replaced. -/
def renames : Bool :=
  !sameName (leases c.lease).hostname c.name &&
    (c.name.isSome || (leases c.lease).hostname.isSome) &&
    (c.auth || !(holder fqdnMode leases c).any fun k => (leases k).authName)

def leaseSetHostname (i : Fin n) : NamedLease :=
  if renames fqdnMode leases c then
    if i = c.lease then (leases i).take c
    else if holder fqdnMode leases c = some i then (leases i).killName
    else leases i
  else if i = c.lease ∧ sameName (leases i).hostname c.name ∧
    c.auth then { leases i with authName := true }
  else leases i

def Always {σ : Type} (step : σ → NameCall n → σ) (P : σ → NameCall n → Prop) :
    σ → List (NameCall n) → Prop
  | _, [] => True
  | s, c :: calls => P s c ∧ Always step P (step s c) calls

def Distinct (v6 : Bool) : Prop :=
  ∀ i j, i ≠ j → (leases i).v6 = v6 → (leases i).rivals (leases j) = true →
    sameName ((leases i).key fqdnMode) ((leases j).key fqdnMode) = false

/-- A call for an IPv6 lease finds the name with one lease at most. -/
def OneHolder : Prop :=
  (leases c.lease).v6 = true → ∀ i j, clash fqdnMode leases c i = true →
    clash fqdnMode leases c j = true → i = j

theorem sameName_comm (a b : Option CString) : sameName a b = sameName b a := by
  cases a <;> cases b <;> simp [sameName, hostnameIsequal_comm]

theorem sameName_trans {a b c : Option CString} (h : sameName a c = true)
    (h' : sameName b c = true) : sameName a b = true := by
  cases a <;> cases b <;> cases c <;> simp_all only [sameName, Bool.false_eq_true]
  exact hostnameIsequal_trans h (hostnameIsequal_symm h')

theorem rivals_comm (a b : NamedLease) : a.rivals b = b.rivals a := by
  simp only [NamedLease.rivals]
  by_cases h : a.clid = b.clid
  · rw [h]
    cases a.v6 <;> cases b.v6 <;> rfl
  · cases a.v6 <;> cases b.v6 <;> simp [h, Ne.symm h]

variable {fqdnMode leases c} {v6 : Bool}

theorem v6_of_rivals {a b : NamedLease} (h : a.rivals b = true) : b.v6 = a.v6 := by
  revert h
  simp only [NamedLease.rivals]
  cases a.v6 <;> cases b.v6 <;> simp

theorem sameName_killName (l : NamedLease) (name : Option CString) :
    sameName (l.killName.key fqdnMode) name = false := by
  cases fqdnMode <;> rfl

section

variable (hd : Distinct fqdnMode leases v6) (hone : v6 = true → OneHolder fqdnMode leases c)
include hd hone

theorem Distinct.new (hv : (leases c.lease).v6 = v6) {i : Fin n}
    (hr : (leases c.lease).rivals (leases i) = true) (hi : holder fqdnMode leases c ≠ some i) :
    sameName ((leases i).key fqdnMode) (((leases c.lease).take c).key fqdnMode) = false := by
  by_contra hsame
  have hclash : clash fqdnMode leases c i = true := by simp_all [clash]
  obtain ⟨k, hk⟩ : ∃ k, holder fqdnMode leases c = some k := by
    rw [← Option.isSome_iff_exists, holder, find?_isSome]
    exact ⟨i, mem_finRange i, hclash⟩
  have hki : k ≠ i := fun h => hi (h ▸ hk)
  have hkclash : clash fqdnMode leases c k = true := find?_some hk
  cases v6 with
  | true => exact hki (hone rfl hv k i hkclash hclash)
  | false =>
    obtain ⟨hksame, hkr⟩ := (Bool.and_eq_true _ _).mp hkclash
    have hdist := hd k i hki ((v6_of_rivals hkr).trans hv) (by
      simp [NamedLease.rivals, v6_of_rivals hkr, v6_of_rivals hr, hv])
    rw [sameName_trans hksame (by simpa using hsame)] at hdist
    cases hdist

theorem Distinct.leaseSetHostname : Distinct fqdnMode (leaseSetHostname fqdnMode leases c) v6 := by
  intro i j hne hv hr
  have hfields (k : Fin n) : (LeaseNames.leaseSetHostname fqdnMode leases c k).v6 = (leases k).v6 ∧
      (LeaseNames.leaseSetHostname fqdnMode leases c k).clid = (leases k).clid := by
    unfold LeaseNames.leaseSetHostname
    split_ifs <;> exact ⟨rfl, rfl⟩
  simp only [NamedLease.rivals, hfields] at hv hr
  have hold := hd i j hne hv hr
  unfold LeaseNames.leaseSetHostname
  split_ifs with hren hi hj hkj hki hj hkj hj hkj
  · exact absurd (hi.trans hj.symm) hne
  · rw [sameName_comm, sameName_killName]
  · subst hi
    rw [sameName_comm, hd.new hone hv hr hkj]
  · exact sameName_killName _ _
  · exact sameName_killName _ _
  · exact sameName_killName _ _
  · subst hj
    exact hd.new hone ((v6_of_rivals hr).trans hv) ((rivals_comm _ _).trans hr) hki
  · rw [sameName_comm, sameName_killName]
  all_goals exact hold

end

theorem Distinct.run {calls : List (NameCall n)} (hd : Distinct fqdnMode leases v6)
    (hone : v6 = true → Always (LeaseNames.leaseSetHostname fqdnMode) (OneHolder fqdnMode)
      leases calls) :
    Distinct fqdnMode (calls.foldl (LeaseNames.leaseSetHostname fqdnMode) leases) v6 := by
  induction calls generalizing leases with
  | nil => exact hd
  | cons c calls ih => exact ih (hd.leaseSetHostname fun h => (hone h).1) fun h => (hone h).2

/-- Names of IPv4 leases stay distinct. Those of IPv6 leases do if no name is taken that several
leases have, of which only the first loses it. -/
theorem run_names_distinct (fqdnMode : Bool) (calls : List (NameCall n)) (leases : Leases n)
    (h4 : Distinct fqdnMode leases false) (h6 : Distinct fqdnMode leases true) :
    Distinct fqdnMode (calls.foldl (leaseSetHostname fqdnMode) leases) false ∧
      (Always (leaseSetHostname fqdnMode) (OneHolder fqdnMode) leases calls →
        Distinct fqdnMode (calls.foldl (leaseSetHostname fqdnMode) leases) true) :=
  ⟨h4.run fun h => absurd h (by decide), fun hone => h6.run fun _ => hone⟩

/-- Two leases of each family, the IPv6 ones of different DUIDs. -/
def bothFamilies : Leases 4 :=
  ![{ v6 := true, clid := some [1] }, { v6 := true, clid := some [2] }, {}, {}]

/-- Each lease in turn takes the same name. -/
def sameNameCalls : List (NameCall 4) :=
    (List.finRange 4).map fun i => { lease := i, name := some [97] }

theorem run_names_distinct_bothFamilies :
    Always (leaseSetHostname false) (OneHolder false) bothFamilies sameNameCalls ∧
      Distinct false (sameNameCalls.foldl (leaseSetHostname false) bothFamilies) false ∧
      Distinct false (sameNameCalls.foldl (leaseSetHostname false) bothFamilies) true := by
  have h4 : Distinct false bothFamilies false := by
    unfold Distinct
    decide
  have h6 : Distinct false bothFamilies true := by
    unfold Distinct
    decide
  have hone : Always (leaseSetHostname false) (OneHolder false) bothFamilies sameNameCalls := by
    refine ⟨?_, ?_, ?_, ?_, trivial⟩ <;> unfold OneHolder <;> decide
  obtain ⟨hdistinct4, hdistinct6⟩ := run_names_distinct false sameNameCalls bothFamilies h4 h6
  exact ⟨hone, hdistinct4, hdistinct6 hone⟩

def unnamed : Leases 3 :=
  ![{ v6 := true, clid := some [1] }, { v6 := true, clid := some [1] },
    { v6 := true, clid := some [2] }]

/-- Two leases of one DUID have the name, a third of another takes it. -/
theorem run_shares_name : Distinct false unnamed true ∧
    ¬Distinct false ([{ lease := 0, name := some [97] }, { lease := 1, name := some [97] },
      { lease := 2, name := some [97] }].foldl (leaseSetHostname false) unnamed) true := by
  unfold Distinct
  decide

/-- The leases, and whose name a call with `auth` has given. -/
structure History (n : ℕ) where
  leases : Leases n
  given : Fin n → Bool

def History.step (fqdnMode : Bool) (h : History n) (c : NameCall n) : History n where
  leases := leaseSetHostname fqdnMode h.leases c
  given i :=
    let name := (leaseSetHostname fqdnMode h.leases c i).hostname
    h.given i && decide ((h.leases i).hostname = name) || decide (i = c.lease) && c.auth &&
      sameName name c.name

/-- The flag is set for the names that a call with `auth` has given. -/
def FlagsRight (h : History n) : Prop :=
  ∀ i, (h.leases i).authName = ((h.leases i).hostname.isSome && h.given i)

/-- Where a name is replaced, no flag is left over: not at the lease that gets the name if the name
is not from the configuration or cannot be stored, and not at the one that loses it. -/
def NoFlagLeft (fqdnMode : Bool) (h : History n) (c : NameCall n) : Prop :=
  renames fqdnMode h.leases c = true → ∀ i,
    if i = c.lease then (if c.auth then c.newName.isSome else !(h.leases i).authName) = true
    else holder fqdnMode h.leases c = some i → (h.leases i).authName = false

theorem newName_given {given : Bool} {hostname : Option CString}
    (h : sameName hostname c.name = false) :
    (c.newName.isSome && (given && decide (hostname = c.newName) || c.auth &&
      sameName c.newName c.name)) = (c.newName.isSome && c.auth) := by
  unfold NameCall.newName
  cases hc : c.name with
  | none => simp
  | some name =>
    have hne : hostname ≠ some name := by
      rintro rfl
      simp [hc, sameName, hostnameIsequal] at h
    cases c.nameMemory <;> simp [hne, sameName, hostnameIsequal]

theorem flagsRight_step_iff {h : History n} (hright : FlagsRight h) :
    FlagsRight (h.step fqdnMode c) ↔ NoFlagLeft fqdnMode h c := by
  by_cases hren : renames fqdnMode h.leases c = true
  · have hname : sameName (h.leases c.lease).hostname c.name = false := by
      simp only [renames, Bool.and_eq_true, Bool.not_eq_true'] at hren
      exact hren.1.1
    simp only [FlagsRight, NoFlagLeft, History.step, leaseSetHostname, hren, if_true, forall_const]
    refine forall_congr' fun i => ?_
    by_cases hi : i = c.lease
    · subst hi
      simp only [if_true, NamedLease.take, decide_true, Bool.true_and, newName_given hname]
      cases c.auth <;> cases (h.leases c.lease).authName <;> simp
    · by_cases hk : holder fqdnMode h.leases c = some i <;>
        simp [hi, hk, NamedLease.killName, hright i]
  refine iff_of_true (fun i => ?_) fun h' => absurd h' hren
  simp only [History.step, leaseSetHostname, hren, if_false, Bool.false_eq_true]
  by_cases hset : i = c.lease ∧ sameName (h.leases i).hostname c.name = true ∧ c.auth = true
  · obtain ⟨rfl, hsame, hauth⟩ := hset
    have hsome : (h.leases c.lease).hostname.isSome = true := by
      cases hhost : (h.leases c.lease).hostname with
      | none => simp [hhost, sameName] at hsame
      | some name => rfl
    simp [hsame, hauth, hsome]
  have hnot : (decide (i = c.lease) && c.auth &&
      sameName (h.leases i).hostname c.name) = false := by
    by_contra hall
    simp_all
  simp [hset, hnot, hright i]

/-- The flag is right after each call of a run exactly if none is left over at any. -/
theorem run_flagsRight_iff (fqdnMode : Bool) (calls : List (NameCall n)) (h : History n)
    (hright : FlagsRight h) : Always (History.step fqdnMode)
    (fun h c => FlagsRight (h.step fqdnMode c)) h calls ↔
      Always (History.step fqdnMode) (NoFlagLeft fqdnMode) h calls := by
  induction calls generalizing h with
  | nil => exact Iff.rfl
  | cons c calls ih =>
    simp only [Always, flagsRight_step_iff hright]
    exact and_congr_right fun hfits => ih _ ((flagsRight_step_iff hright).mpr hfits)

def unnamedHistory : History 3 := ⟨unnamed, fun _ => false⟩

theorem run_flagsRight_configured : FlagsRight unnamedHistory ∧
    Always (History.step false) (fun h c => FlagsRight (h.step false c))
    unnamedHistory [{ lease := 0, name := some [97], auth := true }] := by
  have hright : FlagsRight unnamedHistory := by
    unfold FlagsRight
    decide
  refine ⟨hright, (run_flagsRight_iff false _ unnamedHistory hright).mpr ⟨?_, trivial⟩⟩
  unfold NoFlagLeft
  decide

/-- A name of the client replaces one of the configuration and keeps its flag. -/
theorem run_leaves_flag : FlagsRight unnamedHistory ∧ ¬FlagsRight
    ([{ lease := 0, name := some [97], auth := true },
    { lease := 0, name := some [98] }].foldl (History.step false) unnamedHistory) := by
  unfold FlagsRight
  decide

end Dnsmasq.Dhcp.LeaseNames
