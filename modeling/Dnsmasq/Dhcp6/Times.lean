import Dnsmasq.Dhcp.Times
import Dnsmasq.Dhcp6.Reply

/-!
The lifetimes of the addresses of an IA, and the times T1 and T2 that `end_ia` writes for it.
-/
namespace Dnsmasq.Dhcp6

open List

/-- An address of an IA, with the lifetimes that the client asks for. -/
structure Asked where
  context : Context
  valid : ℕ
  preferred : ℕ
  leaseTime : ℕ

namespace Asked

def times (a : Asked) (minTime : ℕ) : ℕ × ℕ × ℕ :=
  calculateTimes a.context minTime a.valid a.preferred a.leaseTime

/-- The valid lifetime is cut short and the preferred one, which the client leaves open, is not. -/
def Overlong (a : Asked) : Prop :=
  a.context.isDeprecated = false ∧ a.context.preferred ≠ 0 ∧
    a.preferred = 0 ∧ a.valid ≠ 0 ∧ max a.valid 120 < a.leaseTime

end Asked

/-- The least time, and each address with its valid and preferred lifetime. -/
def iaTimes (minTime : ℕ) : List Asked → ℕ × List (Asked × ℕ × ℕ)
  | [] => (minTime, [])
  | a :: asked =>
    let rest := iaTimes (a.times minTime).1 asked
    (rest.1, (a, (a.times minTime).2) :: rest.2)

/-- T1 and T2; `rand` is there if the times are to be fuzzed. -/
def endIa (minTime : ℕ) (rand : Option (BitVec 16)) : ℕ × ℕ :=
  let fuzz := (rand.map fun r => Dhcp.halveFuzz (minTime / 16) r.toNat).getD 0
  if minTime = 0xffffffff then (0xffffffff, 0xffffffff)
  else ((minTime / 2 + (2 ^ 32 - fuzz)) % 2 ^ 32, (minTime / 8 * 7 + (2 ^ 32 - fuzz)) % 2 ^ 32)

def LifetimesInOrder (asked : List Asked) (rand : Option (BitVec 16)) : Prop :=
  let ia := iaTimes 0xffffffff asked
  (∀ a ∈ ia.2, a.2.2 ≤ a.2.1 ∧ a.2.1 ≤ a.1.leaseTime) ∧
    (endIa ia.1 rand).1 ≤ (endIa ia.1 rand).2 ∧ ∀ a ∈ ia.2, (endIa ia.1 rand).2 ≤ a.2.1

variable {a : Asked} {minTime : ℕ}

theorem Asked.times_bounds (h : 120 ≤ a.leaseTime) (hmin : 120 ≤ minTime) :
    (a.times minTime).2.1 ≤ a.leaseTime ∧
    120 ≤ (a.times minTime).1 ∧ (a.times minTime).1 ≤ minTime ∧
    (a.times minTime).1 ≤ (a.times minTime).2.1 := by
  simp only [Asked.times, calculateTimes]
  split_ifs <;> omega

theorem Asked.times_ordered_iff (h : 120 ≤ a.leaseTime) :
    (a.times minTime).2.2 ≤ (a.times minTime).2.1 ↔ ¬a.Overlong := by
  simp only [Asked.times, calculateTimes, Asked.Overlong]
  by_cases hdep : a.context.isDeprecated = false ∧ a.context.preferred ≠ 0
  · simp only [hdep.1, hdep.2, beq_iff_eq, Bool.false_or, true_and, ne_eq,
      not_false_eq_true, ↓reduceIte]
    split_ifs <;> omega
  have hno : (a.context.isDeprecated || a.context.preferred == 0) = true := by
    grind
  rw [if_pos hno]
  exact iff_of_true (Nat.zero_le _) fun hlong => hdep ⟨hlong.1, hlong.2.1⟩

theorem endIa_le (rand : Option (BitVec 16)) (hmin : 120 ≤ minTime) (hmax : minTime ≤ 0xffffffff) :
    (endIa minTime rand).1 ≤ (endIa minTime rand).2 ∧ (endIa minTime rand).2 ≤ minTime := by
  have hfuzz : (rand.map fun r => Dhcp.halveFuzz (minTime / 16) r.toNat).getD 0 ≤ minTime / 16 := by
    cases rand with
    | none => exact Nat.zero_le _
    | some r => exact (Dhcp.halveFuzz_le _ _).1
  have hsub (x fuzz : ℕ) (hx : x < 2 ^ 32) (hle : fuzz ≤ x) : (x + (2 ^ 32 - fuzz)) % 2 ^ 32 =
      x - fuzz := by omega
  simp only [endIa]
  split_ifs with hinfinite
  · omega
  · rw [hsub _ _ (by omega) (by omega), hsub _ _ (by omega) (by omega)]
    omega

section

variable (asked : List Asked) (h : ∀ a ∈ asked, 120 ≤ a.leaseTime)
include h

theorem iaTimes_least (hmin : 120 ≤ minTime) :
    120 ≤ (iaTimes minTime asked).1 ∧ (iaTimes minTime asked).1 ≤ minTime ∧
      ∀ t ∈ (iaTimes minTime asked).2, (iaTimes minTime asked).1 ≤ t.2.1 ∧
        t.2.1 ≤ t.1.leaseTime := by
  induction asked generalizing minTime with
  | nil => exact ⟨hmin, Nat.le_refl minTime, fun t ht => absurd ht not_mem_nil⟩
  | cons a asked ih =>
    obtain ⟨hvalid, hleast, hle, hlevalid⟩ := Asked.times_bounds (h a mem_cons_self) hmin
    obtain ⟨hmin', hle', hrest⟩ := ih (fun b hb => h b (mem_cons_of_mem a hb)) hleast
    refine ⟨hmin', Nat.le_trans hle' hle, fun t ht => ?_⟩
    obtain rfl | ht := mem_cons.mp ht
    · exact ⟨Nat.le_trans hle' hlevalid, hvalid⟩
    · exact hrest t ht

theorem iaTimes_ordered_iff :
    (∀ t ∈ (iaTimes minTime asked).2, t.2.2 ≤ t.2.1) ↔ ∀ a ∈ asked, ¬a.Overlong := by
  induction asked generalizing minTime with
  | nil => exact iff_of_true (fun t ht => absurd ht not_mem_nil) fun a ha => absurd ha not_mem_nil
  | cons a asked ih =>
    simp only [iaTimes, forall_mem_cons]
    rw [Asked.times_ordered_iff (h a mem_cons_self), ih fun b hb => h b (mem_cons_of_mem a hb)]

end

theorem lifetimesInOrder_iff (asked : List Asked) (rand : Option (BitVec 16)) (h : ∀ a ∈ asked,
    120 ≤ a.leaseTime) : LifetimesInOrder asked rand ↔ ∀ a ∈ asked, ¬a.Overlong := by
  obtain ⟨hmin, hmax, hvalid⟩ := @iaTimes_least 0xffffffff asked h (by decide)
  obtain ⟨ht1, ht2⟩ := endIa_le rand hmin hmax
  rw [← iaTimes_ordered_iff asked h]
  constructor
  · rintro ⟨hordered, -⟩ t ht
    exact (hordered t ht).1
  · intro hordered
    exact ⟨fun t ht => ⟨hordered t ht, (hvalid t ht).2⟩, ht1,
      fun t ht => Nat.le_trans ht2 (hvalid t ht).1⟩

def openPreferred : Asked := ⟨{ start := ⟨0, 16⟩, stop := ⟨0, 32⟩ }, 600, 0, 3600⟩

/-- For one address both lifetimes are asked for, for another none. -/
theorem lifetimesInOrder_bothAsked :
    LifetimesInOrder [{ openPreferred with preferred := 300 }, { openPreferred with valid := 0 }]
    (some 700) :=
  (lifetimesInOrder_iff _ _ (by decide)).mpr (by simp [Asked.Overlong, openPreferred])

/-- Of 3600 seconds the client asks for 600 and leaves the preferred lifetime open. -/
theorem openPreferred_overlong : (iaTimes 0xffffffff [openPreferred]).2.map (·.2) = [(600, 3600)] ∧
    ¬LifetimesInOrder [openPreferred] none := by
  refine ⟨by decide, fun h => absurd (h.1 (openPreferred, 600, 3600) ?_).1 (by decide)⟩
  exact mem_singleton.mpr rfl

end Dnsmasq.Dhcp6
