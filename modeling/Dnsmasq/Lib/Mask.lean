import Mathlib.Tactic

/-! Flag words tested against a mask, as the condition `flags & mask` of C reads them. -/
namespace Mask

variable {w : ℕ}

def test (flags mask : BitVec w) : Bool := flags &&& mask != 0

theorem test_eq_true {flags mask : BitVec w} : test flags mask = true ↔ flags &&& mask ≠ 0 := by
  simp [test]

theorem test_eq_false {flags mask : BitVec w} : test flags mask = false ↔ flags &&& mask = 0 := by
  simp [test]

end Mask
