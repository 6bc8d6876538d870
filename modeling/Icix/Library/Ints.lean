import Mathlib.Data.Int.Notation

/-! C ints of 32 bits, as integers that are reduced modulo 2^32 where they overflow. -/
namespace Icix

/-- A C int computed modulo 2^32, as both targets do. -/
def int32 (x : Int) : Int := x.bmod 4294967296

theorem int32_eq {x : Int} (low : -2147483648 ≤ x) (high : x < 2147483648) : int32 x = x := by
  unfold int32
  rw [Int.bmod_def]
  split <;> omega

/-- Reducing the parts of a sum first makes no difference. -/
theorem int32_add (x y : Int) : int32 (int32 x + int32 y) = int32 (x + y) := by
  simp only [int32, Int.bmod_add_bmod, Int.add_bmod_bmod]

end Icix
