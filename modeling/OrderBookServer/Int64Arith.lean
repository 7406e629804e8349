import Mathlib.Algebra.Ring.Int.Defs
import Mathlib.Algebra.Ring.Nat

/-!
Signed 64-bit arithmetic. An operation of `Int64` is the operation of the integers
as long as the exact result fits, and so is a conversion from unsigned words.
-/
namespace OrderBookServer

/-- A signed 64-bit integer holds `x`. -/
def Fits64 (x : ℤ) : Prop := -2 ^ 63 ≤ x ∧ x < 2 ^ 63

instance (x : ℤ) : Decidable (Fits64 x) := by
  unfold Fits64
  infer_instance

namespace Int64Arith

theorem toInt_sub_of_fits {a b : Int64} (h : Fits64 (a.toInt - b.toInt)) :
    (a - b).toInt = a.toInt - b.toInt := by
  rw [Int64.toInt_sub]
  unfold Fits64 at h
  exact Int.bmod_eq_of_le (by omega) (by omega)

theorem toNat_toUInt64_of_nonneg {x : Int64} (h : 0 ≤ x.toInt) :
    (x.toUInt64.toNat : ℤ) = x.toInt := by
  have hx : 0 ≤ x := by
    rw [Int64.le_iff_toInt_le]
    simpa using h
  rw [Int64.toNat_toUInt64_of_le hx, Int64.toNatClampNeg, Int.toNat_of_nonneg h]

/-- Truncating division by a positive divisor, with a dividend that is not negative. -/
theorem toInt_div_of_nonneg {a b : Int64} (ha : 0 ≤ a.toInt) (hb : 0 < b.toInt) :
    (a / b).toInt = a.toInt / b.toInt := by
  have hne : b ≠ -1 := by
    rintro rfl
    exact absurd hb (by decide)
  rw [Int64.toInt_div_of_ne_right a b hne, Int.tdiv_eq_ediv_of_nonneg ha]

theorem toInt_toInt64_of_lt {x : UInt64} (h : x.toNat < 2 ^ 63) : x.toInt64.toInt = x.toNat := by
  have hsigned := Int64.toInt_ofNat_of_lt (n := x.toNat) h
  rwa [← UInt64.toInt64_ofNat', UInt64.ofNat_toNat] at hsigned

end Int64Arith

end OrderBookServer
