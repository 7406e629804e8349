import Mathlib.Tactic.Positivity
import OrderBookServer.OrderBook

/-!
The price grid of a book. Where the price range fits a signed 64-bit integer,
level indices and on-grid prices inside the range determine each other, and
the 64-bit arithmetic of the constructor and of `priceToIndex` is exact.
-/
namespace OrderBookServer

namespace Config

open Int64Arith

structure Valid (c : Config) : Prop where
  tick_pos : 0 < c.tickSize.toInt
  min_le_max : c.priceMin.toInt ≤ c.priceMax.toInt
  range_fits : c.priceMax.toInt - c.priceMin.toInt < 2 ^ 63
  levels_eq : (c.numLevels : ℤ) =
    (c.priceMax.toInt - c.priceMin.toInt) / c.tickSize.toInt + 1

def InRange (c : Config) (px : Int64) : Prop :=
  c.priceMin.toInt ≤ px.toInt ∧ px.toInt ≤ c.priceMax.toInt

def OnGrid (c : Config) (px : Int64) : Prop := c.tickSize.toInt ∣ px.toInt - c.priceMin.toInt

instance (c : Config) (px : Int64) : Decidable (c.InRange px) := by
  unfold InRange
  infer_instance

instance (c : Config) (px : Int64) : Decidable (c.OnGrid px) := by
  unfold OnGrid
  infer_instance

/-- The price that level `i` stands for. -/
def levelPrice (c : Config) (i : ℕ) : ℤ := c.priceMin.toInt + i * c.tickSize.toInt

theorem valid_of_levelCount {priceMin priceMax tick : Int64} {levels : ℕ}
    (h : levelCount priceMin priceMax tick = some levels) (ht : 0 < tick)
    (hp : priceMin ≤ priceMax) : (⟨priceMin, priceMax, tick, levels⟩ : Config).Valid := by
  have htick : 0 < tick.toInt := by simpa using Int64.lt_iff_toInt_lt.mp ht
  have hle := Int64.le_iff_toInt_le.mp hp
  simp only [levelCount] at h
  split at h
  · rename_i hfits
    obtain ⟨_, hrange, hcount⟩ := hfits
    split at h
    · cases h
      refine ⟨htick, hle, hrange.2, ?_⟩
      have hnonneg : 0 ≤ priceMax.toInt - priceMin.toInt := by omega
      have hdiff := toInt_sub_of_fits hrange
      have hdiv : ((priceMax - priceMin) / tick).toInt =
          (priceMax.toInt - priceMin.toInt) / tick.toInt := by
        rw [toInt_div_of_nonneg (by omega) htick, hdiff]
      have hquot := Int.ediv_nonneg hnonneg htick.le
      rw [Int.tdiv_eq_ediv_of_nonneg hnonneg] at hcount
      have hone : ((priceMax - priceMin) / tick + 1).toInt =
          (priceMax.toInt - priceMin.toInt) / tick.toInt + 1 := by
        rw [Int64.toInt_add, hdiv, Int64.toInt_one]
        unfold Fits64 at hcount
        exact Int.bmod_eq_of_le (by omega) (by omega)
      rw [toNat_toUInt64_of_nonneg (by omega), hone]
    · simp at h
  · simp at h

namespace Valid

variable {c : Config} (h : c.Valid)
include h

/-- Inside the range the index is the exact quotient. -/
theorem priceToIndex_eq {px : Int64} (hpx : c.InRange px) :
    (c.priceToIndex px : ℤ) = (px.toInt - c.priceMin.toInt) / c.tickSize.toInt := by
  have hfits : Fits64 (px.toInt - c.priceMin.toInt) := by
    have := h.range_fits
    unfold InRange at hpx
    unfold Fits64
    omega
  have hdiff := toInt_sub_of_fits hfits
  have hnonneg : 0 ≤ (px - c.priceMin).toInt := by
    rw [hdiff]
    exact Int.sub_nonneg.mpr hpx.1
  have hdiv := toInt_div_of_nonneg hnonneg h.tick_pos
  rw [priceToIndex, toNat_toUInt64_of_nonneg, hdiv, hdiff]
  rw [hdiv]
  exact Int.ediv_nonneg hnonneg h.tick_pos.le

theorem priceToIndex_lt {px : Int64} (hpx : c.InRange px) : c.priceToIndex px < c.numLevels := by
  have hmono : (px.toInt - c.priceMin.toInt) / c.tickSize.toInt ≤
      (c.priceMax.toInt - c.priceMin.toInt) / c.tickSize.toInt :=
    Int.ediv_le_ediv h.tick_pos (Int.sub_le_sub_right hpx.2 _)
  have heq := h.priceToIndex_eq hpx
  have := h.levels_eq
  omega

theorem levelPrice_priceToIndex {px : Int64} (hpx : c.InRange px) (hgrid : c.OnGrid px) :
    c.levelPrice (c.priceToIndex px) = px.toInt := by
  have hmul := Int.ediv_mul_cancel hgrid
  rw [levelPrice, h.priceToIndex_eq hpx, hmul]
  omega

/-- Every level stands for a price inside the range. -/
theorem levelPrice_mem {i : ℕ} (hi : i < c.numLevels) :
    c.priceMin.toInt ≤ c.levelPrice i ∧ c.levelPrice i ≤ c.priceMax.toInt := by
  have htick := h.tick_pos
  have hle : (i : ℤ) ≤ (c.priceMax.toInt - c.priceMin.toInt) / c.tickSize.toInt := by
    have := h.levels_eq
    omega
  have hnonneg : 0 ≤ (i : ℤ) * c.tickSize.toInt := by positivity
  have hmul := (Int.le_ediv_iff_mul_le htick).mp hle
  unfold levelPrice
  constructor <;> omega

theorem levelPrice_lt {i j : ℕ} (hij : i < j) : c.levelPrice i < c.levelPrice j := by
  have hmul : (i : ℤ) * c.tickSize.toInt < j * c.tickSize.toInt :=
    Int.mul_lt_mul_of_pos_right (by omega) h.tick_pos
  unfold levelPrice
  omega

theorem levelPrice_inj {i j : ℕ} : c.levelPrice i = c.levelPrice j ↔ i = j := by
  constructor
  · intro heq
    by_contra hne
    rcases Nat.lt_or_gt_of_ne hne with hij | hji
    · have := h.levelPrice_lt hij
      omega
    · have := h.levelPrice_lt hji
      omega
  · intro heq
    rw [heq]

end Valid

end Config

end OrderBookServer
