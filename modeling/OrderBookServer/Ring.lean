import Mathlib.Data.List.Basic
import Mathlib.Logic.Function.Basic
import Mathlib.Tactic.Common

/-!
Queues in a ring of cells. The items of a queue lie in consecutive cells, beginning at
the head; indices are taken modulo the number of cells.
-/
namespace OrderBookServer.Ring

variable {α : Type} {n head tail size : ℕ} {cells : ℕ → α} {x : α} {xs : List α}

/-- Within one turn of the ring two indices have different cells. -/
theorem mod_inj {i j : ℕ} (hij : i ≤ j) (hj : j < i + n) (h : i % n = j % n) : i = j := by
  have hsub : (j - i) % n = 0 := Nat.sub_mod_eq_zero_of_mod_eq h.symm
  rw [Nat.mod_eq_of_lt (by omega)] at hsub
  omega

theorem mod_ne {c i j : ℕ} (hi : c ≤ i) (hin : i < c + n) (hj : c ≤ j) (hjn : j < c + n)
    (hne : i ≠ j) : i % n ≠ j % n := by
  intro heq
  rcases Nat.lt_or_gt_of_ne hne with hlt | hgt
  · exact hne (mod_inj (Nat.le_of_lt hlt) (by omega) heq)
  · exact hne (mod_inj (Nat.le_of_lt hgt) (by omega) heq.symm).symm

/-- The cells from `head` on hold the items of a list, and `tail` is behind the last one. -/
structure Holds (n : ℕ) (cells : ℕ → α) (head tail size : ℕ) (xs : List α) : Prop where
  length : xs.length = size
  room : size ≤ n
  tail_eq : tail % n = (head + size) % n
  cell : ∀ i x, xs[i]? = some x → cells ((head + i) % n) = x

theorem Holds.push (h : Holds n cells head tail size xs) (hroom : size < n) (x : α) :
    Holds n (Function.update cells (tail % n) x) head (tail + 1) (size + 1) (xs ++ [x]) where
  length := by rw [List.length_append, h.length, List.length_singleton]
  room := hroom
  tail_eq := by rw [← Nat.add_assoc, Nat.add_mod, h.tail_eq, ← Nat.add_mod]
  cell i y hy := by
    rw [h.tail_eq]
    rcases Nat.lt_trichotomy i xs.length with hlt | heq | hgt
    · have hne : (head + i) % n ≠ (head + size) % n := by
        intro hmod
        have := mod_inj (by rw [← h.length]; omega) (by omega) hmod
        have := h.length
        omega
      rw [Function.update_of_ne hne]
      rw [List.getElem?_append_left hlt] at hy
      exact h.cell i y hy
    · rw [heq, List.getElem?_append_right (Nat.le_refl _), Nat.sub_self] at hy
      cases hy
      rw [heq, h.length, Function.update_self]
    · rw [List.getElem?_eq_none (by rw [List.length_append, List.length_singleton]; omega)] at hy
      cases hy

theorem Holds.pop (h : Holds n cells head tail size (x :: xs)) :
    cells (head % n) = x ∧ Holds n cells (head + 1) tail (size - 1) xs := by
  have hlength : xs.length + 1 = size := by rw [← h.length, List.length_cons]
  refine ⟨h.cell 0 x rfl, ⟨by omega, ?_, ?_, fun i y hy => ?_⟩⟩
  · have hroom := h.room
    omega
  · rw [h.tail_eq]
    congr 1
    omega
  · rw [Nat.add_assoc, Nat.add_comm 1 i]
    exact h.cell (i + 1) y hy

/-- Taking an index modulo the number of cells beforehand makes no difference. -/
theorem holds_mod_iff : Holds n cells (head % n) (tail % n) size xs ↔
    Holds n cells head tail size xs := by
  constructor
  · intro h
    refine ⟨h.length, h.room, ?_, fun i x hx => ?_⟩
    · rw [← Nat.mod_mod tail, h.tail_eq, Nat.mod_add_mod]
    · rw [← Nat.mod_add_mod]
      exact h.cell i x hx
  · intro h
    refine ⟨h.length, h.room, ?_, fun i x hx => ?_⟩
    · rw [Nat.mod_mod, h.tail_eq, Nat.mod_add_mod]
    · rw [Nat.mod_add_mod]
      exact h.cell i x hx

/-- The cells from `head` on, as many as the queue is long. -/
def window (n : ℕ) (cells : ℕ → α) (head size : ℕ) : List α :=
  (List.range size).map fun i => cells ((head + i) % n)

theorem Holds.eq_window (h : Holds n cells head tail size xs) :
    xs = window n cells head size := by
  apply List.ext_getElem?
  intro i
  rw [window, List.getElem?_map]
  by_cases hi : i < size
  · obtain ⟨x, hx⟩ : ∃ x, xs[i]? = some x :=
      ⟨_, List.getElem?_eq_getElem (by rw [h.length]; exact hi)⟩
    rw [hx, List.getElem?_range hi, Option.map_some, h.cell i x hx]
  · have hnone : xs[i]? = none := List.getElem?_eq_none (by rw [h.length]; omega)
    rw [hnone, List.getElem?_eq_none (by rw [List.length_range]; omega)]
    rfl

end OrderBookServer.Ring
