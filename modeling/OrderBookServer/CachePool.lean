import Mathlib.Data.List.Perm.Subperm
import Mathlib.Data.List.Range
import OrderBookServer.Ring

/-!
The pool of src/core/cache: objects that are handed out and taken back in the order of a
ring. A pointer to an object is its index in `data`.
-/
namespace OrderBookServer

/-- The optional `init` and `clear` of a pooled type. -/
class Pooled (T : Type) where
  init : T → T := id
  clear : T → T := id

instance : Pooled Unit where

inductive PoolError
  | noAvailableItems
deriving DecidableEq, Repr

structure PoolBuffer (T : Type) where
  availableItems : ℕ → ℕ
  data : ℕ → T
  head : ℕ
  tail : ℕ
  size : ℕ

namespace PoolBuffer

variable {T : Type} [Pooled T]

omit [Pooled T] in
/-- A pool of `n` objects, each of them as its constructor leaves it. -/
def new (n : ℕ) (object : T) : PoolBuffer T := ⟨id, fun _ => object, 0, 0, n⟩

def acquire (n : ℕ) (pool : PoolBuffer T) : Except PoolError (ℕ × PoolBuffer T) :=
  if pool.size = 0 then .error .noAvailableItems
  else
    let item := pool.availableItems pool.head
    .ok (item, { pool with
      head := (pool.head + 1) % n
      size := pool.size - 1
      data := Function.update pool.data item (Pooled.init (pool.data item)) })

def release (n : ℕ) (pool : PoolBuffer T) (item : ℕ) : PoolBuffer T :=
  { pool with
    availableItems := Function.update pool.availableItems pool.tail item
    tail := (pool.tail + 1) % n
    size := pool.size + 1
    data := Function.update pool.data item (Pooled.clear (pool.data item)) }

section Queue

variable {n item : ℕ} {pool pool' : PoolBuffer T} {avail : List ℕ}

/-- The pool hands out the objects of a list, in its order. -/
structure Serves (n : ℕ) (pool : PoolBuffer T) (avail : List ℕ) : Prop where
  head_mod : pool.head % n = pool.head
  tail_mod : pool.tail % n = pool.tail
  holds : Ring.Holds n pool.availableItems pool.head pool.tail pool.size avail

omit [Pooled T] in
theorem serves_new (n : ℕ) (object : T) : Serves n (new n object) (List.range n) where
  head_mod := Nat.zero_mod n
  tail_mod := Nat.zero_mod n
  holds := by
    refine ⟨List.length_range, Nat.le_refl n, ?_, fun i x hx => ?_⟩
    · show 0 % n = (0 + n) % n
      rw [Nat.zero_add, Nat.zero_mod, Nat.mod_self]
    · obtain ⟨hi, hx⟩ := List.getElem?_eq_some_iff.mp hx
      rw [List.getElem_range] at hx
      rw [List.length_range] at hi
      show (0 + i) % n = x
      rw [Nat.zero_add, Nat.mod_eq_of_lt hi, hx]

/-- The object at the head of the pool is handed out. -/
theorem Serves.acquire (h : Serves n pool avail) (hok : pool.acquire n = .ok (item, pool')) :
    item = pool.availableItems pool.head ∧ (∃ rest, avail = item :: rest ∧ Serves n pool' rest) ∧
      pool'.data = Function.update pool.data item (Pooled.init (pool.data item)) := by
  unfold PoolBuffer.acquire at hok
  split at hok
  · cases hok
  · rename_i hsize
    cases hok
    refine ⟨rfl, ?_, rfl⟩
    cases avail with
    | nil => exact absurd h.holds.length.symm hsize
    | cons x rest =>
      obtain ⟨hitem, hrest⟩ := h.holds.pop
      rw [h.head_mod] at hitem
      refine ⟨rest, by rw [hitem], ⟨Nat.mod_mod _ _, h.tail_mod, ?_⟩⟩
      have htail := h.tail_mod
      rw [← Ring.holds_mod_iff, htail] at hrest
      exact hrest

theorem Serves.release (h : Serves n pool avail) (hroom : avail.length < n) (item : ℕ) :
    Serves n (pool.release n item) (avail ++ [item]) := by
  refine ⟨h.head_mod, Nat.mod_mod _ _, ?_⟩
  have hpushed := h.holds.push (by rw [← h.holds.length]; exact hroom) item
  rw [h.tail_mod, ← Ring.holds_mod_iff, h.head_mod] at hpushed
  exact hpushed

omit [Pooled T] in
/-- Where an object is in use there is room for it in the pool. -/
theorem length_lt_of_used (hnodup : avail.Nodup) (hsmall : ∀ o ∈ avail, o < n) (hitem : item < n)
    (hused : item ∉ avail) : avail.length < n := by
  have hsub : item :: avail ⊆ List.range n := by
    intro o ho
    obtain rfl | hmem := List.mem_cons.mp ho
    · exact List.mem_range.mpr hitem
    · exact List.mem_range.mpr (hsmall o hmem)
  have hle := (List.subperm_of_subset (List.nodup_cons.mpr ⟨hused, hnodup⟩) hsub).length_le
  rw [List.length_cons, List.length_range] at hle
  exact hle

end Queue

end PoolBuffer

end OrderBookServer
