import Mathlib.Algebra.Order.Floor.Semiring
import Mathlib.Data.List.Induction
import Mathlib.Data.List.Sort
import Mathlib.Data.Rat.Floor

/-!
The latency tracker: a window of the last samples that loses its oldest quarter when it outgrows
its bound, and percentiles read from the sorted window. A percentage is an exact rational.
-/
namespace OrderBookServer

structure LatencyTracker (α : Type) where
  samples : List α := []

namespace LatencyTracker

variable {α : Type}

def maxSamples : ℕ := 200000

def addSample (t : LatencyTracker α) (value : α) : LatencyTracker α :=
  let samples := t.samples ++ [value]
  if maxSamples < samples.length then { t with samples := samples.drop (samples.length / 4) }
  else { t with samples := samples }

def clear (t : LatencyTracker α) : LatencyTracker α := { t with samples := [] }

/-- The index of the `p`-th percentile among `n` sorted values. -/
def percentileIndex (p : ℚ) (n : ℕ) : ℕ := ⌊p / 100 * ((n - 1 : ℕ) : ℚ)⌋₊

/-- `none` stands for a read behind the end of the vector. -/
def percentile [LinearOrder α] [Zero α] (t : LatencyTracker α) (p : ℚ) : Option α :=
  if t.samples.isEmpty then some 0
  else
    let v := t.samples.mergeSort (· ≤ ·)
    v[percentileIndex p v.length]?

def p50 [LinearOrder α] [Zero α] (t : LatencyTracker α) : Option α := t.percentile 50

def p90 [LinearOrder α] [Zero α] (t : LatencyTracker α) : Option α := t.percentile 90

def p99 [LinearOrder α] [Zero α] (t : LatencyTracker α) : Option α := t.percentile 99

section Samples

variable {t : LatencyTracker α} {x value : α}

theorem samples_addSample (t : LatencyTracker α) (value : α) : (t.addSample value).samples =
    if maxSamples < t.samples.length + 1
      then (t.samples ++ [value]).drop ((t.samples.length + 1) / 4) else t.samples ++ [value] := by
  unfold addSample
  simp only [List.length_append, List.length_cons, List.length_nil]
  split
  · rfl
  · rfl

theorem mem_addSample (hx : x ∈ (t.addSample value).samples) : x ∈ t.samples ∨ x = value := by
  rw [samples_addSample] at hx
  have hmem : x ∈ t.samples ++ [value] := by
    split at hx
    · exact List.mem_of_mem_drop hx
    · exact hx
  rcases List.mem_append.mp hmem with hold | hnew
  · exact Or.inl hold
  · exact Or.inr (List.mem_singleton.mp hnew)

theorem addSample_ne_nil : (t.addSample value).samples ≠ [] := by
  intro hnil
  have hlength := congrArg List.length hnil
  rw [samples_addSample] at hlength
  split at hlength
  · simp only [List.length_drop, List.length_append, List.length_cons, List.length_nil] at hlength
    omega
  · simp at hlength

end Samples

section Percentiles

variable {t : LatencyTracker α} {p q : ℚ} {n : ℕ}

theorem percentileIndex_lt (hp : p ≤ 100) (hn : 0 < n) : percentileIndex p n < n := by
  have hfactor : p / 100 ≤ 1 := (div_le_one (by norm_num)).mpr hp
  have hle : p / 100 * ((n - 1 : ℕ) : ℚ) ≤ ((n - 1 : ℕ) : ℚ) :=
    mul_le_of_le_one_left (Nat.cast_nonneg _) hfactor
  have hfloor : percentileIndex p n ≤ n - 1 := Nat.floor_le_of_le hle
  omega

theorem percentileIndex_mono (hpq : p ≤ q) : percentileIndex p n ≤ percentileIndex q n := by
  apply Nat.floor_mono
  apply mul_le_mul_of_nonneg_right _ (Nat.cast_nonneg _)
  exact div_le_div_of_nonneg_right hpq (by norm_num)

variable [LinearOrder α] [Zero α]

theorem percentile_of_empty (h : t.samples = []) : t.percentile p = some 0 := by
  unfold percentile
  rw [h]
  rfl

/-- A percentile of a window is one of its values, read inside the sorted vector. -/
theorem percentile_of_nonempty (h : t.samples ≠ []) (hp : p ≤ 100) :
    ∃ hindex : percentileIndex p t.samples.length < (t.samples.mergeSort (· ≤ ·)).length,
      t.percentile p =
        some (t.samples.mergeSort (· ≤ ·))[percentileIndex p t.samples.length] := by
  have hindex := percentileIndex_lt hp (List.length_pos_iff.mpr h)
  have hnonempty : t.samples.isEmpty = false := by
    rw [List.isEmpty_eq_false_iff]
    exact h
  refine ⟨by rwa [List.length_mergeSort], ?_⟩
  unfold percentile
  simp only [hnonempty, List.length_mergeSort, Bool.false_eq_true, if_false]
  exact List.getElem?_eq_getElem _

theorem exists_percentile (h : t.samples ≠ []) (hp : p ≤ 100) :
    ∃ x ∈ t.samples, t.percentile p = some x := by
  obtain ⟨hindex, hvalue⟩ := percentile_of_nonempty h hp
  exact ⟨_, List.mem_mergeSort.mp (List.getElem_mem hindex), hvalue⟩

/-- What the percentiles `p ≤ q` of a window are. -/
def Ordered (t : LatencyTracker α) (p q : ℚ) : Prop :=
  ∃ a b, t.percentile p = some a ∧ t.percentile q = some b ∧ a ≤ b ∧
    (t.samples = [] ∧ a = 0 ∧ b = 0 ∨
      (a ∈ t.samples ∧ percentileIndex p t.samples.length < t.samples.length) ∧
        b ∈ t.samples ∧ percentileIndex q t.samples.length < t.samples.length)

theorem ordered_of_le (hpq : p ≤ q) (hq : q ≤ 100) : t.Ordered p q := by
  by_cases h : t.samples = []
  · exact ⟨0, 0, percentile_of_empty h, percentile_of_empty h, le_refl _, Or.inl ⟨h, rfl, rfl⟩⟩
  · obtain ⟨hp', hvalue⟩ := percentile_of_nonempty h (hpq.trans hq)
    obtain ⟨hq', hvalue'⟩ := percentile_of_nonempty h hq
    have hsorted : (t.samples.mergeSort (· ≤ ·)).SortedLE := List.sortedLE_mergeSort
    refine ⟨_, _, hvalue, hvalue', ?_, Or.inr ⟨⟨?_, ?_⟩, ?_, ?_⟩⟩
    · exact hsorted.getElem_le_getElem_of_le (percentileIndex_mono hpq)
    · exact List.mem_mergeSort.mp (List.getElem_mem hp')
    · rwa [List.length_mergeSort] at hp'
    · exact List.mem_mergeSort.mp (List.getElem_mem hq')
    · rwa [List.length_mergeSort] at hq'

def PercentilesOrdered (t : LatencyTracker α) : Prop :=
  ∀ p q : ℚ, 0 ≤ p → p ≤ q → q ≤ 100 → t.Ordered p q

end Percentiles

section Calls

inductive Call (α : Type) where
  | addSample (value : α)
  | clear

def call (t : LatencyTracker α) : Call α → LatencyTracker α
  | .addSample value => t.addSample value
  | .clear => t.clear

def run (calls : List (Call α)) : LatencyTracker α := calls.foldl call {}

/-- The values that were added since the last `clear`. -/
def added (calls : List (Call α)) : List α :=
  calls.foldl (fun values c =>
    match c with
    | .addSample value => values ++ [value]
    | .clear => []) []

/-- The window of the values `values`. -/
structure Window (t : LatencyTracker α) (values : List α) : Prop where
  recent : t.samples <:+ values
  whole : values.length ≤ maxSamples → t.samples = values
  bounds : maxSamples < values.length → 150001 ≤ t.samples.length ∧ t.samples.length ≤ maxSamples

variable {t : LatencyTracker α} {values : List α} {calls : List (Call α)}

theorem Window.clear : t.clear.Window [] where
  recent := List.suffix_refl []
  whole _ := rfl
  bounds h := absurd h (Nat.not_lt_zero maxSamples)

theorem Window.length_le (h : t.Window values) : t.samples.length ≤ maxSamples := by
  by_cases hfew : values.length ≤ maxSamples
  · rwa [h.whole hfew]
  · exact (h.bounds (by omega)).2

/-- A sample either fits into the window or pushes the oldest quarter out. -/
theorem Window.addSample (h : t.Window values) (value : α) :
    (t.addSample value).Window (values ++ [value]) := by
  have hlength := h.length_le
  have hrecent : t.samples ++ [value] <:+ values ++ [value] := by
    obtain ⟨front, hfront⟩ := h.recent
    exact ⟨front, by rw [← List.append_assoc, hfront]⟩
  have hlengthAppend : (t.samples ++ [value]).length = t.samples.length + 1 := by simp
  have hsamples := samples_addSample t value
  by_cases hfull : maxSamples < t.samples.length + 1
  · -- the window held 200000 samples and keeps 150001 of them
    rw [if_pos hfull] at hsamples
    have hat : t.samples.length = 200000 := by
      unfold maxSamples at hfull hlength
      omega
    refine ⟨?_, fun hfew => ?_, fun _ => ?_⟩
    · rw [hsamples]
      exact (List.drop_suffix _ _).trans hrecent
    · have hle := hrecent.length_le
      unfold maxSamples at hfew
      omega
    · rw [hsamples, List.length_drop, hlengthAppend, hat]
      unfold maxSamples
      omega
  · rw [if_neg hfull] at hsamples
    refine ⟨?_, fun hfew => ?_, fun hmany => ?_⟩
    · rw [hsamples]
      exact hrecent
    · rw [List.length_append, List.length_singleton] at hfew
      rw [hsamples, h.whole (by omega)]
    · rw [List.length_append, List.length_singleton] at hmany
      rw [hsamples, hlengthAppend]
      refine ⟨?_, by omega⟩
      by_cases hfew : values.length ≤ maxSamples
      · have hwhole := h.whole hfew
        rw [hwhole] at hfull
        omega
      · have hbounds := h.bounds (by omega)
        omega

theorem window_run (calls : List (Call α)) : (run calls).Window (added calls) := by
  induction calls using List.reverseRecOn with
  | nil => exact Window.clear (t := {})
  | append_singleton calls c ih =>
    unfold run added
    rw [List.foldl_append, List.foldl_append]
    cases c with
    | addSample value => exact ih.addSample value
    | clear => exact Window.clear (t := run calls)

/-- After any calls the samples are the recent window and its percentiles are ordered. -/
theorem window_and_percentiles_of_calls [LinearOrder α] [Zero α] (calls : List (Call α)) :
    (run calls).Window (added calls) ∧ (run calls).PercentilesOrdered :=
  ⟨window_run calls, fun _ _ _ hpq hq => ordered_of_le hpq hq⟩

end Calls

end LatencyTracker

end OrderBookServer
