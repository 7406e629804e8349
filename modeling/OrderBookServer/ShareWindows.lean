import OrderBookServer.Runs
import OrderBookServer.ShareString

/-!
Windows into windows. A call for a part of a string is right when it returns that part or throws
because there is none. Both bounds tests let a call through that leaves its parent: one sum wraps
around, and the last index may be the one behind the end.
-/
namespace OrderBookServer.ShareWindows

open StdString Runs

/-- A call of `from_substr`, or of `from_substr_with_end` with the last index of the part. -/
inductive Call
  | substr (startIndex length : UInt64)
  | withEnd (startIndex endIndex : UInt64)
deriving DecidableEq, Repr

namespace Call

def apply (s : ShareString) : Call → Except Failure ShareString
  | .substr startIndex length => s.fromSubstr startIndex length
  | .withEnd startIndex endIndex => s.fromSubstrWithEnd startIndex endIndex

def start : Call → ℕ
  | .substr startIndex _ => startIndex.toNat
  | .withEnd startIndex _ => startIndex.toNat

/-- How many characters the call asks for. -/
def size : Call → ℕ
  | .substr _ length => length.toNat
  | .withEnd startIndex endIndex => endIndex.toNat - startIndex.toNat + 1

/-- The part that the call asks for is inside `text`. -/
def Inside (text : Text) : Call → Prop
  | .substr startIndex length => startIndex.toNat + length.toNat ≤ text.length
  | .withEnd startIndex endIndex => startIndex ≤ endIndex ∧ endIndex.toNat < text.length

def part (text : Text) (c : Call) : Text := (text.drop c.start).take c.size

/-- The test of the call decides whether the part is inside a string of `n` characters. -/
def Tested (n : ℕ) : Call → Prop
  | .substr startIndex length =>
    startIndex.toNat + length.toNat < 18446744073709551616 ∨
      n + 18446744073709551616 < startIndex.toNat + length.toNat
  | .withEnd startIndex endIndex =>
    (startIndex < endIndex → endIndex.toNat ≠ n) ∧
      (startIndex = endIndex → n ≤ endIndex.toNat)

end Call

/-- A call on a string in the text `data`; after a throw the caller still has the parent. -/
def step (s : ShareString) (c : Call) : Except Empty ShareString :=
  match c.apply s with
  | .ok child => .ok child
  | .error _ => .ok s

/-- The call returns the part it asks for, or throws as there is no such part. -/
def Right (data : Text) (s : ShareString) (c : Call) : Prop :=
  ∃ text, s.view data = .ok text ∧
    match c.apply s with
    | .ok child => c.Inside text ∧ child.view data = .ok (c.part text) ∧
        (c.part text).length = c.size
    | .error e => e = .outOfRange ∧ ¬ c.Inside text

/-- A string made of the whole text. -/
def whole (data : Text) : ShareString :=
  { stringReference := some 0, startIndex := 0, length := UInt64.ofNat data.length }

section Windows

variable {data : Text} {s child : ShareString} {c : Call}

/-- The window is inside the text. -/
def Fits (data : Text) (s : ShareString) : Prop :=
  s.startIndex.toNat + s.length.toNat ≤ data.length ∧ data.length < 18446744073709551616

theorem fits_whole (h : data.length < 18446744073709551616) : Fits data (whole data) := by
  refine ⟨?_, h⟩
  have hlength : (UInt64.ofNat data.length).toNat = data.length := UInt64.toNat_ofNat_of_lt' h
  simp only [whole, UInt64.toNat_zero, hlength]
  omega

theorem Fits.view (h : Fits data s) :
    s.view data = .ok ((data.drop s.startIndex.toNat).take s.length.toNat) := by
  unfold ShareString.view substr
  have hle := h.1
  rw [if_pos (by omega)]

theorem Fits.length_view (h : Fits data s) :
    ((data.drop s.startIndex.toNat).take s.length.toNat).length = s.length.toNat := by
  have hle := h.1
  rw [List.length_take, List.length_drop]
  omega

theorem inside_substr_iff (h : Fits data s) {startIndex length : UInt64} :
    (Call.substr startIndex length).Inside ((data.drop s.startIndex.toNat).take s.length.toNat) ↔
      startIndex.toNat + length.toNat ≤ s.length.toNat := by
  unfold Call.Inside
  rw [h.length_view]

theorem inside_withEnd_iff (h : Fits data s) {startIndex endIndex : UInt64} :
    (Call.withEnd startIndex endIndex).Inside ((data.drop s.startIndex.toNat).take s.length.toNat) ↔
      startIndex ≤ endIndex ∧ endIndex < s.length := by
  unfold Call.Inside
  rw [h.length_view, UInt64.lt_iff_toNat_lt]

/-- A part of a window is a window. -/
theorem part_view (h : c.start + c.size ≤ s.length.toNat) :
    c.part ((data.drop s.startIndex.toNat).take s.length.toNat) =
      (data.drop (s.startIndex.toNat + c.start)).take c.size := by
  unfold Call.part
  rw [List.drop_take, List.drop_drop, List.take_take]
  congr 1
  omega

/-- A child whose window is the part that the call asks for. -/
theorem Fits.part (h : Fits data s) (hinside : c.start + c.size ≤ s.length.toNat)
    (hstart : child.startIndex.toNat = s.startIndex.toNat + c.start)
    (hlength : child.length.toNat = c.size) :
    Fits data child ∧
      child.view data = .ok (c.part ((data.drop s.startIndex.toNat).take s.length.toNat)) ∧
      (c.part ((data.drop s.startIndex.toNat).take s.length.toNat)).length = c.size := by
  have hle := h.1
  have hfits : Fits data child := ⟨by omega, h.2⟩
  refine ⟨hfits, ?_, ?_⟩
  · rw [hfits.view, part_view hinside, hstart, hlength]
  · rw [part_view hinside, List.length_take, List.length_drop]
    omega

/-- A call for a part inside the string that does not throw makes the window of this part. -/
theorem window_of_apply (h : Fits data s)
    (hinside : c.Inside ((data.drop s.startIndex.toNat).take s.length.toNat))
    (happly : c.apply s = .ok child) : c.start + c.size ≤ s.length.toNat ∧
      child.startIndex.toNat = s.startIndex.toNat + c.start ∧ child.length.toNat = c.size := by
  have hle := h.1
  have hdata := h.2
  cases c with
  | substr startIndex length =>
    have hsum := (inside_substr_iff h).mp hinside
    simp only [Call.apply, ShareString.fromSubstr] at happly
    split at happly
    · cases happly
      refine ⟨hsum, ?_, rfl⟩
      simp only [Call.start, UInt64.toNat_add]
      omega
    · cases happly
  | withEnd startIndex endIndex =>
    have hlast := (inside_withEnd_iff h).mp hinside
    rw [UInt64.le_iff_toNat_le, UInt64.lt_iff_toNat_lt] at hlast
    simp only [Call.apply, ShareString.fromSubstrWithEnd] at happly
    split at happly
    · cases happly
      simp only [Call.start, Call.size, UInt64.toNat_add, UInt64.toNat_one,
        UInt64.toNat_sub_of_le _ _ (UInt64.le_iff_toNat_le.mpr hlast.1)]
      exact ⟨by omega, by omega, by omega⟩
    · cases happly

/-- A call is right when it throws exactly where there is no such part. -/
theorem right_iff (h : Fits data s) : Right data s c ↔
    ((∃ child, c.apply s = .ok child) ↔
      c.Inside ((data.drop s.startIndex.toNat).take s.length.toNat)) := by
  unfold Right
  rw [h.view]
  cases happly : c.apply s with
  | ok child =>
    constructor
    · rintro ⟨text, htext, hinside, _⟩
      cases htext
      exact ⟨fun _ => hinside, fun _ => ⟨child, rfl⟩⟩
    · intro hiff
      have hinside := hiff.mp ⟨child, rfl⟩
      obtain ⟨hbound, hstart, hlength⟩ := window_of_apply h hinside happly
      exact ⟨_, rfl, hinside, (h.part hbound hstart hlength).2⟩
  | error e =>
    have hthrown : e = .outOfRange := by
      cases c with
      | substr startIndex length =>
        simp only [Call.apply, ShareString.fromSubstr] at happly
        split at happly
        · cases happly
        · exact (Except.error.inj happly).symm
      | withEnd startIndex endIndex =>
        simp only [Call.apply, ShareString.fromSubstrWithEnd] at happly
        split at happly
        · cases happly
        · exact (Except.error.inj happly).symm
    constructor
    · rintro ⟨text, htext, _, hnot⟩
      cases htext
      constructor
      · rintro ⟨child, hchild⟩
        cases hchild
      · exact fun hinside => absurd hinside hnot
    · intro hiff
      refine ⟨_, rfl, hthrown, fun hinside => ?_⟩
      obtain ⟨child, hchild⟩ := hiff.mpr hinside
      cases hchild

theorem apply_substr_iff {startIndex length : UInt64} :
    (∃ child, (Call.substr startIndex length).apply s = .ok child) ↔
      (startIndex.toNat + length.toNat) % 18446744073709551616 ≤ s.length.toNat := by
  simp only [Call.apply, ShareString.fromSubstr]
  rw [← UInt64.toNat_add, ← UInt64.le_iff_toNat_le]
  by_cases htest : startIndex + length ≤ s.length
  · simp [htest]
  · simp [htest]

theorem apply_withEnd_iff {startIndex endIndex : UInt64} :
    (∃ child, (Call.withEnd startIndex endIndex).apply s = .ok child) ↔
      startIndex < s.length ∧ endIndex ≤ s.length ∧ startIndex < endIndex := by
  simp only [Call.apply, ShareString.fromSubstrWithEnd]
  by_cases htest : startIndex < s.length ∧ endIndex ≤ s.length ∧ startIndex < endIndex
  · simp [htest]
  · constructor
    · rintro ⟨child, hchild⟩
      rw [if_neg htest] at hchild
      cases hchild
    · exact fun h => absurd h htest

theorem right_iff_tested (h : Fits data s) : Right data s c ↔ c.Tested s.length.toNat := by
  rw [right_iff h]
  cases c with
  | substr startIndex length =>
    have hstart := startIndex.toNat_lt
    have hlength := length.toNat_lt
    have hsmall := s.length.toNat_lt
    rw [apply_substr_iff, inside_substr_iff h]
    unfold Call.Tested
    omega
  | withEnd startIndex endIndex =>
    rw [apply_withEnd_iff, inside_withEnd_iff h]
    unfold Call.Tested
    simp only [UInt64.lt_iff_toNat_lt, UInt64.le_iff_toNat_le, ← UInt64.toNat_inj]
    omega

/-- A right call leaves a window of the text. -/
theorem fits_step {s' : ShareString} (h : Fits data s) (hright : Right data s c)
    (hstep : step s c = .ok s') : Fits data s' := by
  unfold step at hstep
  cases happly : c.apply s with
  | ok child =>
    rw [happly] at hstep
    cases hstep
    have hinside := ((right_iff h).mp hright).mp ⟨_, happly⟩
    obtain ⟨hbound, hstart, hlength⟩ := window_of_apply h hinside happly
    exact (h.part hbound hstart hlength).1
  | error e =>
    rw [happly] at hstep
    cases hstep
    exact h

end Windows

section Chains

/-- Every call of the chain is right. -/
def RightAlong (data : Text) (calls : List Call) : Prop :=
  Along step (Right data) (whole data) calls

/-- Every call of the chain is one that its test decides. -/
def TestedAlong (data : Text) (calls : List Call) : Prop :=
  Along step (fun s c => c.Tested s.length.toNat) (whole data) calls

/-- The windows of a chain are right exactly when no call is one that its test gets wrong. -/
theorem rightAlong_iff_testedAlong (data : Text) (calls : List Call)
    (hdata : data.length < 18446744073709551616) :
    RightAlong data calls ↔ TestedAlong data calls := by
  apply along_iff (Fits data) (fun _ => True)
  · intro s c s' hfits _ hright hstep
    exact fits_step hfits hright hstep
  · intro s c hfits _
    exact right_iff_tested hfits
  · exact fits_whole hdata
  · exact fun _ _ => trivial

theorem rightAlong_iff_testedAlong_nested :
    RightAlong ['a', 'b', 'c', 'd'] [.substr 1 3, .withEnd 0 1, .substr 2 1] := by
  apply (rightAlong_iff_testedAlong _ _ (by decide)).mpr
  refine ⟨Or.inl (by decide), fun s hs => ?_⟩
  cases hs
  refine ⟨⟨fun _ => by decide, fun heq => absurd heq (by decide)⟩, fun s hs => ?_⟩
  cases hs
  exact ⟨Or.inl (by decide), fun _ _ => trivial⟩

/-- The window of the first two characters has an end index that shows the third one. -/
theorem not_rightAlong_behindEnd :
    ¬ RightAlong ['a', 'b', 'c'] [.substr 0 2, .withEnd 0 2] := by
  rintro ⟨_, hrest⟩
  have hsecond := (hrest _ rfl).1
  have hfits : Fits ['a', 'b', 'c'] { stringReference := some 0, startIndex := 0, length := 2 } :=
    ⟨by decide, by decide⟩
  have htested := (right_iff_tested hfits).mp hsecond
  exact htested.1 (by decide) rfl

end Chains

end OrderBookServer.ShareWindows
