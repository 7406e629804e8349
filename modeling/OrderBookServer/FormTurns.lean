import OrderBookServer.HttpBody

/-!
The turns of the loop over form data. A turn starts at a boundary and looks for the next one behind
it, so the starts go forward where the boundary has a character and an `int` can hold its position.
With an empty boundary the loop stays at its first start.
-/
namespace OrderBookServer.HttpRequest

open StdString Occurrences

variable {δ : Type} {body frame : Text} {turns n : ℕ} {start : ℤ} {json : Json δ}

/-- What a turn stores, or nothing where the loop is left in front of the turn. -/
def keyAndValue (body : Text) (start : ℤ) : Except Failure (Option (Text × Text)) :=
  let keyStart := toInt (find body keyFormat (sizeT start))
  if -1 < keyStart then do
    let keyStart := toInt (keyStart + (keyFormat.length + 1))
    let keyEnd := toInt (find body ['"'] (sizeT keyStart))
    let key ← substr body (sizeT keyStart) (sizeT (toInt (keyEnd - keyStart)))
    let valueStart := toInt (find body (crlf ++ crlf) (sizeT keyEnd) + 4)
    let valueEnd := toInt (find body crlf (sizeT valueStart))
    let value ← substr body (sizeT valueStart) (sizeT (toInt (valueEnd - valueStart)))
    return some (key, value)
  else .ok none

/-- Where the boundary behind a start is found. -/
def boundary (body frame : Text) (start : ℤ) : ℕ :=
  find body frame (sizeT (start + frame.length))

/-- The loop keeps it in an `int`. -/
def nextStart (body frame : Text) (start : ℤ) : ℤ := toInt (boundary body frame start)

/-- What is in front of the first key is the boundary, if the loop is entered. -/
def frameFormat (body : Text) : Option Text :=
  let formDataStart := toInt (find body keyFormat 0)
  if -1 < formDataStart then some (body.take (sizeT formDataStart)) else none

/-- A turn from here comes to its end. -/
def GoesOn (body : Text) (start : ℤ) : Prop := ∃ e, keyAndValue body start = .ok (some e)

/-- The loop is left in front of a turn from here. -/
def Leaves (body : Text) (start : ℤ) : Prop := keyAndValue body start = .ok none

/-- The starts that the loop comes to. -/
inductive Visits (body frame : Text) : ℤ → Prop
  | first : Visits body frame 0
  | next {start : ℤ} (h : Visits body frame start) (hon : GoesOn body start) :
    Visits body frame (nextStart body frame start)

/-- A later boundary begins at `next`. -/
def LaterBoundary (body frame : Text) (start next : ℤ) : Prop :=
  start < next ∧ start + frame.length ≤ next ∧ frame <+: body.drop next.toNat

/-- The stage comes to its end, and each turn moves the start forward to a later boundary or is
the last. -/
structure Terminates (δ : Type) (body : Text) : Prop where
  ends : ∀ json : Json δ, ∃ turns, deserializeBodyFormData turns body json ≠ .error .outOfFuel
  forward : ∀ frame, frameFormat body = some frame → ∀ start, Visits body frame start →
    GoesOn body start → LaterBoundary body frame start (nextStart body frame start) ∨
      Leaves body (nextStart body frame start)

/-- A boundary that is empty is not gone on from, and no turn but the last finds a boundary whose
position has more than 32 bits. -/
def Framed (body : Text) : Prop :=
  ∀ frame, frameFormat body = some frame → (frame = [] → ¬ GoesOn body 0) ∧
    ∀ start, Visits body frame start → GoesOn body start →
      boundary body frame start = npos ∨ boundary body frame start < 4294967296 ∨
        Leaves body (nextStart body frame start)

section Turns

theorem formDataFrom_succ (body frame : Text) (turns : ℕ) (start : ℤ) (json : Json δ) :
    formDataFrom body frame (turns + 1) start json = (do
      match ← keyAndValue body start with
      | some (key, value) =>
        formDataFrom body frame turns (nextStart body frame start)
          (json.setKey key (.ofValue (.string value)))
      | none => .ok json) := by
  conv_lhs => unfold formDataFrom
  unfold keyAndValue
  simp only
  generalize toInt (find body keyFormat (sizeT start)) = keyStart
  by_cases hkey : -1 < keyStart
  · rw [if_pos hkey, if_pos hkey]
    generalize substr body (sizeT (toInt (keyStart + (keyFormat.length + 1)))) _ = key
    generalize substr body (sizeT (toInt _)) _ = value
    cases key with
    | error e => rfl
    | ok key =>
      cases value with
      | error e => rfl
      | ok value => rfl
  · rw [if_neg hkey, if_neg hkey]
    rfl

theorem formData_of_some (h : frameFormat body = some frame) (turns : ℕ) (json : Json δ) :
    deserializeBodyFormData turns body json = formDataFrom body frame turns 0 json := by
  unfold frameFormat at h
  unfold deserializeBodyFormData
  simp only at h ⊢
  generalize toInt (find body keyFormat 0) = formDataStart at h ⊢
  by_cases hkey : -1 < formDataStart
  · rw [if_pos hkey] at h
    rw [if_pos hkey, substr_of_le (Nat.zero_le _), ok_bind, List.drop_zero, Option.some.inj h]
  · rw [if_neg hkey] at h
    cases h

theorem formData_of_none (h : frameFormat body = none) (turns : ℕ) (json : Json δ) :
    deserializeBodyFormData turns body json = .ok json := by
  unfold frameFormat at h
  unfold deserializeBodyFormData
  simp only at h ⊢
  generalize toInt (find body keyFormat 0) = formDataStart at h ⊢
  by_cases hkey : -1 < formDataStart
  · rw [if_pos hkey] at h
    cases h
  · rw [if_neg hkey]

theorem turn_of_goesOn (h : GoesOn body start) (frame : Text) (json : Json δ) :
    ∃ json', ∀ turns, formDataFrom body frame (turns + 1) start json =
      formDataFrom body frame turns (nextStart body frame start) json' := by
  obtain ⟨⟨key, value⟩, hturn⟩ := h
  refine ⟨json.setKey key (.ofValue (.string value)), fun turns => ?_⟩
  rw [formDataFrom_succ, hturn]
  rfl

/-- A turn throws, if it does, because a position is out of range. -/
theorem keyAndValue_cases (body : Text) (start : ℤ) :
    GoesOn body start ∨ Leaves body start ∨ keyAndValue body start = .error .outOfRange := by
  have hsubstr : ∀ pos count, (∃ text, substr body pos count = .ok text) ∨
      substr body pos count = .error .outOfRange := by
    intro pos count
    by_cases hpos : pos ≤ body.length
    · exact Or.inl ⟨_, substr_of_le hpos count⟩
    · exact Or.inr (substr_of_lt (by omega) count)
  unfold GoesOn Leaves keyAndValue
  simp only
  generalize toInt (find body keyFormat (sizeT start)) = keyStart
  by_cases hkey : -1 < keyStart
  · rw [if_pos hkey]
    generalize toInt (keyStart + (keyFormat.length + 1)) = keyStart
    generalize toInt (find body ['"'] (sizeT keyStart)) = keyEnd
    generalize toInt (find body (crlf ++ crlf) (sizeT keyEnd) + 4) = valueStart
    generalize toInt (find body crlf (sizeT valueStart)) = valueEnd
    rcases hsubstr (sizeT keyStart) (sizeT (toInt (keyEnd - keyStart))) with ⟨key, hk⟩ | hk
    · rw [hk, ok_bind]
      rcases hsubstr (sizeT valueStart) (sizeT (toInt (valueEnd - valueStart))) with
        ⟨value, hv⟩ | hv
      · rw [hv, ok_bind]
        exact Or.inl ⟨(key, value), rfl⟩
      · rw [hv]
        exact Or.inr (Or.inr rfl)
    · rw [hk]
      exact Or.inr (Or.inr rfl)
  · rw [if_neg hkey]
    exact Or.inr (Or.inl rfl)

theorem ends_of_not_goesOn (h : ¬ GoesOn body start) (frame : Text) (json : Json δ) :
    formDataFrom body frame 1 start json ≠ .error .outOfFuel := by
  rw [formDataFrom_succ]
  rcases keyAndValue_cases body start with hon | hleaves | hthrows
  · exact absurd hon h
  · rw [hleaves]
    exact fun h => nomatch h
  · rw [hthrows]
    exact fun h => nomatch h

/-- A negative start is behind the end of the text. -/
theorem leaves_of_neg (hsize : body.length < 9223372036854775808)
    (hlow : -2147483648 ≤ start) (hneg : start < 0) : Leaves body start := by
  have hbehind : body.length < sizeT start := by
    unfold sizeT
    omega
  unfold Leaves keyAndValue
  rw [find_of_lt hbehind]
  rfl

theorem not_goesOn_of_leaves (h : Leaves body start) : ¬ GoesOn body start := by
  rintro ⟨e, hon⟩
  rw [Leaves, hon] at h
  cases h

theorem visits_range (h : Visits body frame start) :
    -2147483648 ≤ start ∧ start < 2147483648 := by
  cases h with
  | first => omega
  | next => exact toInt_range _

theorem nonneg_of_goesOn (hsize : body.length < 9223372036854775808)
    (h : Visits body frame start) (hon : GoesOn body start) : 0 ≤ start := by
  by_contra hneg
  exact not_goesOn_of_leaves (leaves_of_neg hsize (visits_range h).1 (by omega)) hon

end Turns

section Ends

/-- Starts that go forward come to an end. -/
theorem exists_turns (hforward : ∀ start, Visits body frame start → GoesOn body start →
      LaterBoundary body frame start (nextStart body frame start) ∨
        Leaves body (nextStart body frame start))
    (hn : 2147483648 - start ≤ n) (hstart : Visits body frame start) (json : Json δ) :
    ∃ turns, formDataFrom body frame turns start json ≠ .error .outOfFuel := by
  induction n generalizing start json with
  | zero =>
    have := (visits_range hstart).2
    omega
  | succ n ih =>
    by_cases hon : GoesOn body start
    · obtain ⟨json', hturn⟩ := turn_of_goesOn hon frame json
      rcases hforward start hstart hon with ⟨hlt, -⟩ | hleaves
      · obtain ⟨turns, hends⟩ := ih (by omega) (.next hstart hon) json'
        exact ⟨turns + 1, by rwa [hturn]⟩
      · refine ⟨1 + 1, ?_⟩
        rw [hturn]
        exact ends_of_not_goesOn (not_goesOn_of_leaves hleaves) frame json'
    · exact ⟨1, ends_of_not_goesOn hon frame json⟩

theorem nextStart_nil (body : Text) : nextStart body [] 0 = 0 := by
  have hnil : indexOf [] (body.drop 0) = some 0 :=
    indexOf_eq_some_iff.mpr ⟨Nat.zero_le _, List.nil_prefix, by simp⟩
  have hzero : sizeT ((0 : ℤ) + ([] : Text).length) = 0 := rfl
  unfold nextStart boundary
  rw [hzero, find_of_some (Nat.zero_le _) hnil]
  rfl

/-- A loop that goes on from an empty boundary stays at its first start. -/
theorem visits_nil (h : Visits body [] start) : start = 0 := by
  induction h with
  | first => rfl
  | next _ hon ih =>
    rw [ih]
    exact nextStart_nil body

theorem forward_of_framed (hsize : body.length < 9223372036854775808) (h : Framed body)
    (hframe : frameFormat body = some frame) (hstart : Visits body frame start)
    (hon : GoesOn body start) :
    LaterBoundary body frame start (nextStart body frame start) ∨
      Leaves body (nextStart body frame start) := by
  obtain ⟨hempty, hnear⟩ := h frame hframe
  rcases hnear start hstart hon with hnone | hlt | hleaves
  · right
    unfold nextStart
    rw [hnone]
    exact leaves_of_neg hsize (by decide) (by decide)
  · have hpos := nonneg_of_goesOn hsize hstart hon
    have hhigh := (visits_range hstart).2
    by_cases hfits : boundary body frame start < 2147483648
    · left
      have hnext : nextStart body frame start = boundary body frame start :=
        toInt_of_lt (by omega) (by omega)
      have hne : frame ≠ [] := by
        rintro rfl
        rw [visits_nil hstart] at hon
        exact hempty rfl hon
      have hlength := List.length_pos_iff.mpr hne
      rw [hnext]
      rcases find_cases body frame (sizeT (start + frame.length)) with hnone | hfound
      · unfold boundary at hlt
        rw [hnone] at hlt
        exact absurd hlt (by decide)
      · obtain ⟨hle, hend, hat, -⟩ := hfound
        have hcast : (sizeT (start + frame.length) : ℤ) = start + frame.length :=
          sizeT_of_lt (by omega) (by omega)
        unfold boundary
        refine ⟨by omega, by omega, ?_⟩
        rw [Int.toNat_natCast]
        exact hat
    · right
      have hneg : nextStart body frame start < 0 := by
        unfold nextStart toInt
        omega
      exact leaves_of_neg hsize (toInt_range _).1 hneg
  · exact Or.inr hleaves

theorem framed_of_forward (hsize : body.length < 9223372036854775808)
    (h : ∀ frame, frameFormat body = some frame → ∀ start, Visits body frame start →
      GoesOn body start → LaterBoundary body frame start (nextStart body frame start) ∨
        Leaves body (nextStart body frame start)) : Framed body := by
  intro frame hframe
  constructor
  · rintro rfl hon
    have hnext := h [] hframe 0 .first hon
    rw [nextStart_nil] at hnext
    rcases hnext with ⟨hlt, -⟩ | hleaves
    · exact absurd hlt (Int.lt_irrefl 0)
    · exact not_goesOn_of_leaves hleaves hon
  · intro start hstart hon
    rcases h frame hframe start hstart hon with ⟨hlt, hfar, hat⟩ | hleaves
    · have hpos := nonneg_of_goesOn hsize hstart hon
      rcases find_cases body frame (sizeT (start + frame.length)) with hnone | hfound
      · exact Or.inl hnone
      · right
        left
        obtain ⟨hle, hend, -, hfirst⟩ := hfound
        by_contra hbig
        have hhigh := (visits_range hstart).2
        have hrange := toInt_range (boundary body frame start)
        have hcast : (sizeT (start + frame.length) : ℤ) = start + frame.length :=
          sizeT_of_lt (by omega) (by omega)
        unfold nextStart at hlt hfar hat
        unfold boundary at hbig hlt hfar hat hrange
        exact hfirst _ (by omega) (by omega) hat
    · exact Or.inr (Or.inr hleaves)

/-- The loop over form data ends with its starts going forward exactly where its boundary is not
empty, or the first turn throws, and no turn finds a boundary too far behind. -/
theorem terminates_iff_framed (hsize : body.length < 9223372036854775808) :
    Terminates δ body ↔ Framed body := by
  constructor
  · exact fun h => framed_of_forward hsize h.forward
  · intro h
    refine ⟨fun json => ?_, fun frame hframe start hstart hon =>
      forward_of_framed hsize h hframe hstart hon⟩
    cases hframe : frameFormat body with
    | none =>
      refine ⟨0, ?_⟩
      rw [formData_of_none hframe]
      exact fun h => nomatch h
    | some frame =>
      obtain ⟨turns, hends⟩ := exists_turns (n := 2147483648)
        (fun start => forward_of_framed hsize h hframe) (Int.le_refl _) .first json
      exact ⟨turns, by rwa [formData_of_some hframe]⟩

end Ends

section Short

theorem goesOn_of_startsWithKey (hsize : body.length < 2147483648) (hkey : keyFormat <+: body) :
    GoesOn body 0 ↔ keyFormat.length < body.length := by
  have hlength : keyFormat.length = 37 := rfl
  have hindex : indexOf keyFormat body = some 0 :=
    indexOf_eq_some_iff.mpr ⟨Nat.zero_le _, hkey, fun j hj => absurd hj (Nat.not_lt_zero j)⟩
  have hfind : toInt (find body keyFormat (sizeT 0)) = 0 := by
    have hzero : sizeT 0 = 0 := rfl
    rw [hzero, find_of_some (Nat.zero_le _) (by rwa [List.drop_zero])]
    rfl
  have hstart : sizeT (toInt (0 + ((37 : ℕ) + 1))) = 38 := rfl
  unfold GoesOn keyAndValue
  simp only [hfind, hlength]
  rw [if_pos (by decide), hstart]
  by_cases hlt : 38 ≤ body.length
  · have hvalue := valueStart_le hsize (by omega)
      (sizeT (toInt (find body ['"'] 38)))
    rw [substr_of_le hlt, ok_bind, substr_of_le hvalue, ok_bind]
    exact iff_of_true ⟨_, rfl⟩ (by omega)
  · rw [substr_of_lt (by omega), error_bind]
    exact iff_of_false (fun ⟨e, h⟩ => nomatch h) (by omega)

theorem frameFormat_of_some {i : ℕ} (hsize : body.length < 2147483648)
    (h : indexOf keyFormat body = some i) : frameFormat body = some (body.take i) := by
  have hend := add_length_le_of_indexOf h
  have hfind : toInt (find body keyFormat 0) = i := by
    rw [find_of_some (Nat.zero_le _) (by rwa [List.drop_zero]), Nat.zero_add]
    exact toInt_of_lt (by omega) (by omega)
  have hat : sizeT (i : ℤ) = i := by
    unfold sizeT
    omega
  unfold frameFormat
  simp only [hfind]
  rw [if_pos (by omega), hat]

theorem frameFormat_of_none (h : indexOf keyFormat body = none) : frameFormat body = none := by
  unfold frameFormat
  rw [find_of_none (by rwa [List.drop_zero])]
  rfl

/-- For a body that an `int` can index, all depends on what it begins with. -/
theorem framed_iff (hsize : body.length < 2147483648) :
    Framed body ↔ (keyFormat <+: body → body = keyFormat) := by
  have hlength : keyFormat.length = 37 := rfl
  constructor
  · intro h hkey
    have hindex : indexOf keyFormat body = some 0 :=
      indexOf_eq_some_iff.mpr ⟨Nat.zero_le _, hkey, fun j hj => absurd hj (Nat.not_lt_zero j)⟩
    have hstay := (h _ (frameFormat_of_some hsize hindex)).1 List.take_zero
    rw [goesOn_of_startsWithKey hsize hkey] at hstay
    exact (hkey.eq_of_length_le (by omega)).symm
  · intro h frame hframe
    constructor
    · rintro rfl
      cases hindex : indexOf keyFormat body with
      | none =>
        rw [frameFormat_of_none hindex] at hframe
        cases hframe
      | some i =>
        rw [frameFormat_of_some hsize hindex, Option.some_inj, List.take_eq_nil_iff] at hframe
        obtain ⟨hle, hat, _⟩ := indexOf_eq_some_iff.mp hindex
        have hend := add_length_le_of_indexOf hindex
        have hzero : i = 0 := by
          rcases hframe with hzero | hnil
          · exact hzero
          · rw [hnil, List.length_nil] at hend
            omega
        rw [hzero, List.drop_zero] at hat
        rw [goesOn_of_startsWithKey hsize hat, h hat]
        exact Nat.lt_irrefl _
    · intro start _ _
      rcases find_cases body frame (sizeT (start + frame.length)) with hnone | hfound
      · exact Or.inl hnone
      · right
        left
        unfold boundary
        omega

/-- From an empty boundary the loop goes on without end. -/
theorem formDataFrom_nil (hon : GoesOn body 0) (turns : ℕ) (json : Json δ) :
    formDataFrom body [] turns 0 json = .error .outOfFuel := by
  induction turns generalizing json with
  | zero => rfl
  | succ turns ih =>
    obtain ⟨json', hturn⟩ := turn_of_goesOn hon [] json
    rw [hturn, nextStart_nil]
    exact ih json'

/-- A form with one field, behind its boundary or without one. -/
def formBody (front : Text) : Text := front ++ keyFormat ++ "\"a\"\r\n\r\n1\r\n".toList

theorem terminates_iff_framed_dashes : Terminates Empty (formBody ['-', '-', '\r', '\n']) := by
  rw [terminates_iff_framed (by decide), framed_iff (by decide)]
  exact fun h => absurd h (by decide)

/-- A form that begins with the words in front of its first key. -/
theorem not_terminates_noBoundary : ¬ Terminates Empty (formBody []) ∧
    ∀ turns, deserializeBodyFormData turns (formBody []) (.null : Json Empty) =
      .error .outOfFuel := by
  have hkey : indexOf keyFormat (formBody []) = some 0 := by decide
  have hframe : frameFormat (formBody []) = some [] := frameFormat_of_some (by decide) hkey
  have hon : GoesOn (formBody []) 0 := by
    rw [goesOn_of_startsWithKey (by decide) (by decide)]
    decide
  have hnever : ∀ turns, deserializeBodyFormData turns (formBody []) (.null : Json Empty) =
      .error .outOfFuel := by
    intro turns
    rw [formData_of_some hframe, formDataFrom_nil hon]
  refine ⟨fun h => ?_, hnever⟩
  obtain ⟨turns, hends⟩ := h.ends .null
  exact hends (hnever turns)

end Short

end OrderBookServer.HttpRequest
