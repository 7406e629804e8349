import Mathlib.Order.Lattice
import OrderBookServer.JsonParse

/-!
What the scanners of the reader find. Each test of a character or a word is a function
of the bytes it looks at; a scan goes to the first position that meets its test, or to
the end of the text.
-/
namespace OrderBookServer

namespace Input

open JsonParse

variable (input : Input)

def wordAt (word : Text) (follows : Char → Bool) (start : ℕ) : Bool :=
  decide (start + word.length < input.size) && !follows (input.byte (start + word.length)) &&
    word.isPrefixOf (input.text.drop start)

def booleanAt (start : ℕ) : Option Bool :=
  if input.wordAt ['t', 'r', 'u', 'e'] isLetter start then some true
  else if input.wordAt ['f', 'a', 'l', 's', 'e'] isLetter start then some false
  else none

def nullAt (start : ℕ) : Bool :=
  input.wordAt ['n', 'u', 'l', 'l'] (fun c => isLetter c || isNumber c) start

/-- The condition on which the scan for a value ends. -/
def startsValue (start : ℕ) : Bool :=
  input.byte start == '"' || input.byte start == '{' || input.byte start == '[' ||
    isNumber (input.byte start) || (input.booleanAt start).isSome || input.nullAt start

def closes (start : ℕ) : Bool := input.byte start == '}' || input.byte start == ']'

def takesNumber (i : ℕ) : Bool :=
  isNumber (input.byte i) || input.byte i == '.' ||
    (input.byte i == 'e' && input.byte (i + 1) == '-')

variable {input} {p : ℕ} {c : Char} {word rest : Text}

theorem lt_size_of_drop (h : input.text.drop p = c :: rest) : p < input.size := by
  by_contra hge
  rw [List.drop_eq_nil_of_le (by unfold size at hge; omega)] at h
  cases h

theorem byte_of_drop (h : input.text.drop p = c :: rest) : input.byte p = c := by
  have hget : input.text[p]? = some c := by
    rw [← List.head?_drop, h]
    rfl
  simp only [byte, hget]

theorem drop_append (h : input.text.drop p = word ++ rest) :
    input.text.drop (p + word.length) = rest := by
  rw [← List.drop_drop, h, List.drop_left]

theorem drop_cons (h : input.text.drop p = c :: rest) : input.text.drop (p + 1) = rest := by
  rw [← List.drop_drop, h, List.drop_one, List.tail_cons]

end Input

namespace JsonParse

variable {α β : Type} {input : Input} {limit p : ℕ} {s : ParseState}

section Sequences

variable {x : Parser α} {f : α → Parser β} {a : α} {s' : ParseState}

theorem bind_ok (h : x s = .ok a s') : (x >>= f) s = f a s' := by
  change EStateM.bind x f s = _
  unfold EStateM.bind
  rw [h]

theorem bind_error {e : Abort} (h : x s = .error e s') : (x >>= f) s = .error e s' := by
  change EStateM.bind x f s = _
  unfold EStateM.bind
  rw [h]

/-- What follows goes on alike where two programs have come to the same result. -/
theorem bind_run_congr {y : Parser α} {t : ParseState} (h : x s = y t) :
    (x >>= f) s = (y >>= f) t := by
  cases hy : y t with
  | error e t' => rw [bind_error hy, bind_error (h.trans hy)]
  | ok a t' => rw [bind_ok hy, bind_ok (h.trans hy)]

end Sequences

/-- The program only looks at bytes below `limit`, and gives `a`. -/
def Peeks (limit : ℕ) (x : Parser α) (a : α) : Prop :=
  ∀ s, ∃ r, x s = .ok a { s with reach := r } ∧ r ≤ max s.reach limit

section Peeks

variable {x : Parser α} {f : α → Parser β} {a : α} {b : β}

theorem Peeks.pure : Peeks limit (pure a : Parser α) a :=
  fun s => ⟨s.reach, rfl, Nat.le_max_left ..⟩

theorem Peeks.bind (hx : Peeks limit x a) (hf : Peeks limit (f a) b) : Peeks limit (x >>= f) b := by
  intro s
  obtain ⟨r, hok, hr⟩ := hx s
  obtain ⟨r', hok', hr'⟩ := hf { s with reach := r }
  simp only at hr'
  exact ⟨r', by rw [bind_ok hok, hok'], by omega⟩

theorem Peeks.map (g : α → β) (hx : Peeks limit x a) : Peeks limit (g <$> x) (g a) :=
  hx.bind Peeks.pure

theorem peeks_charAt {i : ℕ} (hi : i < limit) : Peeks limit (charAt input i) (input.byte i) :=
  fun s => ⟨max s.reach (i + 1), rfl, by omega⟩

theorem peeks_checkExceedSize {i : ℕ} (hi : i < input.size) :
    Peeks limit (checkExceedSize input i) false := by
  intro s
  refine ⟨s.reach, ?_, Nat.le_max_left ..⟩
  rw [checkExceedSize, if_neg (by omega)]

theorem peeks_isWord (word : Text) (follows : Char → Bool) (start : ℕ)
    (hlimit : input.size ≤ limit) :
    Peeks limit (isWord input word follows start) (input.wordAt word follows start) := by
  unfold isWord Input.wordAt
  split
  · rename_i hlt
    have hread : Peeks limit (charAt input (start + word.length)) _ :=
      peeks_charAt (Nat.lt_of_lt_of_le hlt hlimit)
    simp only [hlt, decide_true, Bool.true_and]
    exact hread.bind Peeks.pure
  · rename_i hge
    simp only [hge, decide_false, Bool.false_and]
    exact Peeks.pure

theorem peeks_isBoolean (input : Input) (start : ℕ) (hlimit : input.size ≤ limit) :
    Peeks limit (isBoolean input start) (input.booleanAt start) := by
  unfold isBoolean Input.booleanAt
  refine (peeks_isWord _ _ _ hlimit).bind ?_
  split
  · exact Peeks.pure
  · refine (peeks_isWord _ _ _ hlimit).bind ?_
    split
    · exact Peeks.pure
    · exact Peeks.pure

theorem peeks_isNull (input : Input) (start : ℕ) (hlimit : input.size ≤ limit) :
    Peeks limit (isNull input start) (input.nullAt start) := peeks_isWord _ _ _ hlimit

theorem peeks_valueStop {i : ℕ} (hi : i < limit) (hlimit : input.size ≤ limit) :
    Peeks limit (valueStop input i) (input.startsValue i || input.closes i) := by
  unfold valueStop Input.startsValue
  refine (peeks_charAt hi).bind ?_
  split
  · rename_i hstart
    simp only [hstart, Bool.true_or]
    exact Peeks.pure
  · rename_i hstart
    simp only [Bool.not_eq_true] at hstart
    refine (peeks_isBoolean input i hlimit).bind ?_
    cases hboolean : (input.booleanAt i).isSome with
    | true =>
      simp only [if_true, Bool.or_true, Bool.true_or]
      exact Peeks.pure
    | false =>
      simp only [Bool.false_eq_true, if_false, hstart, Bool.false_or]
      refine (peeks_isNull input i hlimit).bind ?_
      cases input.nullAt i with
      | true => exact Peeks.pure
      | false => exact Peeks.pure

theorem peeks_numberStop {i : ℕ} (hi : i < limit) (he : input.byte i = 'e' → i + 1 < limit) :
    Peeks limit (numberStop input i) (!input.takesNumber i) := by
  unfold numberStop Input.takesNumber
  refine (peeks_charAt hi).bind ?_
  split
  · rename_i htakes
    simp only [htakes, Bool.true_or, Bool.not_true]
    exact Peeks.pure
  · rename_i htakes
    simp only [Bool.not_eq_true] at htakes
    simp only [htakes, Bool.false_or]
    split
    · rename_i heq
      have hnext : Peeks limit (charAt input (i + 1)) _ := peeks_charAt (he (beq_iff_eq.mp heq))
      simp only [heq, Bool.true_and]
      exact hnext.bind Peeks.pure
    · rename_i hne
      simp only [Bool.not_eq_true] at hne
      simp only [hne, Bool.false_and, Bool.not_false]
      exact Peeks.pure

end Peeks

section Scan

variable {stop : ℕ → Parser Bool} {f : ℕ → Bool}

theorem checkExceedSize_of_le {i : ℕ} (hi : input.size ≤ i) (s : ParseState) :
    checkExceedSize input i s = .ok true { s with isValid := false } := by
  rw [checkExceedSize, if_pos hi]

theorem checkExceedSize_of_lt {i : ℕ} (hi : i < input.size) (s : ParseState) :
    checkExceedSize input i s = .ok false s := by
  rw [checkExceedSize, if_neg (by omega)]

/-- One turn of a scan. -/
theorem scan_eq (stop : ℕ → Parser Bool) (i : ℕ) : scan input stop i = (do
    if ← stop i then pure (i, false)
    else if ← checkExceedSize input (i + 1) then pure (i + 1, true)
    else scan input stop (i + 1)) := by
  unfold scan
  by_cases hlast : i + 1 < input.size
  · obtain ⟨turns, hturns⟩ := Nat.exists_eq_add_of_lt hlast
    have hnow : input.size - 1 - i = turns + 1 := by omega
    have hnext : input.size - 1 - (i + 1) = turns := by omega
    rw [hnow, hnext]
    rfl
  · have hnow : input.size - 1 - i = 0 := by omega
    rw [hnow]
    funext s
    cases hstop : stop i s with
    | error e s' => rw [scanFrom, bind_error hstop, bind_error hstop]
    | ok b s' =>
      rw [scanFrom, bind_ok hstop, bind_ok hstop]
      cases b with
      | true => rfl
      | false =>
        have hexceed := checkExceedSize_of_le (show input.size ≤ i + 1 by omega) s'
        simp only [Bool.false_eq_true, if_false]
        rw [bind_ok hexceed, bind_ok hexceed]
        rfl

/-- The scan comes to the end of the text, and `check_exceed_size` breaks it at `q`. -/
def Overruns (limit q : ℕ) (x : Parser (ℕ × Bool)) : Prop :=
  ∀ s, ∃ r, x s = .ok (q, true) { s with reach := r, isValid := false } ∧ r ≤ max s.reach limit

theorem peeks_scan_here (hstop : Peeks limit (stop p) true) :
    Peeks limit (scan input stop p) (p, false) := by
  rw [scan_eq]
  exact hstop.bind Peeks.pure

theorem overruns_scan_here (hstop : Peeks limit (stop p) false) (hp : input.size ≤ p + 1) :
    Overruns limit (p + 1) (scan input stop p) := by
  intro s
  obtain ⟨r, hok, hr⟩ := hstop s
  refine ⟨r, ?_, hr⟩
  rw [scan_eq, bind_ok hok]
  simp only [Bool.false_eq_true, if_false]
  rw [bind_ok (checkExceedSize_of_le hp _)]
  rfl

theorem scan_next (hstop : Peeks limit (stop p) false) (hp : p + 1 < input.size)
    (s : ParseState) : ∃ r, r ≤ max s.reach limit ∧
      scan input stop p s = scan input stop (p + 1) { s with reach := r } := by
  obtain ⟨r, hok, hr⟩ := hstop s
  refine ⟨r, hr, ?_⟩
  rw [scan_eq, bind_ok hok]
  simp only [Bool.false_eq_true, if_false]
  rw [bind_ok (checkExceedSize_of_lt hp _)]
  rfl

/-- A scan from `p` passes what does not meet its test. It stops where the test is met, or
it comes to the end of the text. -/
theorem scan_cases (hstop : ∀ i, p ≤ i → (i = p ∨ i < input.size) →
      (∀ j, p ≤ j → j < i → f j = false) → Peeks limit (stop i) (f i)) :
    ∃ q, p ≤ q ∧ (∀ j, p ≤ j → j < q → f j = false) ∧
      ((f q = true ∧ (q = p ∨ q < input.size) ∧ Peeks limit (scan input stop p) (q, false)) ∨
        (input.size ≤ q ∧ (q = p + 1 ∨ p < q ∧ q = input.size) ∧
          Overruns limit q (scan input stop p))) := by
  induction hn : input.size - p using Nat.strong_induction_on generalizing p with
  | _ n ih =>
    have hhead := hstop p (Nat.le_refl p) (Or.inl rfl) fun j hj hlt => absurd hlt (by omega)
    cases hf : f p with
    | true =>
      rw [hf] at hhead
      exact ⟨p, Nat.le_refl p, fun j hj hlt => absurd hlt (by omega),
        Or.inl ⟨hf, Or.inl rfl, peeks_scan_here hhead⟩⟩
    | false =>
      rw [hf] at hhead
      have hpassed : ∀ q, (∀ j, p + 1 ≤ j → j < q → f j = false) →
          ∀ j, p ≤ j → j < q → f j = false := by
        intro q hbefore j hj hlt
        by_cases heq : j = p
        · rw [heq]
          exact hf
        · exact hbefore j (by omega) hlt
      by_cases hlast : p + 1 < input.size
      · obtain ⟨q, hle, hbefore, hend⟩ := ih (input.size - (p + 1)) (by omega)
          (fun i hi hin hfalse => hstop i (by omega) (by omega) (hpassed i hfalse)) rfl
        refine ⟨q, by omega, hpassed q hbefore, ?_⟩
        rcases hend with ⟨hmet, hin, hpeeks⟩ | ⟨hsize, hq, hover⟩
        · refine Or.inl ⟨hmet, by omega, fun s => ?_⟩
          obtain ⟨r, hr, hnext⟩ := scan_next hhead hlast s
          obtain ⟨r', hok, hr'⟩ := hpeeks { s with reach := r }
          simp only at hr'
          exact ⟨r', by rw [hnext, hok], by omega⟩
        · refine Or.inr ⟨hsize, by omega, fun s => ?_⟩
          obtain ⟨r, hr, hnext⟩ := scan_next hhead hlast s
          obtain ⟨r', hok, hr'⟩ := hover { s with reach := r }
          simp only at hr'
          exact ⟨r', by rw [hnext, hok], by omega⟩
      · exact ⟨p + 1, by omega, hpassed (p + 1) fun j hj hlt => absurd hlt (by omega),
          Or.inr ⟨by omega, Or.inl rfl, overruns_scan_here hhead (by omega)⟩⟩

/-- Where the first position that meets the test lies in the text, the scan stops there. -/
theorem peeks_scan {q : ℕ} (hstop : ∀ i, p ≤ i → i ≤ q → Peeks limit (stop i) (f i))
    (hpq : p ≤ q) (hq : q < input.size) (hpassed : ∀ j, p ≤ j → j < q → f j = false)
    (hmet : f q = true) : Peeks limit (scan input stop p) (q, false) := by
  induction hn : q - p generalizing p with
  | zero =>
    have heq : p = q := by omega
    have hhead := hstop p (Nat.le_refl p) hpq
    rw [heq, hmet] at hhead
    rw [heq]
    exact peeks_scan_here hhead
  | succ n ih =>
    have hhead := hstop p (Nat.le_refl p) hpq
    rw [hpassed p (Nat.le_refl p) (by omega)] at hhead
    have htail := ih (p := p + 1) (fun i hi hle => hstop i (by omega) hle) (by omega)
      (fun j hj hlt => hpassed j (by omega) hlt) (by omega)
    have hlast : p + 1 < input.size := by omega
    intro s
    obtain ⟨r, hr, hnext⟩ := scan_next hhead hlast s
    obtain ⟨r', hok, hr'⟩ := htail { s with reach := r }
    simp only at hr'
    exact ⟨r', by rw [hnext, hok], by omega⟩

end Scan

/-- The end of `parse`, behind the container. -/
def finish {δ : Type} (x : Json δ × ℕ) : Parser (Json δ) := do
  if (← get).isValid then pure x.1 else pure (.ofValue .null)

end JsonParse

end OrderBookServer
