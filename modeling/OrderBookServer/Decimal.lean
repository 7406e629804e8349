import Mathlib.Data.Int.Notation
import Mathlib.Data.Nat.Notation

/-!
Decimal text of integers, as `std::to_chars` writes and `std::from_chars` reads it.
A text holds one character for each byte. The reader takes the longest numeral at
the front, so a numeral followed by anything but a digit is read whole.
-/
namespace OrderBookServer

abbrev Text := List Char

namespace Decimal

/-- The shortest decimal text of `x`. -/
def toChars (x : ℤ) : Text :=
  if x < 0 then '-' :: Nat.toDigits 10 x.natAbs else Nat.toDigits 10 x.natAbs

/-- The digits at the front of a text, as a number; there must be one at least. -/
def natFromChars (text : Text) : Option ℕ :=
  let digits := text.takeWhile Char.isDigit
  if digits = [] then none else some (Nat.ofDigitChars 10 digits 0)

/-- The number at the front of a text, before any check of its range. -/
def fromChars : Text → Option ℤ
  | '-' :: text => (natFromChars text).map fun n : ℕ => -(n : ℤ)
  | text => (natFromChars text).map fun n : ℕ => (n : ℤ)

variable {n : ℕ} {x : ℤ}

theorem isDigit_of_mem {c : Char} (hc : c ∈ Nat.toDigits 10 n) : c.isDigit :=
  Nat.isDigit_of_mem_toDigits (by decide) (by decide) hc

theorem natFromChars_toDigits {rest : Text} (hrest : ∀ c ∈ rest.head?, c.isDigit = false) :
    natFromChars (Nat.toDigits 10 n ++ rest) = some n := by
  have hall : ∀ c ∈ Nat.toDigits 10 n, c.isDigit := fun c hc => isDigit_of_mem hc
  have hstop : rest.takeWhile Char.isDigit = [] := by
    cases rest with
    | nil => rfl
    | cons c rest =>
      have hc : c.isDigit = false := hrest c rfl
      simp [hc]
  have htake : (Nat.toDigits 10 n ++ rest).takeWhile Char.isDigit = Nat.toDigits 10 n := by
    rw [List.takeWhile_append_of_pos hall, hstop, List.append_nil]
  simp only [natFromChars, htake, Nat.toDigits_ne_nil, if_false, Nat.ofDigitChars_ten_toDigits]

/-- What is written is read back, whatever follows it except a digit. -/
theorem fromChars_toChars {rest : Text} (hrest : ∀ c ∈ rest.head?, c.isDigit = false) :
    fromChars (toChars x ++ rest) = some x := by
  unfold toChars
  split
  · rename_i hneg
    simp only [List.cons_append, fromChars, natFromChars_toDigits hrest, Option.map_some,
      Option.some.injEq]
    omega
  · rename_i hneg
    have hhead : ∀ text, Nat.toDigits 10 x.natAbs ++ rest ≠ '-' :: text := by
      intro text heq
      cases hdigits : Nat.toDigits 10 x.natAbs with
      | nil => exact Nat.toDigits_ne_nil hdigits
      | cons c digits =>
        have hc : c.isDigit := isDigit_of_mem (n := x.natAbs) (by simp [hdigits])
        rw [hdigits, List.cons_append] at heq
        have hminus : c = '-' := (List.cons.inj heq).1
        rw [hminus] at hc
        exact absurd hc (by decide)
    have hread : fromChars (Nat.toDigits 10 x.natAbs ++ rest) =
        (natFromChars (Nat.toDigits 10 x.natAbs ++ rest)).map fun n : ℕ => (n : ℤ) := by
      unfold fromChars
      split
      · rename_i text heq
        exact absurd heq (hhead text)
      · rfl
    simp only [hread, natFromChars_toDigits hrest, Option.map_some, Option.some.injEq]
    omega

theorem toChars_ne_nil : toChars x ≠ [] := by
  unfold toChars
  split
  · simp
  · exact Nat.toDigits_ne_nil

/-- Every character of a numeral is a digit or the minus sign. -/
theorem isDigit_or_minus {c : Char} (hc : c ∈ toChars x) : c.isDigit ∨ c = '-' := by
  unfold toChars at hc
  split at hc
  · rcases List.mem_cons.mp hc with hminus | hdigit
    · exact Or.inr hminus
    · exact Or.inl (isDigit_of_mem hdigit)
  · exact Or.inl (isDigit_of_mem hc)

end Decimal

end OrderBookServer
