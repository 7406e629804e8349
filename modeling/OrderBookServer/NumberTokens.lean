import OrderBookServer.RoundTrip

/-!
The numbers of the JSON grammar and how much of them the reader takes. Three decisions have to
agree: where the loop of `parse_value_number` stops, which conversion it selects, and how far that
conversion reads.
-/
namespace OrderBookServer

/-- A nonempty text of digits. -/
structure Digits where
  text : Text
  ne_nil : text ≠ []
  isDigit : ∀ c ∈ text, c.isDigit

inductive ExponentSign
  | plus
  | minus
deriving DecidableEq, Repr

structure Exponent where
  capital : Bool
  sign : Option ExponentSign
  digits : Digits

/-- A number of the JSON grammar; a whole part that starts with a zero is zero. -/
structure NumberToken where
  minus : Bool
  whole : Digits
  fraction : Option Digits
  exponent : Option Exponent
  no_leading_zero : whole.text.head? = some '0' → whole.text = ['0']

namespace Exponent

def marker (x : Exponent) : Char := if x.capital then 'E' else 'e'

def signText (x : Exponent) : Text :=
  match x.sign with
  | none => []
  | some .plus => ['+']
  | some .minus => ['-']

def text (x : Exponent) : Text := x.marker :: (x.signText ++ x.digits.text)

/-- The exponent is written with a small letter and a minus sign. -/
def SmallMinus (x : Exponent) : Prop := x.capital = false ∧ x.sign = some .minus

instance (x : Exponent) : Decidable x.SmallMinus := by
  unfold SmallMinus
  infer_instance

end Exponent

namespace NumberToken

def signText (t : NumberToken) : Text := if t.minus then ['-'] else []

def fractionText (t : NumberToken) : Text :=
  match t.fraction with
  | none => []
  | some digits => '.' :: digits.text

def exponentText (t : NumberToken) : Text :=
  match t.exponent with
  | none => []
  | some x => x.text

def mantissa (t : NumberToken) : Text := t.signText ++ (t.whole.text ++ t.fractionText)

def text (t : NumberToken) : Text := t.mantissa ++ t.exponentText

/-- The number without its fraction and its exponent. -/
def value (t : NumberToken) : ℤ :=
  if t.minus then -(Nat.ofDigitChars 10 t.whole.text 0 : ℤ)
  else (Nat.ofDigitChars 10 t.whole.text 0 : ℤ)

def IsInteger (t : NumberToken) : Prop := t.fraction = none ∧ t.exponent = none

end NumberToken

/-! How many characters at the front of a text the overloads of `std::from_chars` match. -/
namespace FromChars

def digitsAt (text : Text) : ℕ := (text.takeWhile Char.isDigit).length

def signExtent (text : Text) : ℕ := if text.head? = some '-' then 1 else 0

def int64Extent (text : Text) : ℕ :=
  let sign := signExtent text
  let digits := digitsAt (text.drop sign)
  if digits = 0 then 0 else sign + digits

def fractionExtent (text : Text) : ℕ :=
  if text.head? = some '.' then 1 + digitsAt (text.drop 1) else 0

def exponentExtent (text : Text) : ℕ :=
  if text.head? = some 'e' ∨ text.head? = some 'E' then
    let next := (text.drop 1).head?
    let sign := if next = some '+' ∨ next = some '-' then 1 else 0
    let digits := digitsAt (text.drop (1 + sign))
    if digits = 0 then 0 else 1 + sign + digits
  else 0

def doubleExtent (text : Text) : ℕ :=
  let sign := signExtent text
  let whole := digitsAt (text.drop sign)
  let fraction := fractionExtent (text.drop (sign + whole))
  -- A point alone is no number.
  if whole + (fraction - 1) = 0 then 0
  else sign + whole + fraction + exponentExtent (text.drop (sign + whole + fraction))

variable {rest : Text}

theorem digitsAt_append (d : Digits) (hrest : ∀ c ∈ rest.head?, c.isDigit = false) :
    digitsAt (d.text ++ rest) = d.text.length := by
  have hstop : rest.takeWhile Char.isDigit = [] := by
    cases rest with
    | nil => rfl
    | cons c rest =>
      have hc : c.isDigit = false := hrest c rfl
      simp [hc]
  rw [digitsAt, List.takeWhile_append_of_pos d.isDigit, hstop, List.append_nil]

theorem length_pos (d : Digits) : 0 < d.text.length := List.length_pos_of_ne_nil d.ne_nil

theorem head_digit (d : Digits) (rest : Text) :
    ∃ c ∈ d.text, (d.text ++ rest).head? = some c := by
  cases h : d.text with
  | nil => exact absurd h d.ne_nil
  | cons c cs => exact ⟨c, List.mem_cons_self .., rfl⟩

theorem head_ne (d : Digits) (rest : Text) {c : Char} (hc : c.isDigit = false) :
    (d.text ++ rest).head? ≠ some c := by
  obtain ⟨x, hx, hhead⟩ := head_digit d rest
  intro heq
  rw [hhead, Option.some_inj] at heq
  rw [← heq, d.isDigit x hx] at hc
  cases hc

variable {t : NumberToken}

theorem signExtent_append (t : NumberToken) (rest : Text) :
    signExtent (t.signText ++ (t.whole.text ++ rest)) = t.signText.length := by
  cases hm : t.minus with
  | true => simp [signExtent, NumberToken.signText, hm]
  | false =>
    have hne := head_ne t.whole rest (show '-'.isDigit = false by decide)
    simp only [signExtent, NumberToken.signText, hm, Bool.false_eq_true, if_false,
      List.nil_append, if_neg hne, List.length_nil]

/-- The conversion to an integer reads the sign and the whole part. -/
theorem int64Extent_text (hrest : ∀ c ∈ rest.head?, c.isDigit = false) :
    int64Extent (t.signText ++ (t.whole.text ++ rest)) =
      t.signText.length + t.whole.text.length := by
  have hpos := length_pos t.whole
  unfold int64Extent
  simp only [signExtent_append, List.drop_left, digitsAt_append t.whole hrest]
  rw [if_neg (by omega)]

theorem exponent_head (t : NumberToken) : ∀ c ∈ t.exponentText.head?, c.isDigit = false := by
  intro c hc
  unfold NumberToken.exponentText at hc
  cases hx : t.exponent with
  | none => simp [hx] at hc
  | some x =>
    simp only [hx, Exponent.text, List.head?_cons, Option.mem_some_iff] at hc
    rw [← hc, Exponent.marker]
    split <;> decide

theorem fraction_head (t : NumberToken) :
    ∀ c ∈ (t.fractionText ++ t.exponentText).head?, c.isDigit = false := by
  intro c hc
  unfold NumberToken.fractionText at hc
  cases hf : t.fraction with
  | none =>
    simp only [hf, List.nil_append] at hc
    exact exponent_head t c hc
  | some d =>
    simp only [hf, List.cons_append, List.head?_cons, Option.mem_some_iff] at hc
    rw [← hc]
    decide

theorem fractionExtent_append (t : NumberToken) :
    fractionExtent (t.fractionText ++ t.exponentText) = t.fractionText.length := by
  unfold NumberToken.fractionText
  cases hf : t.fraction with
  | none =>
    have hne : t.exponentText.head? ≠ some '.' := by
      unfold NumberToken.exponentText
      cases t.exponent with
      | none => simp
      | some x =>
        simp only [Exponent.text, List.head?_cons, ne_eq, Option.some_inj, Exponent.marker]
        split <;> decide
    simp only [List.nil_append, fractionExtent, if_neg hne, List.length_nil]
  | some d =>
    simp only [fractionExtent, List.cons_append, List.head?_cons, if_true, List.drop_succ_cons,
      List.drop_zero, digitsAt_append d (exponent_head t), List.length_cons]
    omega

theorem exponentExtent_text (t : NumberToken) :
    exponentExtent t.exponentText = t.exponentText.length := by
  unfold NumberToken.exponentText
  cases t.exponent with
  | none => simp [exponentExtent]
  | some x =>
    have hpos := length_pos x.digits
    have hdigits : digitsAt x.digits.text = x.digits.text.length := by
      have h : digitsAt (x.digits.text ++ []) = x.digits.text.length :=
        digitsAt_append x.digits (by simp)
      rwa [List.append_nil] at h
    have hmarker : x.marker = 'e' ∨ x.marker = 'E' := by
      unfold Exponent.marker
      split
      · exact Or.inr rfl
      · exact Or.inl rfl
    unfold exponentExtent
    simp only [Exponent.text, List.head?_cons, Option.some_inj, if_pos hmarker,
      List.drop_succ_cons, List.drop_zero, Nat.add_comm 1]
    cases hs : x.sign with
    | none =>
      have hplus := head_ne x.digits [] (show '+'.isDigit = false by decide)
      have hminus := head_ne x.digits [] (show '-'.isDigit = false by decide)
      rw [List.append_nil] at hplus hminus
      simp only [Exponent.signText, hs, List.nil_append, hplus, hminus, or_self, if_false,
        List.drop_zero, hdigits, List.length_cons]
      rw [if_neg (by omega)]
      omega
    | some sign =>
      cases sign with
      | plus =>
        simp only [Exponent.signText, hs, List.cons_append, List.nil_append, List.head?_cons,
          true_or, if_true, List.drop_succ_cons, List.drop_zero, hdigits, List.length_cons]
        rw [if_neg (by omega)]
        omega
      | minus =>
        simp only [Exponent.signText, hs, List.cons_append, List.nil_append, List.head?_cons,
          or_true, if_true, List.drop_succ_cons, List.drop_zero, hdigits, List.length_cons]
        rw [if_neg (by omega)]
        omega

/-- The conversion to a double reads every number of the grammar to its end. -/
theorem doubleExtent_text (t : NumberToken) : doubleExtent t.text = t.text.length := by
  have htext : t.text =
      t.signText ++ (t.whole.text ++ (t.fractionText ++ t.exponentText)) := by
    simp [NumberToken.text, NumberToken.mantissa]
  have hpos := length_pos t.whole
  rw [htext]
  unfold doubleExtent
  simp only [signExtent_append, ← List.drop_drop, List.drop_left,
    digitsAt_append t.whole (fraction_head t), fractionExtent_append, exponentExtent_text]
  rw [if_neg (by omega)]
  simp only [List.length_append]
  omega

end FromChars

namespace NumberToken

open JsonParse

/-- What the loop of `parse_value_number` takes of a number: it goes on at an `e` only where a
minus sign follows. -/
def taken (t : NumberToken) : Text :=
  match t.exponent with
  | none => t.mantissa
  | some x => if x.SmallMinus then t.text else t.mantissa

variable {t : NumberToken} {c : Char}

theorem isNumber_of_digits (d : Digits) (hc : c ∈ d.text) : isNumber c = true := by
  simp [isNumber, d.isDigit c hc]

theorem mantissa_chars (hc : c ∈ t.mantissa) : (isNumber c || c == '.') = true := by
  unfold mantissa signText fractionText at hc
  rcases List.mem_append.mp hc with hsign | hrest
  · cases hm : t.minus with
    | false => simp [hm] at hsign
    | true =>
      simp only [hm, if_true, List.mem_singleton] at hsign
      rw [hsign]
      decide
  · rcases List.mem_append.mp hrest with hwhole | hfraction
    · rw [isNumber_of_digits t.whole hwhole, Bool.true_or]
    · cases hf : t.fraction with
      | none => simp [hf] at hfraction
      | some d =>
        simp only [hf] at hfraction
        rcases List.mem_cons.mp hfraction with rfl | hdigit
        · decide
        · rw [isNumber_of_digits d hdigit, Bool.true_or]

end NumberToken

namespace JsonParse

open FromChars NumberToken

variable {δ : Type} {input : Input} {p : ℕ} {c : Char} {rest : Text} {t : NumberToken}

/-- The loop takes all of `word`, which stands at `p`, and no more. -/
structure Spans (input : Input) (p : ℕ) (word : Text) : Prop where
  inside : p + word.length < input.size
  takes : ∀ j, p ≤ j → j < p + word.length → input.takesNumber j = true
  stops : input.takesNumber (p + word.length) = false
  last : input.byte (p + word.length) = 'e' → p + word.length + 1 < input.size

theorem takesNumber_of_mem {word : Text} (h : input.text.drop p = word ++ rest)
    (hword : ∀ c ∈ word, (isNumber c || c == '.') = true) {j : ℕ} (hj : p ≤ j)
    (hlt : j < p + word.length) : input.takesNumber j = true := by
  obtain ⟨d, more, hd, hat⟩ := drop_inside h hj hlt
  rw [Input.takesNumber, Input.byte_of_drop hat, hword d hd, Bool.true_or]

theorem not_takesNumber_delimiter (h : input.text.drop p = c :: rest) (hc : isDelimiter c = true) :
    input.takesNumber p = false := by
  obtain ⟨hnumber, _, _, hpoint, hexp⟩ := delimiter_facts hc
  simp [Input.takesNumber, Input.byte_of_drop h, hnumber, hpoint, hexp]

theorem spans_mantissa {d : Char} (h : input.text.drop p = t.mantissa ++ d :: rest)
    (hd : (isNumber d || d == '.') = false)
    (hnext : d = 'e' → ∃ x more, rest = x :: more ∧ x ≠ '-') : Spans input p t.mantissa := by
  have hdrop := Input.drop_append h
  refine ⟨Input.lt_size_of_drop hdrop, fun j hj hlt => ?_, ?_, fun he => ?_⟩
  · exact takesNumber_of_mem h (fun c hc => mantissa_chars hc) hj hlt
  · rw [Input.takesNumber, Input.byte_of_drop hdrop, hd, Bool.false_or]
    by_cases hmark : d = 'e'
    · obtain ⟨x, more, hrest, hx⟩ := hnext hmark
      have hafter := Input.drop_cons hdrop
      rw [hrest] at hafter
      simp [Input.byte_of_drop hafter, hx]
    · simp [hmark]
  · rw [Input.byte_of_drop hdrop] at he
    obtain ⟨x, more, hrest, _⟩ := hnext he
    have hafter := Input.drop_cons hdrop
    rw [hrest] at hafter
    exact Input.lt_size_of_drop hafter

/-- Behind a small `e` and a minus sign the loop goes on. -/
theorem spans_text_of_smallMinus {x : Exponent} (hx : t.exponent = some x) (hsmall : x.SmallMinus)
    (h : input.text.drop p = t.text ++ c :: rest) (hc : isDelimiter c = true) :
    Spans input p t.text := by
  have htext : t.text = t.mantissa ++ 'e' :: ('-' :: x.digits.text) := by
    obtain ⟨hcapital, hsign⟩ := hsmall
    simp [text, exponentText, hx, Exponent.text, Exponent.marker, Exponent.signText, hcapital,
      hsign]
  have hdrop := Input.drop_append h
  obtain ⟨_, _, _, _, hexp⟩ := delimiter_facts hc
  have hall : input.text.drop p =
      t.mantissa ++ 'e' :: (('-' :: x.digits.text) ++ c :: rest) := by
    rw [h, htext, List.append_assoc, List.cons_append]
  have hmark := Input.drop_append hall
  have hminus : input.text.drop (p + t.mantissa.length + 1) =
      ('-' :: x.digits.text) ++ c :: rest := Input.drop_cons hmark
  refine ⟨Input.lt_size_of_drop hdrop, fun j hj hlt => ?_, not_takesNumber_delimiter hdrop hc,
    fun he => absurd (Input.byte_of_drop hdrop ▸ he) hexp⟩
  rw [htext, List.length_append, List.length_cons] at hlt
  by_cases hinside : j < p + t.mantissa.length
  · exact takesNumber_of_mem hall (fun c hc => mantissa_chars hc) hj hinside
  · by_cases heq : j = p + t.mantissa.length
    · rw [heq, Input.takesNumber, Input.byte_of_drop hmark, Input.byte_of_drop hminus]
      decide
    · apply takesNumber_of_mem hminus _ (by omega) (by omega)
      intro y hy
      rcases List.mem_cons.mp hy with rfl | hdigit
      · decide
      · rw [isNumber_of_digits x.digits hdigit, Bool.true_or]

theorem follows_small {x : Exponent} (hsmall : ¬ x.SmallMinus) (hmarker : x.marker = 'e') :
    ∃ d more, x.signText ++ (x.digits.text ++ c :: rest) = d :: more ∧ d ≠ '-' := by
  have hcapital : x.capital = false := by
    cases hc : x.capital with
    | false => rfl
    | true => simp [Exponent.marker, hc] at hmarker
  cases hs : x.sign with
  | none =>
    obtain ⟨d, hd, hhead⟩ := head_digit x.digits (c :: rest)
    obtain ⟨more, hmore⟩ := List.head?_eq_some_iff.mp hhead
    refine ⟨d, more, by simpa [Exponent.signText, hs] using hmore, ?_⟩
    rintro rfl
    exact absurd (x.digits.isDigit _ hd) (by decide)
  | some sign =>
    cases sign with
    | plus => exact ⟨'+', _, by simp only [Exponent.signText, hs]; rfl, by decide⟩
    | minus => exact absurd ⟨hcapital, hs⟩ hsmall

theorem spans_taken (h : input.text.drop p = t.text ++ c :: rest) (hc : isDelimiter c = true) :
    Spans input p t.taken := by
  obtain ⟨hnumber, _, _, hpoint, hexp⟩ := delimiter_facts hc
  unfold taken
  cases hx : t.exponent with
  | none =>
    have htext : t.text = t.mantissa := by simp [text, exponentText, hx]
    rw [htext] at h
    refine spans_mantissa h ?_ fun he => absurd he hexp
    simp [hnumber, hpoint]
  | some x =>
    by_cases hsmall : x.SmallMinus
    · simp only [if_pos hsmall]
      exact spans_text_of_smallMinus hx hsmall h hc
    · simp only [if_neg hsmall]
      have htext : t.text ++ c :: rest =
          t.mantissa ++ x.marker :: (x.signText ++ (x.digits.text ++ c :: rest)) := by
        simp [text, exponentText, hx, Exponent.text]
      rw [htext] at h
      apply spans_mantissa h
      · unfold Exponent.marker
        split <;> decide
      · intro hmarker
        exact follows_small hsmall hmarker

/-- What `parse_value_number` stores for the text that it has taken. -/
def numberValue [CharConv δ] (numberString : Text) : Json δ :=
  if numberString.contains '.' then
    match CharConv.fromChars numberString with
    | some x => .ofValue (.double x)
    | none => .null
  else
    match int64FromChars numberString with
    | some x => .ofValue (.int64 x)
    | none => .null

theorem peeks_getSubString {word : Text} (h : input.text.drop p = word ++ rest)
    (hin : p + word.length ≤ input.size) :
    Peeks input.size (getSubString input p (p + word.length)) word := by
  have hsub : (input.text.drop p).take (p + word.length - p) = word := by
    rw [h, Nat.add_sub_cancel_left, List.take_left]
  unfold getSubString
  rw [if_pos hin, hsub]
  exact Peeks.pure

theorem peeks_parseValueNumber [CharConv δ] {word : Text} (h : input.text.drop p = word ++ rest)
    (hspans : Spans input p word) :
    Peeks input.size (parseValueNumber input p : Parser (Json δ × ℕ))
      (numberValue word, p + word.length) := by
  have hscan : Peeks input.size (scan input (numberStop input) p) (p + word.length, false) := by
    refine peeks_scan (f := fun i => !input.takesNumber i) (fun i hi hle => ?_) (by omega)
      hspans.inside (fun j hj hlt => by simp [hspans.takes j hj hlt]) (by simp [hspans.stops])
    have hin := hspans.inside
    refine peeks_numberStop (by omega) fun he => ?_
    by_cases heq : i = p + word.length
    · rw [heq] at he ⊢
      exact hspans.last he
    · omega
  unfold parseValueNumber
  refine hscan.bind ((peeks_getSubString h (Nat.le_of_lt hspans.inside)).bind ?_)
  unfold numberValue
  split
  · cases (CharConv.fromChars word : Option δ) with
    | some x => exact Peeks.pure
    | none => exact Peeks.pure
  · cases int64FromChars word with
    | some x => exact Peeks.pure
    | none => exact Peeks.pure

theorem natFromChars_digits (d : Digits) :
    Decimal.natFromChars d.text = some (Nat.ofDigitChars 10 d.text 0) := by
  have htake : d.text.takeWhile Char.isDigit = d.text := by
    rw [List.takeWhile_eq_self_iff]
    exact d.isDigit
  simp only [Decimal.natFromChars, htake, if_neg d.ne_nil]

/-- The digits of an integer literal are read as its value. -/
theorem fromChars_integer (t : NumberToken) :
    Decimal.fromChars (t.signText ++ t.whole.text) = some t.value := by
  unfold signText value
  cases hm : t.minus with
  | true => simp [Decimal.fromChars, natFromChars_digits]
  | false =>
    have hne : ∀ text, t.whole.text ≠ '-' :: text := by
      intro text heq
      have hminus := t.whole.isDigit '-' (by rw [heq]; exact List.mem_cons_self ..)
      exact absurd hminus (by decide)
    simp only [Bool.false_eq_true, if_false, List.nil_append]
    unfold Decimal.fromChars
    split
    · rename_i text heq
      exact absurd heq (hne text)
    · rw [natFromChars_digits]
      rfl

theorem no_point_integer (t : NumberToken) : (t.signText ++ t.whole.text).contains '.' = false := by
  rw [List.contains_eq_mem, decide_eq_false_iff_not]
  intro hmem
  rcases List.mem_append.mp hmem with hsign | hwhole
  · unfold signText at hsign
    split at hsign <;> simp at hsign
  · exact absurd (t.whole.isDigit _ hwhole) (by decide)

theorem numberValue_integer [CharConv δ] (hint : t.IsInteger) (hfits : Fits64 t.value) :
    (numberValue t.text : Json δ) = .ofValue (.int64 (Int64.ofInt t.value)) := by
  have htext : t.text = t.signText ++ t.whole.text := by
    simp [text, mantissa, fractionText, exponentText, hint.1, hint.2]
  rw [numberValue, htext, no_point_integer]
  simp only [Bool.false_eq_true, if_false, int64FromChars, fromChars_integer, if_pos hfits]

/-- The extent of the conversion that `parse_value_number` selects for the text it has taken. -/
def conversionExtent (numberString : Text) : ℕ :=
  if numberString.contains '.' then doubleExtent numberString else int64Extent numberString

/-- The number at `p` is taken whole and converted whole, and if it is an integer of 64 bits, its
value is stored. -/
structure ReadWhole (δ : Type) [CharConv δ] (input : Input) (p : ℕ) (t : NumberToken) : Prop where
  taken : ∀ s, ∃ res s',
    (parseValueNumber input p : Parser (Json δ × ℕ)) s = .ok (res, p + t.text.length) s'
  converted : ∀ s res stop s',
    (parseValueNumber input p : Parser (Json δ × ℕ)) s = .ok (res, stop) s' →
    conversionExtent ((input.text.drop p).take (stop - p)) = t.text.length
  stored : t.IsInteger → Fits64 t.value → ∀ s res stop s',
    (parseValueNumber input p : Parser (Json δ × ℕ)) s = .ok (res, stop) s' →
    res = .ofValue (.int64 (Int64.ofInt t.value))

/-- There is no exponent, or there is a fraction and the exponent is written with `e-`. -/
def Convertible (t : NumberToken) : Prop :=
  ∀ x, t.exponent = some x → t.fraction ≠ none ∧ x.SmallMinus

theorem length_taken_eq_iff :
    t.taken.length = t.text.length ↔ ∀ x, t.exponent = some x → x.SmallMinus := by
  unfold NumberToken.taken
  cases hx : t.exponent with
  | none => simp [text, exponentText, hx]
  | some x =>
    by_cases hsmall : x.SmallMinus
    · simp [hsmall]
    · simp [hsmall, text, exponentText, hx, Exponent.text]

theorem taken_eq_text (hsmall : ∀ x, t.exponent = some x → x.SmallMinus) : t.taken = t.text := by
  unfold NumberToken.taken
  cases hx : t.exponent with
  | none => simp [text, exponentText, hx]
  | some x => simp [hsmall x hx]

theorem exists_text_eq_taken (t : NumberToken) : ∃ left, t.text = t.taken ++ left := by
  unfold NumberToken.taken
  cases t.exponent with
  | none => exact ⟨_, rfl⟩
  | some x =>
    by_cases hsmall : x.SmallMinus
    · simp only [if_pos hsmall]
      exact ⟨[], (List.append_nil _).symm⟩
    · simp only [if_neg hsmall]
      exact ⟨_, rfl⟩

theorem conversionExtent_of_fraction (hf : t.fraction ≠ none) :
    conversionExtent t.text = t.text.length := by
  obtain ⟨d, hd⟩ := Option.ne_none_iff_exists'.mp hf
  have hpoint : t.text.contains '.' = true := by
    simp [text, mantissa, fractionText, hd]
  rw [conversionExtent, hpoint, if_pos rfl, doubleExtent_text]

theorem no_point_exponent (t : NumberToken) : '.' ∉ t.exponentText := by
  unfold exponentText
  cases t.exponent with
  | none => simp
  | some x =>
    intro hmem
    rcases List.mem_cons.mp hmem with hmarker | hmem
    · unfold Exponent.marker at hmarker
      split at hmarker <;> simp at hmarker
    · rcases List.mem_append.mp hmem with hsign | hdigits
      · unfold Exponent.signText at hsign
        split at hsign <;> simp at hsign
      · exact absurd (x.digits.isDigit _ hdigits) (by decide)

/-- Without a point the conversion stops behind the whole part. -/
theorem conversionExtent_of_no_fraction (hf : t.fraction = none) :
    conversionExtent t.text = t.mantissa.length := by
  have hmantissa : t.mantissa = t.signText ++ t.whole.text := by
    simp [mantissa, fractionText, hf]
  have hpoint : t.text.contains '.' = false := by
    rw [List.contains_eq_mem, decide_eq_false_iff_not, text, hmantissa]
    intro hmem
    rcases List.mem_append.mp hmem with hleft | hright
    · have hno := no_point_integer t
      rw [List.contains_eq_mem, decide_eq_false_iff_not] at hno
      exact hno hleft
    · exact no_point_exponent t hright
  have htext : t.text = t.signText ++ (t.whole.text ++ t.exponentText) := by
    rw [text, hmantissa, List.append_assoc]
  rw [conversionExtent, hpoint, if_neg (by decide), htext, int64Extent_text (exponent_head t),
    hmantissa, List.length_append]

theorem converts_whole_iff : conversionExtent t.text = t.text.length ↔
    ∀ x, t.exponent = some x → t.fraction ≠ none := by
  by_cases hf : t.fraction = none
  · rw [conversionExtent_of_no_fraction hf]
    cases hx : t.exponent with
    | none => simp [text, exponentText, hx]
    | some x => simp [text, exponentText, hx, Exponent.text, hf]
  · simp [conversionExtent_of_fraction hf, hf]

/-- A number of the grammar that stands before a delimiter is read whole exactly when it has no
exponent, or a fraction and an exponent written with `e-`. -/
theorem readWhole_iff_convertible [CharConv δ] (h : input.text.drop p = t.text ++ c :: rest)
    (hc : isDelimiter c = true) : ReadWhole δ input p t ↔ Convertible t := by
  have hspans := spans_taken h hc
  obtain ⟨left, hleft⟩ := exists_text_eq_taken t
  rw [hleft, List.append_assoc] at h
  have hpeeks : Peeks input.size (parseValueNumber input p : Parser (Json δ × ℕ)) _ :=
    peeks_parseValueNumber h hspans
  rw [← List.append_assoc, ← hleft] at h
  constructor
  · intro hread x hx
    obtain ⟨r, hok, _⟩ := hpeeks initial
    obtain ⟨res, s', hok'⟩ := hread.taken initial
    rw [hok] at hok'
    injection hok' with heq
    have hlength : t.taken.length = t.text.length := by
      have hstop := congrArg Prod.snd heq
      simp only at hstop
      omega
    have hsmall := length_taken_eq_iff.mp hlength
    have hconv := hread.converted _ _ _ _ hok
    rw [taken_eq_text hsmall, h, Nat.add_sub_cancel_left, List.take_left] at hconv
    exact ⟨converts_whole_iff.mp hconv x hx, hsmall x hx⟩
  · intro hconv
    have hsmall : ∀ x, t.exponent = some x → x.SmallMinus := fun x hx => (hconv x hx).2
    rw [taken_eq_text hsmall] at hpeeks
    have hfound : ∀ s res stop s',
        (parseValueNumber input p : Parser (Json δ × ℕ)) s = .ok (res, stop) s' →
        res = numberValue t.text ∧ stop = p + t.text.length := by
      intro s res stop s' hok
      obtain ⟨r, hok', _⟩ := hpeeks s
      rw [hok] at hok'
      injection hok' with heq
      exact ⟨congrArg Prod.fst heq, congrArg Prod.snd heq⟩
    refine ⟨fun s => ?_, fun s res stop s' hok => ?_, fun hint hfits s res stop s' hok => ?_⟩
    · obtain ⟨r, hok, _⟩ := hpeeks s
      exact ⟨_, _, hok⟩
    · rw [(hfound s res stop s' hok).2, h, Nat.add_sub_cancel_left, List.take_left]
      exact converts_whole_iff.mpr fun x hx => (hconv x hx).1
    · rw [(hfound s res stop s' hok).1]
      exact numberValue_integer hint hfits

/-- An array with the number minus twelve. -/
def minusTwelve : Input := ⟨['[', '-', '1', '2', ']'], fun _ => '\x00'⟩

theorem readWhole_iff_convertible_minusTwelve :
    ReadWhole Empty minusTwelve 1 ⟨true, ⟨['1', '2'], by decide, by simp⟩, none, none, by decide⟩ ↔
      Convertible ⟨true, ⟨['1', '2'], by decide, by simp⟩, none, none, by decide⟩ :=
  readWhole_iff_convertible (show minusTwelve.text.drop 1 = ['-', '1', '2'] ++ ']' :: [] from rfl)
    (by decide)

/-- An array with a number that has a large exponent, as `std::to_chars` writes it. -/
def largeExponent : Input := ⟨['[', '1', 'e', '+', '2', '0', ']'], fun _ => '\x00'⟩

def largeToken : NumberToken where
  minus := false
  whole := ⟨['1'], by decide, by simp⟩
  fraction := none
  exponent := some ⟨false, some .plus, ['2', '0'], by decide, by simp⟩
  no_leading_zero := by decide

theorem not_readWhole_largeExponent :
    largeExponent.text.drop 1 = largeToken.text ++ ']' :: [] ∧
      ¬ ReadWhole Empty largeExponent 1 largeToken := by
  refine ⟨rfl, fun hread => ?_⟩
  obtain ⟨res, s', hok⟩ := hread.taken initial
  have hstop : (match (parseValueNumber largeExponent 1 : Parser (Json Empty × ℕ)) initial with
      | .ok (_, stop) _ => stop
      | .error _ _ => 0) = 2 := by rfl
  rw [hok] at hstop
  exact absurd (show 6 = 2 from hstop) (by decide)

end JsonParse

end OrderBookServer
