import Mathlib.Data.List.TakeWhile
import OrderBookServer.JsonScan
import OrderBookServer.JsonText

/-!
Reading a text of a tree. At every hand-over the position stands before the whitespace
and the separators in front of the next value, or at the comma or bracket behind the
last one, so that each scan stops at the right character and never leaves the text.
-/
namespace OrderBookServer.JsonParse

open Json

variable {δ α β : Type} {input : Input} {p q : ℕ}

/-- From a valid state the program returns `a`, stays valid, and reads the text only. -/
def Reads (input : Input) (x : Parser α) (a : α) : Prop :=
  ∀ s, s.isValid = true → ∃ s', x s = .ok a s' ∧ s'.isValid = true ∧
    s'.reach ≤ max s.reach input.size

section Rules

variable {x : Parser α} {f : α → Parser β} {a : α} {b : β}

theorem Peeks.reads (h : Peeks input.size x a) : Reads input x a := by
  intro s hs
  obtain ⟨r, hok, hr⟩ := h s
  exact ⟨_, hok, hs, hr⟩

theorem Reads.pure : Reads input (pure a : Parser α) a := Peeks.pure.reads

theorem Reads.bind (hx : Reads input x a) (hf : Reads input (f a) b) :
    Reads input (x >>= f) b := by
  intro s hs
  obtain ⟨s₁, hok, hvalid, hreach⟩ := hx s hs
  obtain ⟨s₂, hok', hvalid', hreach'⟩ := hf s₁ hvalid
  exact ⟨s₂, by rw [bind_ok hok, hok'], hvalid', by omega⟩

theorem reads_get {k : ParseState → Parser β} (hk : ∀ s, s.isValid = true → Reads input (k s) b) :
    Reads input (get >>= k) b := fun s hs => hk s hs s hs

/-- Recording a head or a turn changes neither the flag nor what has been read. -/
theorem reads_record {g : ParseState → ParseState} {k : PUnit → Parser β}
    (hvalid : ∀ s, (g s).isValid = s.isValid) (hreach : ∀ s, (g s).reach = s.reach)
    (hk : Reads input (k ⟨⟩) b) : Reads input (modify g >>= k) b := by
  intro s hs
  obtain ⟨s', hok, hvalid', hreach'⟩ := hk (g s) ((hvalid s).trans hs)
  rw [hreach] at hreach'
  exact ⟨s', hok, hvalid', hreach'⟩

end Rules

section Bytes

variable {passed rest : Text} {c : Char}

/-- What stands inside a passed piece of the text. -/
theorem drop_inside (h : input.text.drop p = passed ++ rest) {j : ℕ} (hj : p ≤ j)
    (hlt : j < p + passed.length) :
    ∃ x more, x ∈ passed ∧ input.text.drop j = x :: (more ++ rest) := by
  have hdrop : input.text.drop j = passed.drop (j - p) ++ rest := by
    have heq : p + (j - p) = j := by omega
    rw [← heq, ← List.drop_drop, h, List.drop_append_of_le_length (by omega)]
    simp
  cases htail : passed.drop (j - p) with
  | nil =>
    have hlength := congrArg List.length htail
    simp only [List.length_drop, List.length_nil] at hlength
    omega
  | cons x more =>
    have hmem : x ∈ passed.drop (j - p) := by
      rw [htail]
      exact List.mem_cons_self ..
    exact ⟨x, more, List.mem_of_mem_drop hmem, by rw [hdrop, htail]; rfl⟩

theorem reads_charAt (h : input.text.drop p = c :: rest) : Reads input (charAt input p) c := by
  have hread : Peeks input.size (charAt input p) _ := peeks_charAt (Input.lt_size_of_drop h)
  rw [Input.byte_of_drop h] at hread
  exact hread.reads

theorem reads_checkExceedSize (h : input.text.drop p = c :: rest) :
    Reads input (checkExceedSize input p) false :=
  (peeks_checkExceedSize (Input.lt_size_of_drop h)).reads

/-- A scan passes over characters that do not meet its test and stops at one that does. -/
theorem peeks_scanChar {stop : Char → Bool} (h : input.text.drop p = passed ++ c :: rest)
    (hpassed : ∀ x ∈ passed, stop x = false) (hc : stop c = true) :
    Peeks input.size (scanChar input stop p) (p + passed.length, false) := by
  have hdrop := Input.drop_append h
  have hq := Input.lt_size_of_drop hdrop
  refine peeks_scan (f := fun i => stop (input.byte i)) (fun i _ hi => ?_) (by omega) hq
    (fun j hj hlt => ?_) ?_
  · exact (peeks_charAt (by omega)).map stop
  · obtain ⟨x, more, hx, hat⟩ := drop_inside h hj hlt
    rw [Input.byte_of_drop hat]
    exact hpassed x hx
  · rw [Input.byte_of_drop hdrop]
    exact hc

theorem reads_getSubString (h : input.text.drop p = passed ++ c :: rest) :
    Reads input (getSubString input p (p + passed.length)) passed := by
  have hlt := Input.lt_size_of_drop (Input.drop_append h)
  have hsub : (input.text.drop p).take (p + passed.length - p) = passed := by
    rw [h, Nat.add_sub_cancel_left, List.take_left]
  unfold getSubString
  rw [if_pos (by omega), hsub]
  exact Reads.pure

end Bytes

section Words

variable {c d : Char} {rest : Text}

/-- What stands between two values. -/
def isFiller (c : Char) : Bool := isWhitespace c || c == ',' || c == ':'

/-- A character behind a value: whitespace, a comma or a closing bracket. -/
def isDelimiter (c : Char) : Bool := isWhitespace c || c == ',' || c == '}' || c == ']'

theorem wordAt_of_head_ne {word : Text} {follows : Char → Bool}
    (h : input.text.drop p = c :: rest) (hne : c ≠ d) :
    input.wordAt (d :: word) follows p = false := by
  have hprefix : (d :: word).isPrefixOf (c :: rest) = false := by
    simp [List.isPrefixOf, Ne.symm hne]
  simp only [Input.wordAt, h, hprefix, Bool.and_false]

theorem wordAt_of_drop {word : Text} {follows : Char → Bool}
    (h : input.text.drop p = word ++ c :: rest) (hc : follows c = false) :
    input.wordAt word follows p = true := by
  have hdrop := Input.drop_append h
  have hlt := Input.lt_size_of_drop hdrop
  simp [Input.wordAt, hlt, Input.byte_of_drop hdrop, hc, h]

theorem booleanAt_eq_none (h : input.text.drop p = c :: rest) (ht : c ≠ 't') (hf : c ≠ 'f') :
    input.booleanAt p = none := by
  simp only [Input.booleanAt, wordAt_of_head_ne h ht, wordAt_of_head_ne h hf,
    Bool.false_eq_true, if_false]

theorem nullAt_eq_false (h : input.text.drop p = c :: rest) (hn : c ≠ 'n') :
    input.nullAt p = false := wordAt_of_head_ne h hn

theorem isWhitespace_cases (hc : isWhitespace c = true) :
    c = ' ' ∨ c = '\t' ∨ c = '\n' ∨ c = '\r' := by
  simpa [isWhitespace, or_assoc] using hc

theorem isFiller_cases (hc : isFiller c = true) :
    c = ' ' ∨ c = '\t' ∨ c = '\n' ∨ c = '\r' ∨ c = ',' ∨ c = ':' := by
  simpa [isFiller, isWhitespace, or_assoc] using hc

/-- No value starts at a filler, and no container ends there. -/
theorem not_valueStop_of_filler (h : input.text.drop p = c :: rest) (hc : isFiller c = true) :
    (input.startsValue p || input.closes p) = false := by
  have hbyte := Input.byte_of_drop h
  have hchar : (c == '"' || c == '{' || c == '[' || isNumber c) = false ∧
      (c == '}' || c == ']') = false ∧ c ≠ 't' ∧ c ≠ 'f' ∧ c ≠ 'n' := by
    obtain rfl | rfl | rfl | rfl | rfl | rfl := isFiller_cases hc
    all_goals decide
  obtain ⟨hstart, hclose, ht, hf, hn⟩ := hchar
  have hboolean := booleanAt_eq_none h ht hf
  have hnull := nullAt_eq_false h hn
  unfold Input.startsValue Input.closes
  rw [hbyte, hstart, hclose, hboolean, hnull]
  rfl

theorem isDelimiter_cases (hc : isDelimiter c = true) :
    c = ' ' ∨ c = '\t' ∨ c = '\n' ∨ c = '\r' ∨ c = ',' ∨ c = '}' ∨ c = ']' := by
  simpa [isDelimiter, isWhitespace, or_assoc] using hc

/-- Whitespace and then a comma or a bracket: the first character is a delimiter. -/
theorem exists_delimiter {gap : Text} (rest : Text) (hgap : Blank gap) (hc : isDelimiter c = true) :
    ∃ d more, gap ++ c :: rest = d :: more ∧ isDelimiter d = true := by
  cases gap with
  | nil => exact ⟨c, rest, rfl, hc⟩
  | cons d gap =>
    have hd := hgap d (List.mem_cons_self ..)
    exact ⟨d, gap ++ c :: rest, rfl, by simp only [isDelimiter, hd, Bool.true_or]⟩

end Words

section Scalars

variable [CharConv δ] {text rest : Text} {c : Char}

/-- A quoted text whose opening quote has been passed. -/
theorem reads_parseValueString (h : input.text.drop p = text ++ '"' :: rest) (htext : '"' ∉ text) :
    Reads input (parseValueString input p) (text, p + text.length + 1) := by
  unfold parseValueString
  refine (peeks_scanChar h (fun x hx => ?_) rfl).reads.bind ((reads_getSubString h).bind Reads.pure)
  have hne : x ≠ '"' := fun heq => htext (heq ▸ hx)
  simp [hne]

/-- A key with the separators in front of it. -/
theorem reads_parseKey {filler key : Text}
    (h : input.text.drop p = filler ++ '"' :: (key ++ '"' :: rest))
    (hfiller : ∀ x ∈ filler, isFiller x = true) (hkey : '"' ∉ key) :
    Reads input (parseKey input p) (key, p + filler.length + key.length + 2) := by
  have hopen := Input.drop_append h
  have hbody : input.text.drop (p + filler.length + 1) = key ++ '"' :: rest :=
    Input.drop_cons hopen
  have hend : p + filler.length + 1 + key.length + 1 = p + filler.length + key.length + 2 := by
    omega
  unfold parseKey
  refine (peeks_scanChar h (fun x hx => ?_) rfl).reads.bind ((reads_charAt hopen).bind ?_)
  · obtain rfl | rfl | rfl | rfl | rfl | rfl := isFiller_cases (hfiller x hx)
    all_goals decide
  · refine (peeks_scanChar hbody (fun x hx => ?_) rfl).reads.bind
      ((reads_getSubString hbody).bind ?_)
    · have hne : x ≠ '"' := fun heq => hkey (heq ▸ hx)
      simp [hne]
    · rw [hend]
      exact Reads.pure

theorem isNumber_of_mem {x : ℤ} (hc : c ∈ Decimal.toChars x) : isNumber c = true := by
  rcases Decimal.isDigit_or_minus hc with hdigit | rfl
  · simp [isNumber, hdigit]
  · rfl

theorem delimiter_facts (hc : isDelimiter c = true) : isNumber c = false ∧ isLetter c = false ∧
    c.isDigit = false ∧ c ≠ '.' ∧ c ≠ 'e' := by
  obtain rfl | rfl | rfl | rfl | rfl | rfl | rfl := isDelimiter_cases hc
  all_goals decide

theorem fits64_toInt (x : Int64) : Fits64 x.toInt := ⟨x.le_toInt, x.toInt_lt⟩

theorem int64FromChars_toChars (x : Int64) :
    int64FromChars (Decimal.toChars x.toInt) = some x := by
  have hread : Decimal.fromChars (Decimal.toChars x.toInt ++ []) = some x.toInt :=
    Decimal.fromChars_toChars fun c hc => absurd hc (by simp)
  rw [List.append_nil] at hread
  rw [int64FromChars, hread]
  simp only [fits64_toInt, if_true, Int64.ofInt_toInt]

/-- The decimal text of a 64-bit number, with a delimiter behind it. -/
theorem reads_parseValueNumber {x : Int64}
    (h : input.text.drop p = Decimal.toChars x.toInt ++ c :: rest) (hc : isDelimiter c = true) :
    Reads input (parseValueNumber input p : Parser (Json δ × ℕ))
      (.ofValue (.int64 x), p + (Decimal.toChars x.toInt).length) := by
  have hdrop := Input.drop_append h
  have hlt := Input.lt_size_of_drop hdrop
  obtain ⟨hnumber, _, _, hpoint, hexp⟩ := delimiter_facts hc
  have hinside : ∀ j, p ≤ j → j < p + (Decimal.toChars x.toInt).length →
      isNumber (input.byte j) = true := by
    intro j hj hjlt
    obtain ⟨d, more, hd, hat⟩ := drop_inside h hj hjlt
    rw [Input.byte_of_drop hat]
    exact isNumber_of_mem hd
  have hscan : Peeks input.size (scan input (numberStop input) p)
      (p + (Decimal.toChars x.toInt).length, false) := by
    refine peeks_scan (f := fun i => !input.takesNumber i) (fun i hi hle => ?_) (by omega) hlt
      (fun j hj hjlt => ?_) ?_
    · refine peeks_numberStop (by omega) fun he => ?_
      by_cases hlast : i < p + (Decimal.toChars x.toInt).length
      · have hdigit := hinside i hi hlast
        rw [he] at hdigit
        exact absurd hdigit (by decide)
      · have heq : i = p + (Decimal.toChars x.toInt).length := by omega
        rw [heq, Input.byte_of_drop hdrop] at he
        exact absurd he hexp
    · simp only [Input.takesNumber, hinside j hj hjlt, Bool.true_or, Bool.not_true]
    · simp [Input.takesNumber, Input.byte_of_drop hdrop, hnumber, hpoint, hexp]
  have hplain : (Decimal.toChars x.toInt).contains '.' = false := by
    rw [List.contains_eq_mem, decide_eq_false_iff_not]
    intro hmem
    have hdot := isNumber_of_mem hmem
    exact absurd hdot (by decide)
  unfold parseValueNumber
  refine hscan.reads.bind ((reads_getSubString h).bind ?_)
  simp only [hplain, Bool.false_eq_true, if_false, int64FromChars_toChars]
  exact Reads.pure

end Scalars

section Values

variable [CharConv δ] {start : ℕ} {object array : ℕ → Parser (Json δ × ℕ)}
  {filler gap rest : Text} {c delim : Char} {res : Json δ} {pos : ℕ}

/-- The position of a value is found, its branch reads it, and the last scan goes to the
delimiter behind it. -/
theorem reads_parseValueWith (h : input.text.drop p = filler ++ rest)
    (hlt : p + filler.length < input.size) (hfiller : ∀ x ∈ filler, isFiller x = true)
    (hvalue : input.startsValue (p + filler.length) = true ∧
      input.closes (p + filler.length) = false ∧
      Reads input (parseBranch input object array (p + filler.length) p) (res, pos))
    {more : Text} (hend : input.text.drop pos = gap ++ delim :: more) (hgap : Blank gap)
    (hdelim : delim = ',' ∨ delim = '}' ∨ delim = ']') :
    Reads input (parseValueWith input object array p) (res, pos + gap.length) := by
  obtain ⟨hstart, hclose, hbranch⟩ := hvalue
  have hscan : Peeks input.size (scan input (valueStop input) p) (p + filler.length, false) := by
    refine peeks_scan (f := fun i => input.startsValue i || input.closes i)
      (fun i _ hi => peeks_valueStop (by omega) (Nat.le_refl _)) (by omega) hlt
      (fun j hj hjlt => ?_) ?_
    · obtain ⟨x, more, hx, hat⟩ := drop_inside h hj hjlt
      exact not_valueStop_of_filler hat (hfiller x hx)
    · simp only [hstart, Bool.true_or]
  have htest : (delim == ',' || delim == '}' || delim == ']') = true := by
    obtain rfl | rfl | rfl := hdelim
    all_goals decide
  have hlast : Peeks input.size (scanChar input (fun c => c == ',' || c == '}' || c == ']') pos)
      (pos + gap.length, false) := by
    refine peeks_scanChar hend (fun x hx => ?_) htest
    obtain rfl | rfl | rfl | rfl := isWhitespace_cases (hgap x hx)
    all_goals decide
  unfold parseValueWith
  refine hscan.reads.bind ?_
  simp only [Bool.false_eq_true, if_false]
  refine (peeks_charAt hlt).reads.bind ?_
  unfold Input.closes at hclose
  unfold valueTail
  simp only [hclose, Bool.false_eq_true, if_false]
  refine reads_get fun s hs => ?_
  simp only [hs, if_true]
  exact hbranch.bind (hlast.reads.bind Reads.pure)

theorem reads_string {text : Text} (hquote : '"' ∉ text)
    (h : input.text.drop start = '"' :: (text ++ '"' :: rest)) :
    input.startsValue start = true ∧ input.closes start = false ∧
      Reads input (parseBranch input object array start p)
        (.value (.string text : JsonValue δ) true, start + 1 + text.length + 1) := by
  have hbyte := Input.byte_of_drop h
  have hbody : input.text.drop (start + 1) = text ++ '"' :: rest := Input.drop_cons h
  refine ⟨?_, ?_, ?_⟩
  · simp [Input.startsValue, hbyte]
  · simp [Input.closes, hbyte]
  · unfold parseBranch
    exact (reads_charAt h).bind ((reads_parseValueString hbody hquote).bind Reads.pure)

theorem reads_int64 {x : Int64}
    (h : input.text.drop start = Decimal.toChars x.toInt ++ delim :: rest)
    (hdelim : isDelimiter delim = true) :
    input.startsValue start = true ∧ input.closes start = false ∧
      Reads input (parseBranch input object array start p)
        (.value (.int64 x : JsonValue δ) true, start + (Decimal.toChars x.toInt).length) := by
  cases hdigits : Decimal.toChars x.toInt with
  | nil => exact absurd hdigits Decimal.toChars_ne_nil
  | cons c digits =>
    have hc : isNumber c = true := isNumber_of_mem (x := x.toInt) (by simp [hdigits])
    have hhead : input.text.drop start = c :: (digits ++ delim :: rest) := by
      rw [h, hdigits]
      rfl
    have hbyte := Input.byte_of_drop hhead
    have hother : (c == '"') = false ∧ (c == '}' || c == ']') = false := by
      constructor
      · rw [beq_eq_false_iff_ne]
        rintro rfl
        exact absurd hc (by decide)
      · rw [Bool.or_eq_false_iff, beq_eq_false_iff_ne, beq_eq_false_iff_ne]
        constructor
        · rintro rfl
          exact absurd hc (by decide)
        · rintro rfl
          exact absurd hc (by decide)
    refine ⟨?_, ?_, ?_⟩
    · simp [Input.startsValue, hbyte, hc]
    · rw [Input.closes, hbyte]
      exact hother.2
    · rw [← hdigits]
      unfold parseBranch
      refine (reads_charAt hhead).bind ?_
      simp only [hother.1, hc, Bool.false_eq_true, if_false, if_true]
      exact reads_parseValueNumber h hdelim

/-- The letters of a boolean, up to a character that is not a letter. -/
theorem booleanAt_of_drop {b isStringFormat : Bool}
    (h : input.text.drop start =
      ((JsonValue.bool b : JsonValue δ).writeStringValue isStringFormat).flatten ++ delim :: rest)
    (hletter : isLetter delim = false) : input.booleanAt start = some b := by
  cases b with
  | true =>
    have hword : input.wordAt ['t', 'r', 'u', 'e'] isLetter start = true :=
      wordAt_of_drop h hletter
    rw [Input.booleanAt, if_pos hword]
  | false =>
    have hhead : input.text.drop start = 'f' :: 'a' :: 'l' :: 's' :: 'e' :: delim :: rest := h
    have hother : input.wordAt ['t', 'r', 'u', 'e'] isLetter start = false :=
      wordAt_of_head_ne hhead (by decide)
    have hword : input.wordAt ['f', 'a', 'l', 's', 'e'] isLetter start = true :=
      wordAt_of_drop h hletter
    rw [Input.booleanAt, hother, if_neg (by decide), if_pos hword]

theorem reads_bool {b isStringFormat : Bool}
    (h : input.text.drop start =
      ((JsonValue.bool b : JsonValue δ).writeStringValue isStringFormat).flatten ++ delim :: rest)
    (hletter : isLetter delim = false) :
    input.startsValue start = true ∧ input.closes start = false ∧
      Reads input (parseBranch input object array start p) (.value (.bool b : JsonValue δ) true,
        start +
          ((JsonValue.bool b : JsonValue δ).writeStringValue isStringFormat).flatten.length) := by
  have hboolean := booleanAt_of_drop h hletter
  obtain ⟨d, more, hhead, hd⟩ : ∃ d more, input.text.drop start = d :: more ∧
      (d = 't' ∨ d = 'f') := by
    cases b with
    | true => exact ⟨_, _, h, Or.inl rfl⟩
    | false => exact ⟨_, _, h, Or.inr rfl⟩
  have hbyte := Input.byte_of_drop hhead
  have hchar : (d == '"') = false ∧ isNumber d = false ∧ (d == '}' || d == ']') = false := by
    obtain rfl | rfl := hd
    all_goals decide
  refine ⟨?_, ?_, ?_⟩
  · simp [Input.startsValue, hboolean]
  · rw [Input.closes, hbyte]
    exact hchar.2.2
  · unfold parseBranch
    refine (reads_charAt hhead).bind ?_
    simp only [hchar, Bool.false_eq_true, if_false]
    refine (peeks_isBoolean input start (Nat.le_refl _)).reads.bind ?_
    rw [hboolean]
    cases b with
    | true => exact Reads.pure
    | false => exact Reads.pure

theorem reads_null (h : input.text.drop start = 'n' :: 'u' :: 'l' :: 'l' :: delim :: rest)
    (hletter : isLetter delim = false) (hnumber : isNumber delim = false) :
    input.startsValue start = true ∧ input.closes start = false ∧
      Reads input (parseBranch input object array start p)
        (.value (.null : JsonValue δ) true, start + 4) := by
  have hbyte := Input.byte_of_drop h
  have hboolean := booleanAt_eq_none h (by decide) (by decide)
  have hword : input.wordAt ['n', 'u', 'l', 'l'] (fun c => isLetter c || isNumber c) start =
      true := wordAt_of_drop h (by simp [hletter, hnumber])
  have hnull : input.nullAt start = true := hword
  refine ⟨?_, ?_, ?_⟩
  · simp only [Input.startsValue, hnull, Bool.or_true]
  · rw [Input.closes, hbyte]
    rfl
  · unfold parseBranch
    refine (reads_charAt h).bind ?_
    refine (peeks_isBoolean input start (Nat.le_refl _)).reads.bind ?_
    rw [hboolean]
    refine (peeks_isNull input start (Nat.le_refl _)).reads.bind ?_
    rw [hnull]
    exact Reads.pure

/-- Each scalar is recognised by its first character and read whole. -/
theorem reads_scalar {v : JsonValue δ} {isStringFormat : Bool}
    (hv : PrintableValue isStringFormat v)
    (h : input.text.drop start = (v.writeStringValue isStringFormat).flatten ++ delim :: rest)
    (hdelim : isDelimiter delim = true) :
    input.startsValue start = true ∧ input.closes start = false ∧
      Reads input (parseBranch input object array start p)
        (.value v true, start + (v.writeStringValue isStringFormat).flatten.length) := by
  obtain ⟨hnumber, hletter, _, _, _⟩ := delimiter_facts hdelim
  cases v with
  | uint64 x => exact absurd hv id
  | double x => exact absurd hv id
  | string text =>
    obtain ⟨rfl, hquote⟩ := hv
    have htoken : (JsonValue.writeStringValue true (.string text : JsonValue δ)).flatten =
        '"' :: (text ++ ['"']) := by simp [JsonValue.writeStringValue]
    have hlength : start + ('"' :: (text ++ ['"'])).length = start + 1 + text.length + 1 := by
      simp only [List.length_cons, List.length_append, List.length_nil]
      omega
    have hhead : input.text.drop start = '"' :: (text ++ '"' :: delim :: rest) := by
      rw [h, htoken]
      simp
    rw [htoken, hlength]
    exact reads_string hquote hhead
  | int64 x =>
    have htoken : (JsonValue.writeStringValue isStringFormat (.int64 x : JsonValue δ)).flatten =
        Decimal.toChars x.toInt := by simp [JsonValue.writeStringValue]
    rw [htoken] at h ⊢
    exact reads_int64 h hdelim
  | bool b => exact reads_bool h hletter
  | null => exact reads_null h hletter hnumber

/-- A bracket is recognised after all scalars have been ruled out. -/
theorem reads_bracket (object array : ℕ → Parser (Json δ × ℕ)) (p : ℕ) {kind : Char}
    (hkind : kind = '{' ∨ kind = '[')
    (h : input.text.drop start = kind :: rest)
    (hinner : Reads input (if kind = '{' then object (start + 1) else array (start + 1))
      (res, pos)) :
    input.startsValue start = true ∧ input.closes start = false ∧
      Reads input (parseBranch input object array start p) (res, pos) := by
  have hbyte := Input.byte_of_drop h
  have hboolean : input.booleanAt start = none := by
    obtain rfl | rfl := hkind
    all_goals exact booleanAt_eq_none h (by decide) (by decide)
  have hnull : input.nullAt start = false := by
    obtain rfl | rfl := hkind
    all_goals exact nullAt_eq_false h (by decide)
  refine ⟨?_, ?_, ?_⟩
  · obtain rfl | rfl := hkind
    all_goals simp [Input.startsValue, hbyte]
  · obtain rfl | rfl := hkind
    all_goals simp [Input.closes, hbyte]
  · unfold parseBranch
    refine (reads_charAt h).bind ?_
    have hchar : (kind == '"') = false ∧ isNumber kind = false := by
      obtain rfl | rfl := hkind
      all_goals decide
    simp only [hchar, Bool.false_eq_true, if_false]
    refine (peeks_isBoolean input start (Nat.le_refl _)).reads.bind ?_
    rw [hboolean]
    refine (peeks_isNull input start (Nat.le_refl _)).reads.bind ?_
    rw [hnull]
    obtain rfl | rfl := hkind
    · exact hinner
    · exact hinner

end Values

section Containers

variable [CharConv δ]

/-- The handle of the array loop: null until the first item is stored. -/
def arrayOf : List (Json δ) → Json δ
  | [] => .null
  | items => .array items

def objectOf : List (Text × Json δ) → Json δ
  | [] => .null
  | members => .object members

omit [CharConv δ] in
theorem setIndex_arrayOf (items : List (Json δ)) (item : Json δ) :
    (arrayOf items).setIndex items.length item = arrayOf (items ++ [item]) := by
  cases items with
  | nil => rfl
  | cons first items =>
    have hroom : (first :: items).length + 1 - (first :: items).length = 1 := by omega
    simp only [arrayOf, setIndex, hroom, List.replicate_one, List.cons_append]
    rw [← List.cons_append, List.set_append_right _ _ (Nat.le_refl _), Nat.sub_self]
    rfl

omit [CharConv δ] in
theorem insertMember_of_notMem {key : Text} {members : List (Text × Json δ)}
    (hkey : key ∉ members.map Prod.fst) (item : Json δ) :
    insertMember key item members = members ++ [(key, item)] := by
  induction members with
  | nil => rfl
  | cons m members ih =>
    have hne : m.1 ≠ key := fun heq => hkey (by simp [heq])
    have hrest : key ∉ members.map Prod.fst := fun hmem => hkey (by simp [hmem])
    rw [insertMember, if_neg hne, ih hrest]
    rfl

omit [CharConv δ] in
theorem setKey_objectOf {key : Text} {members : List (Text × Json δ)} (hnul : '\x00' ∉ key)
    (hkey : key ∉ members.map Prod.fst) (item : Json δ) :
    (objectOf members).setKey key item = objectOf (members ++ [(key, item)]) := by
  have htrunc : key.takeWhile (fun c => c ≠ '\x00') = key := by
    refine List.takeWhile_eq_self_iff.mpr fun c hc => ?_
    have hne : c ≠ '\x00' := fun heq => hnul (heq ▸ hc)
    simpa using hne
  unfold setKey
  rw [htrunc]
  cases members with
  | nil => rfl
  | cons m members =>
    change Json.object (insertMember key item (m :: members)) = _
    rw [insertMember_of_notMem hkey]
    rfl

/-- The first token of a tree does not begin with a closing bracket. -/
theorem head_tokens {json : Json δ} (hp : json.Printable) : ∃ c token rest,
    json.tokens = (c :: token) :: rest ∧ (c == '}') = false ∧ (c == ']') = false := by
  cases json with
  | null => exact ⟨_, _, _, rfl, rfl, rfl⟩
  | array items => exact ⟨_, _, _, rfl, rfl, rfl⟩
  | object members => exact ⟨_, _, _, rfl, rfl, rfl⟩
  | value v isStringFormat =>
    cases v with
    | uint64 x => exact absurd hp id
    | double x => exact absurd hp id
    | null => exact ⟨_, _, _, rfl, rfl, rfl⟩
    | bool b =>
      cases b with
      | true => exact ⟨_, _, _, rfl, rfl, rfl⟩
      | false => exact ⟨_, _, _, rfl, rfl, rfl⟩
    | string text =>
      obtain ⟨rfl, _⟩ := hp
      exact ⟨_, _, _, rfl, rfl, rfl⟩
    | int64 x =>
      cases hdigits : Decimal.toChars x.toInt with
      | nil => exact absurd hdigits Decimal.toChars_ne_nil
      | cons c digits =>
        have hc : isNumber c = true := isNumber_of_mem (x := x.toInt) (by simp [hdigits])
        refine ⟨c, digits, [], ?_, ?_, ?_⟩
        · simp [tokens, JsonValue.writeStringValue, hdigits]
        · rw [beq_eq_false_iff_ne]
          rintro rfl
          exact absurd hc (by decide)
        · rw [beq_eq_false_iff_ne]
          rintro rfl
          exact absurd hc (by decide)

theorem length_tokens_pos (json : Json δ) : 0 < json.tokens.length := by
  cases json with
  | null => exact Nat.one_pos
  | value v isStringFormat => exact Nat.one_pos
  | array items => exact Nat.succ_pos _
  | object members => exact Nat.succ_pos _

/-- A position before the items that are left, or at the bracket behind the last one. -/
def BeforeItems (input : Input) (ts : List Text) (p : ℕ) : List (Json δ) → Prop
  | [] => ∃ rest, input.text.drop p = ']' :: rest ∧ Spread ts rest
  | item :: items => ∃ separator text, (separator = [] ∨ separator = [',']) ∧
    input.text.drop p = separator ++ text ∧
    Spread (item.tokens ++ (tokensItems false items ++ [']'] :: ts)) text

def BeforeMembers (input : Input) (ts : List Text) (p : ℕ) : List (Text × Json δ) → Prop
  | [] => ∃ rest, input.text.drop p = '}' :: rest ∧ Spread ts rest
  | (key, item) :: members => ∃ separator text, (separator = [] ∨ separator = [',']) ∧
    input.text.drop p = separator ++ text ∧
    Spread (('"' :: key ++ ['"']) :: [':'] ::
      (item.tokens ++ (tokensMembers false members ++ ['}'] :: ts))) text

theorem isFiller_of_blank {gap : Text} (hgap : Blank gap) : ∀ c ∈ gap, isFiller c = true := by
  intro c hc
  simp only [isFiller, hgap c hc, Bool.true_or]

theorem isFiller_separator {separator : Text} (h : separator = [] ∨ separator = [',']) :
    ∀ c ∈ separator, isFiller c = true := by
  obtain rfl | rfl := h
  · intro c hc
    exact absurd hc List.not_mem_nil
  · intro c hc
    rw [List.mem_singleton.mp hc]
    rfl

theorem isFiller_append {filler gap : Text} (hfiller : ∀ c ∈ filler, isFiller c = true)
    (hgap : ∀ c ∈ gap, isFiller c = true) : ∀ c ∈ filler ++ gap, isFiller c = true := by
  intro c hc
  rcases List.mem_append.mp hc with hc | hc
  · exact hfiller c hc
  · exact hgap c hc

/-- Before an item or a member no bracket closes the container. -/
theorem exists_head (closing : Char) {separator text token : Text} {c : Char}
    {rest : List Text}
    (hseparator : separator = [] ∨ separator = [','])
    (hspread : Spread ((c :: token) :: rest) text) (hc : (c == closing) = false)
    (hclosing : closing = '}' ∨ closing = ']') :
    ∃ d more, separator ++ text = d :: more ∧ (d == closing) = false := by
  obtain ⟨gap, more, rfl, hgap, _⟩ := hspread
  obtain rfl | rfl := hseparator
  · cases gap with
    | nil => exact ⟨c, token ++ more, rfl, hc⟩
    | cons d gap =>
      refine ⟨d, gap ++ (c :: token ++ more), rfl, ?_⟩
      have hblank := hgap d (List.mem_cons_self ..)
      rw [beq_eq_false_iff_ne]
      rintro rfl
      obtain rfl | rfl := hclosing
      all_goals exact absurd hblank (by decide)
  · refine ⟨',', gap ++ (c :: token ++ more), rfl, ?_⟩
    obtain rfl | rfl := hclosing
    all_goals decide

theorem tokensItems_length_le (items : List (Json δ)) :
    (tokensItems true items).length ≤ (tokensItems false items).length := by
  cases items with
  | nil => exact Nat.le_refl _
  | cons item items =>
    simp only [tokensItems, if_true, Bool.false_eq_true, if_false, List.length_append,
      List.length_nil, List.length_cons]
    omega

theorem tokensMembers_length_le (members : List (Text × Json δ)) :
    (tokensMembers true members).length ≤ (tokensMembers false members).length := by
  cases members with
  | nil => exact Nat.le_refl _
  | cons m members =>
    obtain ⟨key, item⟩ := m
    simp only [tokensMembers, if_true, Bool.false_eq_true, if_false, List.length_append,
      List.length_nil, List.length_cons]
    omega

/-- Behind an item comes a comma with the next item, or the bracket. -/
theorem next_items (input : Input) (ts : List Text) (items : List (Json δ)) :
    ∃ delim more, tokensItems false items ++ [']'] :: ts = [delim] :: more ∧
      (delim = ',' ∨ delim = '}' ∨ delim = ']') ∧ ∀ q rest,
        input.text.drop q = delim :: rest → Spread more rest → BeforeItems input ts q items := by
  cases items with
  | nil =>
    exact ⟨']', ts, rfl, Or.inr (Or.inr rfl), fun q rest hdrop hspread => ⟨rest, hdrop, hspread⟩⟩
  | cons item items =>
    refine ⟨',', item.tokens ++ (tokensItems false items ++ [']'] :: ts), ?_, Or.inl rfl, ?_⟩
    · simp [tokensItems]
    · intro q rest hdrop hspread
      exact ⟨[','], rest, Or.inr rfl, hdrop, hspread⟩

theorem next_members (input : Input) (ts : List Text) (members : List (Text × Json δ)) :
    ∃ delim more, tokensMembers false members ++ ['}'] :: ts = [delim] :: more ∧
      (delim = ',' ∨ delim = '}' ∨ delim = ']') ∧ ∀ q rest,
        input.text.drop q = delim :: rest → Spread more rest →
          BeforeMembers input ts q members := by
  cases members with
  | nil =>
    exact ⟨'}', ts, rfl, Or.inr (Or.inl rfl), fun q rest hdrop hspread => ⟨rest, hdrop, hspread⟩⟩
  | cons m members =>
    obtain ⟨key, item⟩ := m
    refine ⟨',', ('"' :: key ++ ['"']) :: [':'] ::
      (item.tokens ++ (tokensMembers false members ++ ['}'] :: ts)), ?_, Or.inl rfl, ?_⟩
    · simp [tokensMembers]
    · intro q rest hdrop hspread
      exact ⟨[','], rest, Or.inr rfl, hdrop, hspread⟩

theorem beforeItems_first {items : List (Json δ)} {ts : List Text} (hne : items ≠ [])
    (hspread : Spread (tokensItems true items ++ [']'] :: ts) (input.text.drop p)) :
    BeforeItems input ts p items := by
  cases items with
  | nil => exact absurd rfl hne
  | cons item items =>
    refine ⟨[], input.text.drop p, Or.inl rfl, rfl, ?_⟩
    simpa [tokensItems] using hspread

theorem beforeMembers_first {members : List (Text × Json δ)} {ts : List Text}
    (hne : members ≠ [])
    (hspread : Spread (tokensMembers true members ++ ['}'] :: ts) (input.text.drop p)) :
    BeforeMembers input ts p members := by
  cases members with
  | nil => exact absurd rfl hne
  | cons m members =>
    obtain ⟨key, item⟩ := m
    refine ⟨[], input.text.drop p, Or.inl rfl, rfl, ?_⟩
    simpa [tokensMembers] using hspread

omit [CharConv δ] in
theorem arrayOf_reread {items : List (Json δ)} (hne : items ≠ []) :
    arrayOf ([] ++ rereadItems items) = reread (.array items) := by
  cases items with
  | nil => exact absurd rfl hne
  | cons item items => rfl

omit [CharConv δ] in
theorem objectOf_reread {members : List (Text × Json δ)} (hne : members ≠ []) :
    objectOf ([] ++ rereadMembers members) = reread (.object members) := by
  cases members with
  | nil => exact absurd rfl hne
  | cons m members => rfl

theorem isDelimiter_of_test {delim : Char} (h : delim = ',' ∨ delim = '}' ∨ delim = ']') :
    isDelimiter delim = true := by
  obtain rfl | rfl | rfl := h
  all_goals decide

/-- A scalar and the whitespace around it. -/
theorem reads_scalarValue {object array : ℕ → Parser (Json δ × ℕ)} {v : JsonValue δ}
    {isStringFormat : Bool} {filler text : Text} {ts : List Text} {delim : Char}
    (hv : PrintableValue isStringFormat v) (hdrop : input.text.drop p = filler ++ text)
    (hfiller : ∀ c ∈ filler, isFiller c = true)
    (hspread : Spread ((v.writeStringValue isStringFormat).flatten :: [delim] :: ts) text)
    (hdelim : delim = ',' ∨ delim = '}' ∨ delim = ']') :
    ∃ q rest, Reads input (parseValueWith input object array p) (.value v true, q) ∧
      input.text.drop q = delim :: rest ∧ Spread ts rest := by
  obtain ⟨gap, more, rfl, hgap, gap', rest, rfl, hgap', hts⟩ := hspread
  rw [← List.append_assoc] at hdrop
  have htoken := Input.drop_append hdrop
  have hbehind := Input.drop_append htoken
  obtain ⟨d, behind, hd, hdelimiter⟩ :=
    exists_delimiter rest hgap' (isDelimiter_of_test hdelim)
  have hscalar := htoken
  rw [List.singleton_append, hd] at hscalar
  have hlt := Input.lt_size_of_drop (Input.drop_append hscalar)
  exact ⟨_, rest, reads_parseValueWith hdrop (by omega)
    (isFiller_append hfiller (isFiller_of_blank hgap)) (reads_scalar hv hscalar hdelimiter)
    hbehind hgap' hdelim, Input.drop_append hbehind, hts⟩

/-- The bracket that opens a container. -/
def opening : Json δ → Char
  | .object _ => '{'
  | _ => '['

/-- From behind the bracket its loop reads the rest of a container. -/
def ReadsInside (input : Input) (fuel : ℕ) (json : Json δ) : Prop :=
  ∀ {p : ℕ} {ts : List Text}, Spread (json.tokens.tail ++ ts) (input.text.drop p) →
    ∃ q, Reads input (if opening json = '{' then parseObject input fuel .null p
      else parseArray input fuel .null 0 p) (json.reread, q) ∧ Spread ts (input.text.drop q)

theorem readsInside_array {items : List (Json δ)} {fuel : ℕ} (hne : items ≠ [])
    (hloop : ∀ {p : ℕ} {ts : List Text}, BeforeItems input ts p items →
      ∃ q, Reads input (parseArray input fuel (arrayOf []) 0 p)
        (arrayOf ([] ++ rereadItems items), q) ∧ Spread ts (input.text.drop q)) :
    ReadsInside input fuel (.array items) := by
  intro p ts hspread
  have hinner : Spread (tokensItems true items ++ [']'] :: ts) (input.text.drop p) := by
    simpa [tokens] using hspread
  obtain ⟨q, hreads, hts⟩ := hloop (beforeItems_first hne hinner)
  rw [arrayOf_reread hne] at hreads
  exact ⟨q, hreads, hts⟩

theorem readsInside_object {members : List (Text × Json δ)} {fuel : ℕ} (hne : members ≠ [])
    (hloop : ∀ {p : ℕ} {ts : List Text}, BeforeMembers input ts p members →
      ∃ q, Reads input (parseObject input fuel (objectOf []) p)
        (objectOf ([] ++ rereadMembers members), q) ∧ Spread ts (input.text.drop q)) :
    ReadsInside input fuel (.object members) := by
  intro p ts hspread
  have hinner : Spread (tokensMembers true members ++ ['}'] :: ts) (input.text.drop p) := by
    simpa [tokens] using hspread
  obtain ⟨q, hreads, hts⟩ := hloop (beforeMembers_first hne hinner)
  rw [objectOf_reread hne] at hreads
  exact ⟨q, hreads, hts⟩

omit [CharConv δ] in
theorem opening_cases (json : Json δ) : opening json = '{' ∨ opening json = '[' := by
  cases json with
  | object members => exact Or.inl rfl
  | null => exact Or.inr rfl
  | value v isStringFormat => exact Or.inr rfl
  | array items => exact Or.inr rfl

/-- The text of a container: whitespace, its bracket, and what its loop reads. -/
theorem spread_container {json : Json δ} (hroot : json.IsContainer) {ts : List Text} {text : Text}
    (hspread : Spread (json.tokens ++ ts) text) : ∃ gap more, text = gap ++ opening json :: more ∧
      Blank gap ∧ Spread (json.tokens.tail ++ ts) more := by
  cases json with
  | null => exact absurd hroot id
  | value v isStringFormat => exact absurd hroot id
  | array items => exact hspread
  | object members => exact hspread

/-- A container as a value, with the whitespace around it. -/
theorem reads_containerValue {json : Json δ} {fuel : ℕ} {filler text : Text} {ts : List Text}
    {delim : Char} (hroot : json.IsContainer) (hinside : ReadsInside input fuel json)
    (hdrop : input.text.drop p = filler ++ text) (hfiller : ∀ c ∈ filler, isFiller c = true)
    (hspread : Spread (json.tokens ++ [delim] :: ts) text)
    (hdelim : delim = ',' ∨ delim = '}' ∨ delim = ']') :
    ∃ q rest, Reads input (parseValue input (fuel + 1) p) (json.reread, q) ∧
      input.text.drop q = delim :: rest ∧ Spread ts rest := by
  obtain ⟨gap, more, rfl, hgap, hinner⟩ := spread_container hroot hspread
  rw [← List.append_assoc] at hdrop
  have hbracket := Input.drop_append hdrop
  have hlt := Input.lt_size_of_drop hbracket
  rw [← Input.drop_cons hbracket] at hinner
  obtain ⟨pos, hreads, gap', rest, hbehind, hgap', hts⟩ := hinside hinner
  have hvalue := reads_bracket (parseObject input fuel .null) (parseArray input fuel .null 0) p
    (opening_cases json) hbracket hreads
  simp only [parseValue]
  exact ⟨_, rest, reads_parseValueWith hdrop hlt
    (isFiller_append hfiller (isFiller_of_blank hgap)) hvalue hbehind hgap' hdelim,
    Input.drop_append hbehind, hts⟩

mutual

/-- A value is read back from any of its texts, up to the delimiter behind it. -/
theorem reads_parseValue : ∀ json : Json δ, json.Printable →
    ∀ (fuel : ℕ) {p : ℕ} {filler text : Text} {ts : List Text} {delim : Char},
      json.tokens.length ≤ fuel → input.text.drop p = filler ++ text →
      (∀ c ∈ filler, isFiller c = true) → Spread (json.tokens ++ [delim] :: ts) text →
      (delim = ',' ∨ delim = '}' ∨ delim = ']') →
      ∃ q rest, Reads input (parseValue input fuel p) (json.reread, q) ∧
        input.text.drop q = delim :: rest ∧ Spread ts rest
  | .null, _, fuel, p, filler, text, ts, delim, hfuel, hdrop, hfiller, hspread, hdelim => by
    obtain ⟨turns, rfl⟩ := Nat.exists_eq_add_of_le' (Nat.le_trans (length_tokens_pos _) hfuel)
    have hnull : PrintableValue true (.null : JsonValue δ) := trivial
    simp only [parseValue, reread]
    exact reads_scalarValue hnull hdrop hfiller hspread hdelim
  | .value v isStringFormat, hp, fuel, p, filler, text, ts, delim, hfuel, hdrop, hfiller,
      hspread, hdelim => by
    obtain ⟨turns, rfl⟩ := Nat.exists_eq_add_of_le' (Nat.le_trans (length_tokens_pos _) hfuel)
    simp only [parseValue, reread]
    exact reads_scalarValue hp hdrop hfiller hspread hdelim
  | .array items, hp, fuel, p, filler, text, ts, delim, hfuel, hdrop, hfiller, hspread,
      hdelim => by
    obtain ⟨turns, rfl⟩ := Nat.exists_eq_add_of_le' (Nat.le_trans (length_tokens_pos _) hfuel)
    simp only [tokens, List.length_cons, List.length_append, List.length_nil] at hfuel
    exact reads_containerValue trivial
      (readsInside_array hp.1 fun hbefore =>
        reads_parseArray items hp.2 turns [] (by omega) hbefore)
      hdrop hfiller hspread hdelim
  | .object members, hp, fuel, p, filler, text, ts, delim, hfuel, hdrop, hfiller, hspread,
      hdelim => by
    obtain ⟨turns, rfl⟩ := Nat.exists_eq_add_of_le' (Nat.le_trans (length_tokens_pos _) hfuel)
    simp only [tokens, List.length_cons, List.length_append, List.length_nil] at hfuel
    exact reads_containerValue trivial
      (readsInside_object hp.1 fun hbefore =>
        reads_parseObject members hp.2.2 turns [] hp.2.1 (by omega) hbefore)
      hdrop hfiller hspread hdelim

theorem reads_parseArray : ∀ items : List (Json δ), PrintableItems items →
    ∀ (fuel : ℕ) (done : List (Json δ)) {p : ℕ} {ts : List Text},
      (tokensItems true items).length + 1 ≤ fuel → BeforeItems input ts p items →
      ∃ q, Reads input (parseArray input fuel (arrayOf done) done.length p)
          (arrayOf (done ++ rereadItems items), q) ∧ Spread ts (input.text.drop q)
  | [], _, fuel, done, p, ts, hfuel, hbefore => by
    obtain ⟨turns, rfl⟩ := Nat.exists_eq_add_of_le' (Nat.le_trans (Nat.le_add_left ..) hfuel)
    obtain ⟨rest, hdrop, hspread⟩ := hbefore
    have hbehind : input.text.drop (p + 1) = rest := Input.drop_cons hdrop
    refine ⟨p + 1, ?_, by rwa [hbehind]⟩
    rw [rereadItems, List.append_nil]
    unfold parseArray
    refine (reads_charAt hdrop).bind ?_
    exact Reads.pure
  | item :: items, hp, fuel, done, p, ts, hfuel, hbefore => by
    obtain ⟨hitem, hitems⟩ := hp
    obtain ⟨turns, rfl⟩ := Nat.exists_eq_add_of_le' (Nat.le_trans (Nat.le_add_left ..) hfuel)
    obtain ⟨separator, text, hseparator, hdrop, hspread⟩ := hbefore
    obtain ⟨c, token, tokens', htokens, _, hc⟩ := head_tokens hitem
    obtain ⟨delim, more, hnext, hdelim, hrest⟩ := next_items input ts items
    have hhead := hspread
    rw [htokens] at hhead
    obtain ⟨d, behind, hd, hne⟩ := exists_head ']' hseparator hhead hc (Or.inr rfl)
    rw [hd] at hdrop
    have hpos := length_tokens_pos item
    have hle := tokensItems_length_le items
    simp only [tokensItems, if_true, List.nil_append, List.length_append] at hfuel
    rw [hnext] at hspread
    rw [← hd] at hdrop
    obtain ⟨q, rest, hvalue, hq, hmore⟩ := reads_parseValue item hitem turns
      (by omega) hdrop (isFiller_separator hseparator) hspread hdelim
    obtain ⟨q', hloop, hts⟩ := reads_parseArray items hitems turns
      (done ++ [item.reread]) (by omega) (hrest q rest hq hmore)
    refine ⟨q', ?_, hts⟩
    rw [hd] at hdrop
    have hdone : done ++ rereadItems (item :: items) =
        done ++ [item.reread] ++ rereadItems items := by simp [rereadItems]
    unfold parseArray
    refine (reads_charAt hdrop).bind ?_
    simp only [hne, Bool.false_eq_true, if_false]
    refine reads_record (fun _ => rfl) (fun _ => rfl) ?_
    refine hvalue.bind ?_
    refine (reads_checkExceedSize hq).bind ?_
    refine reads_record (fun _ => rfl) (fun _ => rfl) ?_
    rw [setIndex_arrayOf, hdone]
    rw [List.length_append] at hloop
    exact hloop

theorem reads_parseObject : ∀ members : List (Text × Json δ), PrintableMembers members →
    ∀ (fuel : ℕ) (done : List (Text × Json δ)) {p : ℕ} {ts : List Text},
      (done.map Prod.fst ++ members.map Prod.fst).Nodup →
      (tokensMembers true members).length + 1 ≤ fuel → BeforeMembers input ts p members →
      ∃ q, Reads input (parseObject input fuel (objectOf done) p)
          (objectOf (done ++ rereadMembers members), q) ∧ Spread ts (input.text.drop q)
  | [], _, fuel, done, p, ts, _, hfuel, hbefore => by
    obtain ⟨turns, rfl⟩ := Nat.exists_eq_add_of_le' (Nat.le_trans (Nat.le_add_left ..) hfuel)
    obtain ⟨rest, hdrop, hspread⟩ := hbefore
    have hbehind : input.text.drop (p + 1) = rest := Input.drop_cons hdrop
    refine ⟨p + 1, ?_, by rwa [hbehind]⟩
    rw [rereadMembers, List.append_nil]
    unfold parseObject
    refine (reads_charAt hdrop).bind ?_
    exact Reads.pure
  | (key, item) :: members, hp, fuel, done, p, ts, hkeys, hfuel, hbefore => by
    obtain ⟨⟨hquote, hnul⟩, hitem, hmembers⟩ := hp
    obtain ⟨turns, rfl⟩ := Nat.exists_eq_add_of_le' (Nat.le_trans (Nat.le_add_left ..) hfuel)
    obtain ⟨separator, text, hseparator, hdrop, hspread⟩ := hbefore
    obtain ⟨d, behind, hd, hne⟩ := exists_head '}' hseparator hspread rfl (Or.inl rfl)
    obtain ⟨delim, more, hnext, hdelim, hrest⟩ := next_members input ts members
    have hhead : input.text.drop p = d :: behind := by rw [hdrop, hd]
    rw [hnext] at hspread
    obtain ⟨gap, text', rfl, hgap, gap', text'', rfl, hgap', hvalues⟩ := hspread
    -- The filler of the key, and then the one of the value, with the colon in it.
    have hkeyText : input.text.drop p =
        (separator ++ gap) ++ '"' :: (key ++ '"' :: (gap' ++ ([':'] ++ text''))) := by
      rw [hdrop]
      simp
    have hkey := reads_parseKey hkeyText
      (isFiller_append (isFiller_separator hseparator) (isFiller_of_blank hgap)) hquote
    have hcolon : input.text.drop (p + (separator ++ gap).length + key.length + 2) =
        (gap' ++ [':']) ++ text'' := by
      have hsplit : input.text.drop p =
          ((separator ++ gap) ++ '"' :: (key ++ ['"'])) ++ ((gap' ++ [':']) ++ text'') := by
        rw [hkeyText]
        simp
      have hpos : p + ((separator ++ gap) ++ '"' :: (key ++ ['"'])).length =
          p + (separator ++ gap).length + key.length + 2 := by
        simp only [List.length_append, List.length_cons, List.length_nil]
        omega
      rw [← hpos]
      exact Input.drop_append hsplit
    have hfill : ∀ c ∈ gap' ++ [':'], isFiller c = true := by
      refine isFiller_append (isFiller_of_blank hgap') fun c hc => ?_
      rw [List.mem_singleton.mp hc]
      rfl
    have hle := tokensMembers_length_le members
    simp only [tokensMembers, if_true, List.nil_append, List.length_append, List.length_cons]
      at hfuel
    obtain ⟨q, rest, hvalue, hq, hmore⟩ := reads_parseValue item hitem turns
      (by omega) hcolon hfill hvalues hdelim
    have hfresh : key ∉ done.map Prod.fst := by
      intro hmem
      have hdisjoint := (List.nodup_append.mp hkeys).2.2
      exact hdisjoint key hmem key (List.mem_cons_self ..) rfl
    have hkeys' : ((done ++ [(key, item.reread)]).map Prod.fst ++ members.map Prod.fst).Nodup := by
      simpa using hkeys
    obtain ⟨q', hloop, hts⟩ := reads_parseObject members hmembers turns
      (done ++ [(key, item.reread)]) hkeys' (by omega) (hrest q rest hq hmore)
    refine ⟨q', ?_, hts⟩
    have hdone : done ++ rereadMembers ((key, item) :: members) =
        done ++ [(key, item.reread)] ++ rereadMembers members := by simp [rereadMembers]
    unfold parseObject
    refine (reads_charAt hhead).bind ?_
    simp only [hne, Bool.false_eq_true, if_false]
    refine hkey.bind (hvalue.bind ?_)
    refine (reads_checkExceedSize hq).bind ?_
    refine reads_record (fun _ => rfl) (fun _ => rfl) ?_
    rw [setKey_objectOf hnul hfresh, hdone]
    exact hloop

end

end Containers

section Document

variable [CharConv δ]

theorem value_tokens_ne_nil {v : JsonValue δ} {isStringFormat : Bool}
    (hv : PrintableValue isStringFormat v) : (v.writeStringValue isStringFormat).flatten ≠ [] := by
  have hprintable : (Json.value v isStringFormat).Printable := hv
  obtain ⟨c, token, rest, htokens, _⟩ := head_tokens hprintable
  rw [tokens] at htokens
  rw [(List.cons.inj htokens).1]
  exact List.cons_ne_nil _ _

mutual

theorem tokens_ne_nil : ∀ json : Json δ, json.Printable → ∀ t ∈ json.tokens, t ≠ []
  | .null, _, t, ht => by
    rw [List.mem_singleton.mp ht]
    exact List.cons_ne_nil _ _
  | .value v isStringFormat, hp, t, ht => by
    rw [List.mem_singleton.mp ht]
    exact value_tokens_ne_nil hp
  | .array items, hp, t, ht => by
    simp only [tokens, List.mem_cons, List.mem_append, List.not_mem_nil, or_false] at ht
    obtain rfl | hitem | rfl := ht
    · exact List.cons_ne_nil _ _
    · exact tokensItems_ne_nil true items hp.2 t hitem
    · exact List.cons_ne_nil _ _
  | .object members, hp, t, ht => by
    simp only [tokens, List.mem_cons, List.mem_append, List.not_mem_nil, or_false] at ht
    obtain rfl | hmember | rfl := ht
    · exact List.cons_ne_nil _ _
    · exact tokensMembers_ne_nil true members hp.2.2 t hmember
    · exact List.cons_ne_nil _ _

theorem tokensItems_ne_nil (first : Bool) : ∀ items : List (Json δ), PrintableItems items →
    ∀ t ∈ tokensItems first items, t ≠ []
  | [], _, t, ht => absurd ht List.not_mem_nil
  | item :: items, hp, t, ht => by
    simp only [tokensItems, List.mem_append] at ht
    obtain hcomma | hitem | hitems := ht
    · intro hnil
      rw [hnil] at hcomma
      split at hcomma
      all_goals simp at hcomma
    · exact tokens_ne_nil item hp.1 t hitem
    · exact tokensItems_ne_nil false items hp.2 t hitems

theorem tokensMembers_ne_nil (first : Bool) : ∀ members : List (Text × Json δ),
    PrintableMembers members → ∀ t ∈ tokensMembers first members, t ≠ []
  | [], _, t, ht => absurd ht List.not_mem_nil
  | (key, item) :: members, hp, t, ht => by
    simp only [tokensMembers, List.mem_append, List.mem_cons] at ht
    obtain hcomma | rfl | rfl | hitem | hmembers := ht
    · intro hnil
      rw [hnil] at hcomma
      split at hcomma
      all_goals simp at hcomma
    · exact List.cons_ne_nil _ _
    · exact List.cons_ne_nil _ _
    · exact tokens_ne_nil item hp.2.1 t hitem
    · exact tokensMembers_ne_nil false members hp.2.2 t hmembers

end

/-- A document whose root is a container is read back, with whitespace around it. -/
theorem reads_parse {order : Json δ} {fuel : ℕ} (horder : order.Printable)
    (hroot : order.IsContainer) (hspread : Spread order.tokens input.text)
    (hfuel : input.size ≤ fuel) : Reads input (parse input fuel) order.reread := by
  have hlength := length_le_of_spread hspread (tokens_ne_nil order horder)
  unfold Input.size at hfuel
  have hinside : ReadsInside input fuel order := by
    cases order with
    | null => exact absurd hroot id
    | value v isStringFormat => exact absurd hroot id
    | array items =>
      simp only [tokens, List.length_cons, List.length_append, List.length_nil] at hlength
      exact readsInside_array horder.1 fun hbefore =>
        reads_parseArray items horder.2 fuel [] (by omega) hbefore
    | object members =>
      simp only [tokens, List.length_cons, List.length_append, List.length_nil] at hlength
      exact readsInside_object horder.1 fun hbefore =>
        reads_parseObject members horder.2.2 fuel [] horder.2.1 (by omega) hbefore
  rw [← List.append_nil order.tokens] at hspread
  obtain ⟨gap, more, htext, hgap, hinner⟩ := spread_container hroot hspread
  have hdrop : input.text.drop 0 = gap ++ opening order :: more := htext
  have hbracket := Input.drop_append hdrop
  have hsize := Input.lt_size_of_drop hbracket
  rw [← Input.drop_cons hbracket] at hinner
  obtain ⟨q, hreads, _⟩ := hinside hinner
  have hopening : (opening order == '{' || opening order == '[') = true := by
    obtain heq | heq := opening_cases order
    all_goals simp [heq]
  unfold parse
  rw [if_neg (by omega)]
  refine (peeks_scanChar hdrop (fun x hx => ?_) hopening).reads.bind ?_
  · obtain rfl | rfl | rfl | rfl := isWhitespace_cases (hgap x hx)
    all_goals decide
  · refine (reads_charAt hbracket).bind ?_
    have hfinish : ∀ x, Reads input (finish (order.reread, x)) order.reread := by
      intro x
      refine reads_get fun s hs => ?_
      rw [if_pos hs]
      exact Reads.pure
    obtain heq | heq := opening_cases order
    · rw [heq] at hreads ⊢
      exact hreads.bind (hfinish q)
    · rw [heq] at hreads ⊢
      exact hreads.bind (hfinish q)

omit [CharConv δ] in
theorem isContainer_of_denote {order tree : Json δ} (hsame : order.denote = tree.denote)
    (htree : tree.IsContainer) : order.IsContainer := by
  cases tree with
  | null => exact absurd htree id
  | value v isStringFormat => exact absurd htree id
  | array items =>
    cases order with
    | null => cases hsame
    | value v isStringFormat => cases hsame
    | object members => cases hsame
    | array items' => trivial
  | object members =>
    cases order with
    | null => cases hsame
    | value v isStringFormat => cases hsame
    | array items => cases hsame
    | object members' => trivial

/-- Every text of a tree is read back as the tree, whatever lies behind the text. -/
theorem parse_of_isTextOf {tree : Json δ} (hroot : tree.IsContainer)
    (htext : tree.IsTextOf input.text) : ∃ res : Json δ, res.denote = tree.denote ∧
      tree.IsTextOf res.getStringValue ∧ ∀ fuel, input.size ≤ fuel →
        ∃ s, parse input fuel initial = .ok res s ∧ s.reach ≤ input.size := by
  obtain ⟨order, horder, hsame, hspread⟩ := htext
  have hdenote : order.reread.denote = tree.denote := (denote_reread order).trans hsame
  refine ⟨order.reread, hdenote, isTextOf_getStringValue (printable_reread order horder) hdenote,
    fun fuel hfuel => ?_⟩
  have hreads := reads_parse horder (isContainer_of_denote hsame hroot) hspread hfuel
  obtain ⟨s, hok, _, hreach⟩ := hreads initial rfl
  have hstart : initial.reach = 0 := rfl
  exact ⟨s, hok, by omega⟩

/-- A text of `{"a":"x","b":[-1]}` with the members the other way round. -/
def spacedText : Text :=
  ['{', ' ', '"', 'b', '"', ':', '[', '-', '1', '\n', ']', ',', '"', 'a', '"', ':', '"', 'x', '"',
    '}']

def memberA : Text × Json Empty := (['a'], .value (.string ['x']) true)

def memberB : Text × Json Empty := (['b'], .array [.value (.int64 (-1)) true])

theorem isTextOf_spacedText : (Json.object [memberA, memberB]).IsTextOf spacedText := by
  refine ⟨.object [memberB, memberA], ?_, ?_, ?_⟩
  · simp [Printable, PrintableMembers, PrintableItems, PrintableValue, memberA, memberB]
  · exact denote_object_perm (List.Perm.swap ..) (by simp [memberA, memberB])
  · have hnone : Blank [] := fun c hc => absurd hc List.not_mem_nil
    have hspace : Blank [' '] := by simp [Blank, isWhitespace]
    have hline : Blank ['\n'] := by simp [Blank, isWhitespace]
    exact ⟨[], _, rfl, hnone, [' '], _, rfl, hspace, [], _, rfl, hnone, [], _, rfl, hnone, [], _,
      rfl, hnone, ['\n'], _, rfl, hline, [], _, rfl, hnone, [], _, rfl, hnone, [], _, rfl, hnone,
      [], _, rfl, hnone, [], _, rfl, hnone, hnone⟩

theorem parse_of_isTextOf_spacedText : ∃ res : Json Empty,
    res.denote = (Json.object [memberA, memberB]).denote ∧
      (Json.object [memberA, memberB]).IsTextOf res.getStringValue ∧
      ∀ fuel, (⟨spacedText, fun _ => '"'⟩ : Input).size ≤ fuel →
        ∃ s, parse ⟨spacedText, fun _ => '"'⟩ fuel initial = .ok res s ∧
          s.reach ≤ (⟨spacedText, fun _ => '"'⟩ : Input).size :=
  parse_of_isTextOf trivial isTextOf_spacedText

end Document

end OrderBookServer.JsonParse
