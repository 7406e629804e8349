import OrderBookServer.JsonShape
import OrderBookServer.NumberTokens

/-!
JSON texts without blanks and without escapes, and what has to hold of a tree so that its text is
one: the strings are quoted and plain, and each number is written as a number of the grammar.
-/
namespace OrderBookServer

/-- A character that stands for itself between quotes. -/
def IsPlain (c : Char) : Prop := c ≠ '"' ∧ c ≠ '\\' ∧ 31 < c.toNat

instance (c : Char) : Decidable (IsPlain c) := by
  unfold IsPlain
  infer_instance

def quoted (s : Text) : Text := '"' :: (s ++ ['"'])

/-- The values of the JSON grammar. -/
inductive CompactJson : Text → Prop
  | null : CompactJson ['n', 'u', 'l', 'l']
  | true : CompactJson ['t', 'r', 'u', 'e']
  | false : CompactJson ['f', 'a', 'l', 's', 'e']
  | number (t : NumberToken) : CompactJson t.text
  | string {s : Text} (hs : ∀ c ∈ s, IsPlain c) : CompactJson (quoted s)
  | array {items : List Text} (hitems : ∀ item ∈ items, CompactJson item) :
    CompactJson ('[' :: ([','].intercalate items ++ [']']))
  | object {members : List (Text × Text)} (hkeys : ∀ m ∈ members, ∀ c ∈ m.1, IsPlain c)
    (hmembers : ∀ m ∈ members, CompactJson m.2) :
    CompactJson ('{' ::
      ([','].intercalate (members.map fun m => quoted m.1 ++ ':' :: m.2) ++ ['}']))

section Numerals

theorem toDigits_no_leading_zero (n : ℕ) (h : (Nat.toDigits 10 n).head? = some '0') :
    Nat.toDigits 10 n = ['0'] := by
  induction n using Nat.strong_induction_on with
  | _ n ih =>
    by_cases hsmall : n < 10
    · rw [Nat.toDigits_of_lt_base hsmall] at h ⊢
      rw [Option.some.inj h]
    · -- the digits of the quotient come first, and the quotient is not zero
      rw [Nat.toDigits_of_base_le (by decide) (not_lt.mp hsmall),
        List.head?_append_of_ne_nil _ Nat.toDigits_ne_nil] at h
      have hfront := ih (n / 10) (by omega) h
      have hvalue := Nat.ofDigitChars_ten_toDigits (n := n / 10)
      rw [hfront] at hvalue
      have hzero : n / 10 = 0 := hvalue.symm
      omega

/-- The digits of a number. -/
def digitsOf (n : ℕ) : Digits where
  text := Nat.toDigits 10 n
  ne_nil := Nat.toDigits_ne_nil
  isDigit _ hc := Decimal.isDigit_of_mem hc

def integerToken (x : ℤ) : NumberToken where
  minus := decide (x < 0)
  whole := digitsOf x.natAbs
  fraction := none
  exponent := none
  no_leading_zero := toDigits_no_leading_zero x.natAbs

/-- The decimal text of an integer is a number of the grammar. -/
theorem text_integerToken (x : ℤ) : (integerToken x).text = Decimal.toChars x := by
  unfold Decimal.toChars
  by_cases hneg : x < 0
  · simp [hneg, integerToken, NumberToken.text, NumberToken.mantissa, NumberToken.signText,
      NumberToken.fractionText, NumberToken.exponentText, digitsOf]
  · simp [hneg, integerToken, NumberToken.text, NumberToken.mantissa, NumberToken.signText,
      NumberToken.fractionText, NumberToken.exponentText, digitsOf]

end Numerals

namespace Json

variable {δ : Type}

/-- The floating-point numbers of a tree meet `p`. -/
def doubles (p : δ → Prop) : NodeRule δ where
  value v _ := ∀ x, v = .double x → p x
  array _ := True
  object _ := True

/-- Besides, its strings are quoted and plain, and so are its keys. -/
def plain (p : δ → Prop) : NodeRule δ where
  value v isStringFormat := (∀ x, v = .double x → p x) ∧
    ∀ s, v = .string s → isStringFormat = true ∧ ∀ c ∈ s, IsPlain c
  array _ := True
  object members := ∀ m ∈ members, ∀ c ∈ m.1, IsPlain c

variable {p : δ → Prop} {json value : Json δ} {key : Text} {members : List (Text × Json δ)}

theorem doubles_of_plain (h : json.Every (plain p)) : json.Every (doubles p) := by
  refine Every.mono (r := plain p) ?_ ?_ ?_ h
  · exact fun _ _ hvalue => hvalue.1
  · exact fun _ _ => trivial
  · exact fun _ _ => trivial

theorem every_singleton (hkey : ∀ c ∈ key, IsPlain c) (hvalue : value.Every (plain p)) :
    (Json.object [(key, value)]).Every (plain p) := by
  refine .object (fun m hm => ?_) fun m hm => ?_
  · rw [List.mem_singleton.mp hm]
    exact hkey
  · rw [List.mem_singleton.mp hm]
    exact hvalue

/-- A member that is set leaves a plain tree plain. -/
theorem Every.setKey (h : json.Every (plain p)) (hkey : ∀ c ∈ key, IsPlain c)
    (hvalue : value.Every (plain p)) : (json.setKey key value).Every (plain p) := by
  have hname : ∀ c ∈ key.takeWhile (fun c => c ≠ '\x00'), IsPlain c := fun c hc =>
    hkey c ((List.takeWhile_subset _) hc)
  cases h with
  | null => exact every_singleton hname hvalue
  | value h => exact every_singleton hname hvalue
  | array h hitems => exact every_singleton hname hvalue
  | object hkeys hmembers =>
    refine .object (fun m hm => ?_) fun m hm => ?_
    · rcases mem_insertMember hm with hold | rfl
      · exact hkeys m hold
      · exact hname
    · rcases mem_insertMember hm with hold | rfl
      · exact hmembers m hold
      · exact hvalue

section Write

variable [CharConv δ]

theorem flatten_writeItems_false (items : List (Json δ)) :
    (writeItems false items).flatten =
      (items.map fun item => ',' :: item.getStringValue).flatten := by
  induction items with
  | nil => rfl
  | cons item items ih => simp [writeItems, getStringValue, ih]

theorem flatten_writeMembers_false (members : List (Text × Json δ)) :
    (writeMembers false members).flatten =
      (members.map fun m => ',' :: (quoted m.1 ++ ':' :: m.2.getStringValue)).flatten := by
  induction members with
  | nil => rfl
  | cons m members ih => simp [writeMembers, getStringValue, quoted, ih]

omit [CharConv δ] in
/-- Each part but the first has a comma in front of it. -/
theorem intercalate_cons {α : Type} (text : α → Text) (x : α) (xs : List α) :
    [','].intercalate (text x :: xs.map text) =
      text x ++ (xs.map fun x => ',' :: text x).flatten := by
  induction xs generalizing x with
  | nil => simp [List.intercalate_singleton]
  | cons y xs ih =>
    rw [List.map_cons, List.intercalate_cons_of_ne_nil (List.cons_ne_nil _ _), ih y]
    simp

theorem getStringValue_array (items : List (Json δ)) : (Json.array items).getStringValue =
    '[' :: ([','].intercalate (items.map getStringValue) ++ [']']) := by
  cases items with
  | nil => rfl
  | cons item items =>
    rw [List.map_cons, intercalate_cons, ← flatten_writeItems_false]
    simp [getStringValue, writeStringValue, writeItems]

theorem getStringValue_object (members : List (Text × Json δ)) :
    (Json.object members).getStringValue = '{' :: ([','].intercalate
      (members.map fun m => quoted m.1 ++ ':' :: m.2.getStringValue) ++ ['}']) := by
  cases members with
  | nil => rfl
  | cons m members =>
    rw [List.map_cons, intercalate_cons (fun m : Text × Json δ => quoted m.1 ++ ':' ::
      m.2.getStringValue) m members, ← flatten_writeMembers_false]
    simp [getStringValue, writeStringValue, writeMembers, quoted]

/-- The text of a plain tree is a JSON text where its floating-point numbers are numbers of the
grammar. -/
theorem compactJson_getStringValue
    (hp : ∀ x, p x → ∃ t : NumberToken, CharConv.toChars x = t.text) (h : json.Every (plain p)) :
    CompactJson json.getStringValue := by
  induction h with
  | null => exact .null
  | @value v isStringFormat h =>
    have hinteger : ∀ x, CompactJson (Decimal.toChars x) := fun x =>
      text_integerToken x ▸ .number (integerToken x)
    cases v with
    | null => exact .null
    | bool b =>
      cases b with
      | false => exact .false
      | true => exact .true
    | int64 x =>
      have htext : (Json.value (.int64 x) isStringFormat : Json δ).getStringValue =
          Decimal.toChars x.toInt := List.append_nil _
      rw [htext]
      exact hinteger _
    | uint64 x =>
      have htext : (Json.value (.uint64 x) isStringFormat : Json δ).getStringValue =
          Decimal.toChars x.toNat := List.append_nil _
      rw [htext]
      exact hinteger _
    | double x =>
      obtain ⟨t, ht⟩ := hp x (h.1 x rfl)
      have htext : (Json.value (.double x) isStringFormat).getStringValue =
          CharConv.toChars x := List.append_nil _
      rw [htext, ht]
      exact .number t
    | string s =>
      obtain ⟨hformat, hplain⟩ := h.2 s rfl
      have htext : (Json.value (.string s) isStringFormat : Json δ).getStringValue = quoted s := by
        rw [hformat]
        simp [getStringValue, writeStringValue, JsonValue.writeStringValue, quoted]
      rw [htext]
      exact .string hplain
  | @array items h _ ih =>
    rw [getStringValue_array]
    apply CompactJson.array
    intro text htext
    obtain ⟨item, hitem, rfl⟩ := List.mem_map.mp htext
    exact ih item hitem
  | @object members h _ ih =>
    have hmap : (members.map fun m => quoted m.1 ++ ':' :: m.2.getStringValue) =
        (members.map fun m => (m.1, m.2.getStringValue)).map fun m => quoted m.1 ++ ':' :: m.2 := by
      rw [List.map_map]
      rfl
    rw [getStringValue_object, hmap]
    apply CompactJson.object
    · intro m hm
      obtain ⟨member, hmember, rfl⟩ := List.mem_map.mp hm
      exact h member hmember
    · intro m hm
      obtain ⟨member, hmember, rfl⟩ := List.mem_map.mp hm
      exact ih member hmember

end Write

end Json

end OrderBookServer
