import OrderBookServer.Decimal
import OrderBookServer.Occurrences

/-!
Messages with a start line, fields and a body whose length is one of the fields. A reader takes
them off a stream one after the other, and has nothing of a message before its last character.
-/
namespace OrderBookServer

open Occurrences

def lineEnd : Text := ['\r', '\n']

/-- The first line without its end, and what is behind it. -/
def takeLine (text : Text) : Option (Text × Text) :=
  (indexOf lineEnd text).map fun i => (text.take i, text.drop (i + 2))

/-- Blanks in front of a value are no part of it. -/
def splitField (line : Text) : Option (Text × Text) :=
  match line.dropWhile (· ≠ ':') with
  | ':' :: value => some (line.takeWhile (· ≠ ':'), value.dropWhile (· = ' '))
  | _ => none

/-- The fields up to the blank line, and what is behind it. -/
def takeFields : ℕ → Text → Option (List (Text × Text) × Text)
  | 0, _ => none
  | turns + 1, text => do
    let (line, rest) ← takeLine text
    if line = [] then return ([], rest)
    let field ← splitField line
    let (fields, rest) ← takeFields turns rest
    return (field :: fields, rest)

/-- The case of a name does not matter. -/
def isLengthField (name : Text) : Bool := name.map Char.toLower = "content-length".toList

def lengthOf (fields : List (Text × Text)) : Option ℕ := do
  let (_, value) ← fields.find? fun field => isLengthField field.1
  Decimal.natFromChars value

/-- What a reader knows of a message. -/
structure ReadMessage where
  startLine : Text
  fields : List (Text × Text)
  body : Text
deriving DecidableEq

def takeMessage (text : Text) : Option (ReadMessage × Text) := do
  let (startLine, rest) ← takeLine text
  let (fields, rest) ← takeFields (rest.length + 1) rest
  let length ← lengthOf fields
  if rest.length < length then none
  else some (⟨startLine, fields, rest.take length⟩, rest.drop length)

/-- The messages of a stream that are there whole, and the characters behind them. -/
def takeMessages : ℕ → Text → List ReadMessage × Text
  | 0, text => ([], text)
  | turns + 1, text =>
    match takeMessage text with
    | none => ([], text)
    | some (message, rest) =>
      let (messages, rest) := takeMessages turns rest
      (message :: messages, rest)

def readStream (text : Text) : List ReadMessage × Text := takeMessages (text.length + 1) text

structure MessageField where
  name : Text
  value : Text
  name_clean : '\r' ∉ name ∧ ':' ∉ name
  value_clean : '\r' ∉ value ∧ value.head? ≠ some ' '

def MessageField.line (field : MessageField) : Text := field.name ++ (':' :: ' ' :: field.value)

def MessageField.entry (field : MessageField) : Text × Text := (field.name, field.value)

structure FramedMessage where
  startLine : Text
  fields : List MessageField
  body : Text
  startLine_clean : '\r' ∉ startLine
  lengthOf_fields : lengthOf (fields.map MessageField.entry) = some body.length

namespace FramedMessage

def fieldLines (fields : List MessageField) : Text :=
  fields.flatMap fun field => field.line ++ lineEnd

def bytes (m : FramedMessage) : Text :=
  m.startLine ++ lineEnd ++ (fieldLines m.fields ++ (lineEnd ++ m.body))

def read (m : FramedMessage) : ReadMessage :=
  ⟨m.startLine, m.fields.map MessageField.entry, m.body⟩

end FramedMessage

section Lines

variable {text line rest : Text}

/-- A line is taken off a longer text as well. -/
theorem takeLine_append (h : takeLine text = some (line, rest)) (more : Text) :
    takeLine (text ++ more) = some (line, rest ++ more) := by
  unfold takeLine at h ⊢
  cases hindex : indexOf lineEnd text with
  | none =>
    rw [hindex] at h
    cases h
  | some i =>
    rw [hindex] at h
    cases h
    have hle : i + 2 ≤ text.length := add_length_le_of_indexOf hindex
    rw [indexOf_append_of_some hindex, Option.map_some,
      List.take_append_of_le_length (by omega), List.drop_append_of_le_length hle]

theorem takeLine_line (hline : '\r' ∉ line) (rest : Text) :
    takeLine (line ++ (lineEnd ++ rest)) = some (line, rest) := by
  have hindex : indexOf lineEnd (line ++ (lineEnd ++ rest)) = some line.length :=
    indexOf_append_of_notMem hline
  unfold takeLine
  rw [hindex, Option.map_some, List.take_left, ← List.drop_drop, List.drop_left]
  rfl

theorem MessageField.line_clean (field : MessageField) : '\r' ∉ field.line := by
  simp [MessageField.line, field.name_clean.1, field.value_clean.1]

theorem MessageField.line_ne_nil (field : MessageField) : field.line ≠ [] := by
  simp [MessageField.line]

theorem splitField_line (field : MessageField) : splitField field.line = some field.entry := by
  have hname : ∀ c ∈ field.name, (decide (c ≠ ':')) = true := by
    intro c hc
    refine decide_eq_true ?_
    rintro rfl
    exact field.name_clean.2 hc
  have hvalue : field.value.dropWhile (· = ' ') = field.value := by
    rw [List.dropWhile_eq_self_iff]
    intro hpos hblank
    refine field.value_clean.2 ?_
    rw [List.head?_eq_getElem?, List.getElem?_eq_getElem hpos, of_decide_eq_true hblank]
  unfold splitField MessageField.line
  rw [List.dropWhile_append_of_pos hname, List.takeWhile_append_of_pos hname]
  simp only [ne_eq, List.dropWhile_cons, List.takeWhile_cons]
  simp [MessageField.entry, hvalue]

end Lines

/-- The lines are those of fields. -/
def AreFields (lines : List Text) (entries : List (Text × Text)) : Prop :=
  ∃ fields : List MessageField, fields.map MessageField.line = lines ∧
    fields.map MessageField.entry = entries

theorem AreFields.nil : AreFields [] [] := ⟨[], rfl, rfl⟩

theorem AreFields.append {lines lines' : List Text} {entries entries' : List (Text × Text)}
    (h : AreFields lines entries) (h' : AreFields lines' entries') :
    AreFields (lines ++ lines') (entries ++ entries') := by
  obtain ⟨fields, rfl, rfl⟩ := h
  obtain ⟨fields', rfl, rfl⟩ := h'
  exact ⟨fields ++ fields', List.map_append, List.map_append⟩

theorem AreFields.cons {lines : List Text} {entries : List (Text × Text)} {line name value : Text}
    (h : AreFields lines entries) (hline : line = name ++ (':' :: ' ' :: value))
    (hname : '\r' ∉ name ∧ ':' ∉ name) (hvalue : '\r' ∉ value ∧ value.head? ≠ some ' ') :
    AreFields (line :: lines) ((name, value) :: entries) := by
  obtain ⟨fields, rfl, rfl⟩ := h
  exact ⟨⟨name, value, hname, hvalue⟩ :: fields, by rw [hline]; rfl, rfl⟩

section Fields

variable {text rest : Text} {fields : List (Text × Text)} {turns turns' : ℕ}

theorem takeFields_append (h : takeFields turns text = some (fields, rest)) (hle : turns ≤ turns')
    (more : Text) : takeFields turns' (text ++ more) = some (fields, rest ++ more) := by
  induction turns generalizing turns' text fields with
  | zero => cases h
  | succ turns ih =>
    cases turns' with
    | zero => cases Nat.not_succ_le_zero _ hle
    | succ turns' =>
      rw [takeFields] at h ⊢
      obtain ⟨⟨line, behind⟩, hline, h⟩ := Option.bind_eq_some_iff.mp h
      rw [takeLine_append hline more]
      by_cases hblank : line = []
      · simp only [hblank, if_true] at h
        cases h
        simp [hblank]
      · simp only [hblank, if_false] at h
        obtain ⟨field, hfield, h⟩ := Option.bind_eq_some_iff.mp h
        obtain ⟨⟨others, left⟩, hothers, h⟩ := Option.bind_eq_some_iff.mp h
        cases h
        simp [hblank, hfield, ih hothers (Nat.le_of_succ_le_succ hle)]

theorem takeFields_fieldLines (fields : List MessageField) (hturns : fields.length < turns)
    (rest : Text) : takeFields turns (FramedMessage.fieldLines fields ++ (lineEnd ++ rest)) =
      some (fields.map MessageField.entry, rest) := by
  induction fields generalizing turns with
  | nil =>
    obtain ⟨turns, rfl⟩ := Nat.exists_eq_succ_of_ne_zero (Nat.ne_of_gt hturns)
    have hline : takeLine ([] ++ (lineEnd ++ rest)) = some ([], rest) :=
      takeLine_line (by simp) rest
    rw [List.nil_append] at hline
    simp [takeFields, FramedMessage.fieldLines, hline]
  | cons field fields ih =>
    obtain ⟨turns, rfl⟩ := Nat.exists_eq_succ_of_ne_zero (Nat.ne_of_gt (Nat.zero_lt_of_lt hturns))
    have hrest := ih (Nat.lt_of_succ_lt_succ hturns)
    have hline := takeLine_line field.line_clean
      (FramedMessage.fieldLines fields ++ (lineEnd ++ rest))
    have hsplit : FramedMessage.fieldLines (field :: fields) ++ (lineEnd ++ rest) =
        field.line ++ (lineEnd ++ (FramedMessage.fieldLines fields ++ (lineEnd ++ rest))) := by
      simp [FramedMessage.fieldLines]
    rw [hsplit, takeFields, hline]
    simp [field.line_ne_nil, splitField_line, hrest]

end Fields

section Messages

variable {text rest stream : Text} {message : ReadMessage} {turns : ℕ}

theorem takeMessage_append (h : takeMessage text = some (message, rest)) (more : Text) :
    takeMessage (text ++ more) = some (message, rest ++ more) := by
  unfold takeMessage at h ⊢
  obtain ⟨⟨startLine, behind⟩, hline, h⟩ := Option.bind_eq_some_iff.mp h
  obtain ⟨⟨fields, body⟩, hfields, h⟩ := Option.bind_eq_some_iff.mp h
  obtain ⟨length, hlength, h⟩ := Option.bind_eq_some_iff.mp h
  have hfields' : takeFields ((behind ++ more).length + 1) (behind ++ more) =
      some (fields, body ++ more) := takeFields_append hfields (by simp) more
  by_cases hshort : body.length < length
  · simp only [hshort, if_true] at h
    cases h
  · simp only [hshort, if_false] at h
    cases h
    have hlong : ¬ (body ++ more).length < length := by
      rw [List.length_append]
      omega
    simp only [takeLine_append hline more, Option.bind_some, bind, hfields', hlength, hlong,
      if_false]
    rw [List.take_append_of_le_length (by omega), List.drop_append_of_le_length (by omega)]

theorem length_fieldLines (fields : List MessageField) :
    fields.length ≤ (FramedMessage.fieldLines fields).length := by
  induction fields with
  | nil => exact Nat.zero_le _
  | cons field fields ih =>
    have hcons : FramedMessage.fieldLines (field :: fields) =
        field.line ++ lineEnd ++ FramedMessage.fieldLines fields := rfl
    rw [hcons, List.length_append, List.length_append, List.length_cons]
    have hend : lineEnd.length = 2 := rfl
    omega

/-- A message is read as what it is, with whatever comes after it. -/
theorem takeMessage_bytes (m : FramedMessage) (rest : Text) :
    takeMessage (m.bytes ++ rest) = some (m.read, rest) := by
  have hsplit : m.bytes ++ rest = m.startLine ++
      (lineEnd ++ (FramedMessage.fieldLines m.fields ++ (lineEnd ++ (m.body ++ rest)))) := by
    simp [FramedMessage.bytes]
  have hturns : m.fields.length < (FramedMessage.fieldLines m.fields ++
      (lineEnd ++ (m.body ++ rest))).length + 1 := by
    have hle := length_fieldLines m.fields
    rw [List.length_append]
    omega
  have hlong : ¬ (m.body ++ rest).length < m.body.length := by
    rw [List.length_append]
    omega
  unfold takeMessage
  rw [hsplit, takeLine_line m.startLine_clean]
  simp only [bind, Option.bind_some, takeFields_fieldLines m.fields hturns, m.lengthOf_fields,
    hlong, if_false, List.take_left, List.drop_left]
  rfl

theorem bytes_ne_nil (m : FramedMessage) : m.bytes ≠ [] := by
  simp [FramedMessage.bytes, lineEnd]

/-- Nothing is read of a message before its last character. -/
theorem takeMessage_prefix {m : FramedMessage} (hstart : text <+: m.bytes)
    (hne : text ≠ m.bytes) : takeMessage text = none := by
  cases h : takeMessage text with
  | none => rfl
  | some read =>
    obtain ⟨message, rest⟩ := read
    obtain ⟨more, hmore⟩ := hstart
    have hwhole := takeMessage_bytes m []
    rw [List.append_nil, ← hmore, takeMessage_append h more] at hwhole
    simp only [Option.some.injEq, Prod.mk.injEq, List.append_eq_nil_iff] at hwhole
    rw [hwhole.2.2, List.append_nil] at hmore
    exact absurd hmore hne

theorem takeMessages_bytes (ms : List FramedMessage) (hturns : ms.length < turns)
    (hrest : takeMessage rest = none) :
    takeMessages turns (ms.flatMap FramedMessage.bytes ++ rest) =
      (ms.map FramedMessage.read, rest) := by
  induction ms generalizing turns with
  | nil =>
    obtain ⟨turns, rfl⟩ := Nat.exists_eq_succ_of_ne_zero (Nat.ne_of_gt hturns)
    rw [List.flatMap_nil, List.nil_append, takeMessages, hrest]
    rfl
  | cons m ms ih =>
    obtain ⟨turns, rfl⟩ := Nat.exists_eq_succ_of_ne_zero (Nat.ne_of_gt (Nat.zero_lt_of_lt hturns))
    rw [List.flatMap_cons, List.append_assoc, takeMessages, takeMessage_bytes]
    simp only [ih (Nat.lt_of_succ_lt_succ hturns)]
    rfl

theorem length_le_flatMap_bytes (ms : List FramedMessage) :
    ms.length ≤ (ms.flatMap FramedMessage.bytes).length := by
  induction ms with
  | nil => exact Nat.zero_le _
  | cons m ms ih =>
    have hpos := List.length_pos_iff.mpr (bytes_ne_nil m)
    rw [List.flatMap_cons, List.length_append, List.length_cons]
    omega

/-- What there is of a stream of messages are the first ones and a part of the next one. -/
theorem exists_take_of_prefix {ms : List FramedMessage}
    (h : stream <+: ms.flatMap FramedMessage.bytes) : ∃ k left,
      stream = (ms.take k).flatMap FramedMessage.bytes ++ left ∧ k ≤ ms.length ∧
        (left = [] ∨ ∃ m, ms[k]? = some m ∧ left <+: m.bytes ∧ left ≠ m.bytes) := by
  induction ms generalizing stream with
  | nil =>
    rw [List.flatMap_nil, List.prefix_nil] at h
    exact ⟨0, [], h, Nat.le_refl 0, .inl rfl⟩
  | cons m ms ih =>
    rw [List.flatMap_cons] at h
    by_cases hlong : m.bytes.length ≤ stream.length
    · obtain ⟨behind, rfl⟩ := List.prefix_of_prefix_length_le (List.prefix_append _ _) h hlong
      obtain ⟨k, left, hstream, hk, hleft⟩ := ih ((List.prefix_append_right_inj _).mp h)
      refine ⟨k + 1, left, ?_, Nat.succ_le_succ hk, hleft⟩
      rw [hstream, List.take_succ_cons, List.flatMap_cons, List.append_assoc]
    · have hprefix := List.prefix_of_prefix_length_le h (List.prefix_append m.bytes _) (by omega)
      refine ⟨0, stream, rfl, Nat.zero_le _, .inr ⟨m, rfl, hprefix, ?_⟩⟩
      rintro rfl
      omega

/-- However much of the stream of some messages there is, the first messages are read, whole and
in order, and nothing of the others. -/
theorem readStream_prefix {ms : List FramedMessage}
    (h : stream <+: ms.flatMap FramedMessage.bytes) : ∃ k left, k ≤ ms.length ∧
      stream = (ms.take k).flatMap FramedMessage.bytes ++ left ∧
        readStream stream = ((ms.take k).map FramedMessage.read, left) := by
  obtain ⟨k, left, rfl, hk, hleft⟩ := exists_take_of_prefix h
  refine ⟨k, left, hk, rfl, takeMessages_bytes _ ?_ ?_⟩
  · have hle := length_le_flatMap_bytes (ms.take k)
    rw [List.length_append]
    omega
  · rcases hleft with rfl | ⟨m, _, hprefix, hne⟩
    · rfl
    · exact takeMessage_prefix hprefix hne

theorem readStream_bytes (ms : List FramedMessage) :
    readStream (ms.flatMap FramedMessage.bytes) = (ms.map FramedMessage.read, []) := by
  have hnone : takeMessage [] = none := rfl
  have hread := takeMessages_bytes ms (Nat.lt_succ_of_le (length_le_flatMap_bytes ms)) hnone
  rwa [List.append_nil] at hread

end Messages

end OrderBookServer
