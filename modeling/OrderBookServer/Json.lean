import OrderBookServer.Decimal

/-!
The JSON trees of src/core/json: a handle is null or refers to a value, to an array
or to an object. Pool objects are as their constructors leave them, and a tree stands
for the reference-counted graph behind a handle. The members of an object are listed
in the order in which the unordered map would be traversed.
-/
namespace OrderBookServer

/-- `std::to_chars` and `std::from_chars` of a floating-point type. -/
class CharConv (δ : Type) where
  toChars : δ → Text
  fromChars : Text → Option δ

/-- For documents without floating-point numbers. -/
instance : CharConv Empty where
  toChars x := nomatch x
  fromChars _ := none

inductive JsonValue (δ : Type)
  | null
  | bool (b : Bool)
  | int64 (x : Int64)
  | uint64 (x : UInt64)
  | double (x : δ)
  | string (s : Text)
deriving DecidableEq, Repr

/-- A handle; the flag of a value is `m_is_string_format`. -/
inductive Json (δ : Type)
  | null
  | value (v : JsonValue δ) (isStringFormat : Bool)
  | array (items : List (Json δ))
  | object (members : List (Text × Json δ))
deriving Repr

namespace JsonValue

variable {δ : Type} [CharConv δ]

/-- The arguments of the calls to `write_char` and `write_raw`, in order. -/
def writeStringValue (isStringFormat : Bool) : JsonValue δ → List Text
  | .null => [['n', 'u', 'l', 'l']]
  | .bool true => [['t', 'r', 'u', 'e']]
  | .bool false => [['f', 'a', 'l', 's', 'e']]
  | .int64 x => [Decimal.toChars x.toInt]
  | .uint64 x => [Decimal.toChars x.toNat]
  | .double x => [CharConv.toChars x]
  | .string s => if isStringFormat then [['"'], s, ['"']] else [s]

/-- `operator=` of an unsigned number, which is convertible to `int64_t`. -/
def ofUInt64 (x : UInt64) : JsonValue δ := .int64 x.toInt64

end JsonValue

/-- `STRING_BUFFER_SIZE`. -/
def stringBufferSize : ℕ := 100000

namespace Json

variable {δ : Type}

/-- A handle created from a scalar. -/
def ofValue (v : JsonValue δ) : Json δ := .value v true

section Write

variable [CharConv δ]

mutual

def writeStringValue : Json δ → List Text
  | .null => [['n', 'u', 'l', 'l']]
  | .value v isStringFormat => v.writeStringValue isStringFormat
  | .array items => [['[']] ++ writeItems true items ++ [[']']]
  | .object members => [['{']] ++ writeMembers true members ++ [['}']]

def writeItems (first : Bool) : List (Json δ) → List Text
  | [] => []
  | item :: items =>
    (if first then [] else [[',']]) ++ writeStringValue item ++ writeItems false items

def writeMembers (first : Bool) : List (Text × Json δ) → List Text
  | [] => []
  | (key, item) :: members =>
    (if first then [] else [[',']]) ++ [['"'], key, ['"'], [':']] ++ writeStringValue item ++
      writeMembers false members

end

/-- The text that `get_string_value` writes into an array of `STRING_BUFFER_SIZE` bytes, which it
does not check: this is what it returns where the text fits. -/
def getStringValue (json : Json δ) : Text := json.writeStringValue.flatten

/-- Every write, the first one at `pos`, ends inside a buffer of `size` bytes. -/
def WritesInside (size : ℕ) : ℕ → List Text → Prop
  | _, [] => True
  | pos, text :: texts => pos + text.length ≤ size ∧ WritesInside size (pos + text.length) texts

theorem writesInside_iff {size pos : ℕ} (hpos : pos ≤ size) (texts : List Text) :
    WritesInside size pos texts ↔ pos + texts.flatten.length ≤ size := by
  induction texts generalizing pos with
  | nil => simpa [WritesInside] using hpos
  | cons text texts ih =>
    rw [List.flatten_cons, List.length_append]
    constructor
    · intro hinside
      obtain ⟨htext, hrest⟩ := hinside
      have hlength := (ih htext).mp hrest
      omega
    · intro hlength
      have htext : pos + text.length ≤ size := by omega
      refine ⟨htext, (ih htext).mpr ?_⟩
      omega

/-- Every write of `get_string_value` ends inside its array. -/
def FitsBuffer (json : Json δ) : Prop := WritesInside stringBufferSize 0 json.writeStringValue

theorem fitsBuffer_iff (json : Json δ) :
    json.FitsBuffer ↔ json.getStringValue.length ≤ stringBufferSize := by
  have hiff := writesInside_iff (Nat.zero_le stringBufferSize) json.writeStringValue
  rwa [Nat.zero_add] at hiff

instance (json : Json δ) : Decidable json.FitsBuffer :=
  decidable_of_iff _ (fitsBuffer_iff json).symm

/-- `get_string_value` with its array: `none` where a write goes behind the end. -/
def getStringValue? (json : Json δ) : Option Text :=
  if json.FitsBuffer then some json.getStringValue else none

theorem getStringValue?_of_fits {json : Json δ} (h : json.FitsBuffer) :
    json.getStringValue? = some json.getStringValue :=
  if_pos h

end Write

/-- `push_back`, on a handle that is made an array if it is not one. -/
def pushBack (json : Json δ) (item : Json δ) : Json δ :=
  match json with
  | .array items => .array (items ++ [item])
  | _ => .array [item]

/-- `operator[](size_t)` followed by an assignment. -/
def setIndex (json : Json δ) (index : ℕ) (item : Json δ) : Json δ :=
  match json with
  | .array items =>
    .array ((items ++ List.replicate (index + 1 - items.length) Json.null).set index item)
  | _ => .array (List.replicate index Json.null ++ [item])

def insertMember (key : Text) (value : Json δ) : List (Text × Json δ) → List (Text × Json δ)
  | [] => [(key, value)]
  | m :: members =>
    if m.1 = key then (key, value) :: members else m :: insertMember key value members

/-- The member that is set takes the place of one with its key, and the others stay. -/
theorem mem_insertMember {key : Text} {value : Json δ} {members : List (Text × Json δ)}
    {m : Text × Json δ} (h : m ∈ insertMember key value members) :
    m ∈ members ∨ m = (key, value) := by
  induction members with
  | nil => exact Or.inr (List.mem_singleton.mp h)
  | cons first members ih =>
    rw [insertMember] at h
    by_cases heq : first.1 = key
    · rw [if_pos heq] at h
      obtain rfl | hmem := List.mem_cons.mp h
      · exact Or.inr rfl
      · exact Or.inl (List.mem_cons_of_mem _ hmem)
    · rw [if_neg heq] at h
      obtain rfl | hmem := List.mem_cons.mp h
      · exact Or.inl (List.mem_cons_self ..)
      · rcases ih hmem with hold | hnew
        · exact Or.inl (List.mem_cons_of_mem _ hold)
        · exact Or.inr hnew

/-- `operator[](const std::string&)` followed by an assignment; the key ends at its first NUL. -/
def setKey (json : Json δ) (key : Text) (value : Json δ) : Json δ :=
  let key := key.takeWhile (fun c => c ≠ '\x00')
  match json with
  | .object members => .object (insertMember key value members)
  | _ => .object [(key, value)]

end Json

end OrderBookServer
