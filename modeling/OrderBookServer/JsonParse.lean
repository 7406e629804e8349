import OrderBookServer.Int64Arith
import OrderBookServer.Json

/-!
The reader of src/core/json. Its functions share a text, a validity flag and a position
that each of them moves; a position is passed in and handed back here. The functions
recurse with fuel, since the loop over an array need not end. What is read lies in the
text, at the NUL behind it, or in the memory after that.
-/
namespace OrderBookServer

structure Input where
  text : Text
  beyond : ℕ → Char

/-- The flag of the reader. The other fields only record what it does: one past the
greatest index read, the positions at which a turn of the array loop began, and the
positions between which a turn of either loop went when the loop was not left. -/
structure ParseState where
  isValid : Bool
  reach : ℕ
  heads : List ℕ
  turns : List (ℕ × ℕ)
deriving DecidableEq, Repr

/-- The end of a run that returns nothing. -/
inductive Abort
  | outOfRange
  | outOfFuel
deriving DecidableEq, Repr

abbrev Parser := EStateM Abort ParseState

namespace Input

def size (input : Input) : ℕ := input.text.length

def byte (input : Input) (i : ℕ) : Char :=
  match input.text[i]? with
  | some c => c
  | none => if i = input.size then '\x00' else input.beyond i

end Input

namespace JsonParse

def isNumber (c : Char) : Bool := c.isDigit || c == '-'

def isLetter (c : Char) : Bool := c.isAlpha

def initial : ParseState := ⟨true, 0, [], []⟩

section Scanners

variable (input : Input)

/-- `m_object_string[i]`. -/
def charAt (i : ℕ) : Parser Char := fun s =>
  .ok (input.byte i) { s with reach := max s.reach (i + 1) }

def checkExceedSize (i : ℕ) : Parser Bool := fun s =>
  if input.size ≤ i then .ok true { s with isValid := false } else .ok false s

def getSubString (start stop : ℕ) : Parser Text :=
  if stop ≤ input.size then pure ((input.text.drop start).take (stop - start))
  else throw .outOfRange

def scanFrom (stop : ℕ → Parser Bool) : ℕ → ℕ → Parser (ℕ × Bool)
  | 0, i => do
    if ← stop i then pure (i, false)
    else do
      let exceeded ← checkExceedSize input (i + 1)
      pure (i + 1, exceeded)
  | turns + 1, i => do
    if ← stop i then pure (i, false)
    else if ← checkExceedSize input (i + 1) then pure (i + 1, true)
    else scanFrom stop turns (i + 1)

/-- `while (!stop(i)) { i++; if (check_exceed_size(i)) break; }`, with the way it ended. -/
def scan (stop : ℕ → Parser Bool) (i : ℕ) : Parser (ℕ × Bool) :=
  scanFrom input stop (input.size - 1 - i) i

/-- A scan up to the first character of a kind. -/
def scanChar (stop : Char → Bool) (i : ℕ) : Parser (ℕ × Bool) :=
  scan input (fun i => stop <$> charAt input i) i

/-- A keyword that nothing of a kind follows; the byte behind it is looked at first. -/
def isWord (word : Text) (follows : Char → Bool) (start : ℕ) : Parser Bool :=
  if start + word.length < input.size then do
    let next ← charAt input (start + word.length)
    pure (!follows next && word.isPrefixOf (input.text.drop start))
  else pure false

def isBoolean (start : ℕ) : Parser (Option Bool) := do
  if ← isWord input ['t', 'r', 'u', 'e'] isLetter start then pure (some true)
  else if ← isWord input ['f', 'a', 'l', 's', 'e'] isLetter start then pure (some false)
  else pure none

def isNull (start : ℕ) : Parser Bool :=
  isWord input ['n', 'u', 'l', 'l'] (fun c => isLetter c || isNumber c) start

/-- A value starts here, or a container ends. -/
def valueStop (start : ℕ) : Parser Bool := do
  let c ← charAt input start
  if c == '"' || c == '{' || c == '[' || isNumber c then pure true
  else if (← isBoolean input start).isSome then pure true
  else if ← isNull input start then pure true
  else pure (c == '}' || c == ']')

def parseKey (startPos : ℕ) : Parser (Text × ℕ) := do
  let (start, _) ← scanChar input (fun c => c == '"' || c == '}') startPos
  if (← charAt input start) == '}' then pure (['}'], start + 1)
  else do
    let (stop, _) ← scanChar input (fun c => c == '"') (start + 1)
    let key ← getSubString input (start + 1) stop
    pure (key, stop + 1)

def parseValueString (startPos : ℕ) : Parser (Text × ℕ) := do
  let (stop, _) ← scanChar input (fun c => c == '"') startPos
  let value ← getSubString input startPos stop
  pure (value, stop + 1)

/-- The first byte that the loop over a number does not take. -/
def numberStop (i : ℕ) : Parser Bool := do
  let c ← charAt input i
  if isNumber c || c == '.' then pure false
  else if c == 'e' then do
    let next ← charAt input (i + 1)
    pure (next != '-')
  else pure true

end Scanners

section Reader

variable {δ : Type} [CharConv δ]

/-- `std::from_chars` of an `int64_t`: nothing where the number is out of range. -/
def int64FromChars (text : Text) : Option Int64 :=
  match Decimal.fromChars text with
  | some x => if Fits64 x then some (Int64.ofInt x) else none
  | none => none

variable (input : Input)

def parseValueNumber (startPos : ℕ) : Parser (Json δ × ℕ) := do
  let (stop, _) ← scan input (numberStop input) startPos
  let numberString ← getSubString input startPos stop
  -- `is_float` is set where the loop passes a point.
  if numberString.contains '.' then
    match CharConv.fromChars numberString with
    | some x => pure (.ofValue (.double x), stop)
    | none => pure (.null, stop)
  else
    match int64FromChars numberString with
    | some x => pure (.ofValue (.int64 x), stop)
    | none => pure (.null, stop)

/-- The last loop of `parse_value`, which finds the next comma or closing bracket. -/
def lastScan (value : Json δ × ℕ) : Parser (Json δ × ℕ) := do
  let (pos, _) ← scanChar input (fun c => c == ',' || c == '}' || c == ']') value.2
  pure (value.1, pos)

/-- The branches on the first character of a value, and the position behind the value. -/
def parseBranch (object array : ℕ → Parser (Json δ × ℕ)) (start startPos : ℕ) :
    Parser (Json δ × ℕ) := do
  let c ← charAt input start
  if c == '"' then do
    let (text, pos) ← parseValueString input (start + 1)
    pure (.ofValue (.string text), pos)
  else if isNumber c then parseValueNumber input start
  else
    match ← isBoolean input start with
    | some true => pure (.ofValue (.bool true), start + 4)
    | some false => pure (.ofValue (.bool false), start + 5)
    | none =>
      if ← isNull input start then pure (.ofValue .null, start + 4)
      else if c == '{' then object (start + 1)
      else if c == '[' then array (start + 1)
      else pure (.null, startPos)

/-- `parse_value` after its first scan, which ended at the character `c` at `start`. -/
def valueTail (object array : ℕ → Parser (Json δ × ℕ)) (c : Char) (start startPos : ℕ) :
    Parser (Json δ × ℕ) := do
  -- The scan moves `start_pos` only where it stops at a closing bracket.
  let startPos := if c == '}' || c == ']' then start else startPos
  if (← get).isValid then do
    let value ← parseBranch input object array start startPos
    lastScan input value
  else pure (.null, startPos)

/-- The body of `parse_value`, over the readers of the two kinds of containers. -/
def parseValueWith (object array : ℕ → Parser (Json δ × ℕ)) (startPos : ℕ) :
    Parser (Json δ × ℕ) := do
  let (start, exceeded) ← scan input (valueStop input) startPos
  let c ← if exceeded then pure '\x00' else charAt input start
  valueTail input object array c start startPos

mutual

/-- The loop of `parse_object`. -/
def parseObject : ℕ → Json δ → ℕ → Parser (Json δ × ℕ)
  | 0, _, _ => throw .outOfFuel
  | fuel + 1, res, startPos => do
    if (← charAt input startPos) == '}' then pure (res, startPos + 1)
    else do
      let (key, pos) ← parseKey input startPos
      -- `key.data() == "}"` compares two addresses; it does not hold for an empty object either.
      let (value, pos) ← parseValue fuel pos
      let res := res.setKey key value
      if ← checkExceedSize input pos then pure (res, pos + 1)
      else do
        modify fun s => { s with turns := (startPos, pos) :: s.turns }
        parseObject fuel res pos

/-- The loop of `parse_array`. -/
def parseArray : ℕ → Json δ → ℕ → ℕ → Parser (Json δ × ℕ)
  | 0, _, _, _ => throw .outOfFuel
  | fuel + 1, res, index, startPos => do
    if (← charAt input startPos) == ']' then pure (res, startPos + 1)
    else do
      modify fun s => { s with heads := startPos :: s.heads }
      let (value, pos) ← parseValue fuel startPos
      let res := res.setIndex index value
      if ← checkExceedSize input pos then pure (res, pos + 1)
      else do
        modify fun s => { s with turns := (startPos, pos) :: s.turns }
        parseArray fuel res (index + 1) pos

def parseValue : ℕ → ℕ → Parser (Json δ × ℕ)
  | 0, _ => throw .outOfFuel
  | fuel + 1, startPos =>
    parseValueWith input (parseObject fuel .null) (parseArray fuel .null 0) startPos

end

/-- `Json::parse`, with a bound on the number of nested turns. -/
def parse (fuel : ℕ) : Parser (Json δ) := do
  if input.size = 0 then pure (.ofValue .null)
  else do
    let (start, _) ← scanChar input (fun c => c == '{' || c == '[') 0
    let c ← charAt input start
    let (res, _) ←
      if c == '{' then parseObject input fuel .null (start + 1)
      else parseArray input fuel .null 0 (start + 1)
    if (← get).isValid then pure res else pure (.ofValue .null)

end Reader

end JsonParse

end OrderBookServer
