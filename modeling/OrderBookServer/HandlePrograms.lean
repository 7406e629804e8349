import OrderBookServer.Acyclic
import OrderBookServer.JsonTransfer
import OrderBookServer.Runs

/-!
Programs that work on the handles of src/core/json: variables are declared, assigned, indexed,
filled and destroyed. Objects come from `JsonObjectPool`, which hands out the one that has waited
longest. A handle is named by its address, also where a reference to it was kept: the elements of a
vector that grows may move, and their former addresses name nothing then.
-/
namespace OrderBookServer

/-- What ends an operation that does not come to its end: a handle that is destroyed is used, the
pool is empty and throws, or `m_value` is null and is used as a node. -/
inductive HeapFault
  | handle (fault : HandleFault)
  | exhausted
  | noNode
deriving DecidableEq, Repr

/-- Where a new member comes to stand in the traversal of a `std::unordered_map`, and how the
others are ordered then. -/
structure Traversal where
  emplace : List (Text × ℕ) → Text × ℕ → List (Text × ℕ)
  perm : ∀ members e, (emplace members e).Perm (e :: members)

/-- The handles of an object come to other addresses. -/
def JsonObject.relocate (x : JsonObject) (σ : ℕ → ℕ) : JsonObject :=
  { x with object := x.object.map fun e => (e.1, σ e.2), array := x.array.map σ }

/-- Where handles come to lie if the elements of a vector go to some places. -/
def movedTo (array : List ℕ) (place : ℕ → ℕ) (a : ℕ) : ℕ :=
  if a ∈ array then place (array.idxOf a) else a

namespace JsonGraph

variable {δ : Type}

section Operations

variable (g : JsonGraph δ)

def handleFault {α : Type} (result : Except HandleFault α) : Except HeapFault α :=
  result.mapError HeapFault.handle

/-- New handles that refer to nothing. -/
def grow (addrs : List ℕ) : JsonGraph δ :=
  { g with handles := g.handles ++ addrs.map fun a => ⟨a, .null⟩ }

/-- `Json()`. -/
def declare (a : ℕ) : JsonGraph δ := g.grow [a]

/-- `JsonObjectPool::acquire` with `init`. -/
def acquire : Except HeapFault (ℕ × JsonGraph δ) :=
  match g.pool with
  | [] => throw .exhausted
  | o :: pool => pure (o, { g.setObject o { g.objects o with referenceCount := 1 } with pool })

def checkCreateJsonObject (x : ℕ) : Except HeapFault (ℕ × JsonGraph δ) := do
  match ← handleFault (g.read x) with
  | .object o => pure (o, g)
  | _ =>
    let (o, g) ← g.acquire
    let g ← handleFault (g.write x (.object o))
    pure (o, g)

/-- `operator=(T&&)` of a scalar. A node that comes from the pool of the values has the flag that
it was left with. -/
def assignScalar (x : ℕ) (v : JsonValue δ) (left : Bool) : Except HeapFault (JsonGraph δ) := do
  match ← handleFault (g.read x) with
  | .value _ isStringFormat => handleFault (g.write x (.value v isStringFormat))
  | .null => handleFault (g.write x (.value v left))
  | .object _ =>
    let g ← handleFault (g.releaseAt x)
    handleFault (g.write x (.value v left))

/-- `Json(const Json&)`. -/
def copyConstruct (a y : ℕ) : Except HeapFault (JsonGraph δ) := do
  let source ← handleFault (g.read y)
  let (m, g) := g.getCopy source
  pure { g with handles := g.handles ++ [⟨a, m⟩] }

/-- `Json(Json&&)`. -/
def moveConstruct (a y : ℕ) : Except HeapFault (JsonGraph δ) := do
  let m ← handleFault (g.read y)
  let g : JsonGraph δ := { g with handles := g.handles ++ [⟨a, m⟩] }
  handleFault (g.write y .null)

/-- `~Json`. -/
def destroy (x : ℕ) : Except HeapFault (JsonGraph δ) := do
  let g ← handleFault (g.releaseAt x)
  pure (g.drop x)

def destroyEach : List ℕ → JsonGraph δ → Except HeapFault (JsonGraph δ)
  | [], g => pure g
  | a :: rest, g => do
    let g ← g.destroy a
    destroyEach rest g

/-- Handles are moved to other addresses. A handle that is moved leaves a null behind, and there is
nothing to release where that is destroyed. -/
def relocate (σ : ℕ → ℕ) : JsonGraph δ :=
  { g with
    handles := g.handles.map fun h => { h with addr := σ h.addr }
    objects := fun o => (g.objects o).relocate σ }

/-- `m_array.resize`: what is cut off is destroyed. A vector that grows has its elements at `place`
then, where it moved them or had room for more; what is new refers to nothing. -/
def resize (o size : ℕ) (place : ℕ → ℕ) : Except HeapFault (JsonGraph δ) :=
  let array := (g.objects o).array
  if array.length < size then
    let new := (List.range' array.length (size - array.length)).map place
    let g := (g.relocate (movedTo array place)).grow new
    pure (g.setObject o { g.objects o with array := (g.objects o).array ++ new })
  else
    destroyEach (array.drop size) (g.setObject o { g.objects o with array := array.take size })

/-- `m_is_array = ...` -/
def setIsArray (o : ℕ) (isArray : Bool) : JsonGraph δ :=
  g.setObject o { g.objects o with isArray }

/-- `operator[](const std::string&)`, which hands over `key.c_str()`; the handle that it returns a
reference to. -/
def atKey (t : Traversal) (x : ℕ) (key : Text) (a : ℕ) : Except HeapFault (ℕ × JsonGraph δ) := do
  let key := key.takeWhile fun c => c ≠ '\x00'
  let (o, g) ← g.checkCreateJsonObject x
  let g := g.setIsArray o false
  match (g.objects o).object.lookup key with
  | some c => pure (c, g)
  | none =>
    let node := g.objects o
    pure (a, (g.declare a).setObject o { node with object := t.emplace node.object (key, a) })

/-- `operator[](size_t)`. -/
def atIndex (x i : ℕ) (place : ℕ → ℕ) : Except HeapFault (ℕ × JsonGraph δ) := do
  let (o, g) ← g.checkCreateJsonObject x
  let g := g.setIsArray o true
  let g ← if (g.objects o).array.length ≤ i then g.resize o (i + 1) place else pure g
  pure ((g.objects o).array.getD i 0, g)

def setSize (x size : ℕ) (place : ℕ → ℕ) : Except HeapFault (JsonGraph δ) := do
  let (o, g) ← g.checkCreateJsonObject x
  (g.setIsArray o true).resize o size place

/-- `m_array.reserve`. -/
def setCapacity (x : ℕ) (place : ℕ → ℕ) : Except HeapFault (JsonGraph δ) := do
  let (o, g) ← g.checkCreateJsonObject x
  let g := g.setIsArray o true
  pure (g.relocate (movedTo (g.objects o).array place))

/-- `std::reverse` moves the elements to each other's places. -/
def reverse (x : ℕ) : Except HeapFault (JsonGraph δ) := do
  let (o, g) ← g.checkCreateJsonObject x
  let g := g.setIsArray o true
  let array := (g.objects o).array
  let g := g.relocate (movedTo array fun i => array.getD (array.length - 1 - i) 0)
  pure (g.setObject o { g.objects o with array := (g.objects o).array.reverse })

/-- `m_array.push_back`, which makes the copy before it moves the other elements. -/
def pushBack (x y : ℕ) (place : ℕ → ℕ) : Except HeapFault (JsonGraph δ) := do
  let (o, g) ← g.checkCreateJsonObject x
  let g := g.setIsArray o true
  let array := (g.objects o).array
  let g ← g.copyConstruct (place array.length) y
  let g := g.relocate (movedTo array place)
  pure (g.setObject o { g.objects o with
    array := (g.objects o).array ++ [place array.length] })

/-- `remove_field`, which does not ask whether there is a node. -/
def removeField (x : ℕ) (key : Text) : Except HeapFault (JsonGraph δ) := do
  match ← handleFault (g.read x) with
  | .null => throw .noNode
  | .value _ _ => pure g
  | .object o =>
    let node := g.objects o
    let members := node.object.filter fun e => e.1 ≠ key
    destroyEach (node.object.lookup key).toList
      (g.setObject o { node with isArray := false, object := members })

end Operations

/-- What a program does with its handles. New handles come with the addresses that they get, and an
array that may grow with the places of its elements. -/
inductive Operation (δ : Type)
  | declare (a : ℕ)
  | copyConstruct (a y : ℕ)
  | moveConstruct (a y : ℕ)
  | scalarConstruct (a : ℕ) (v : JsonValue δ) (left : Bool)
  | copyAssign (x y : ℕ)
  | moveAssign (x y : ℕ)
  | assignScalar (x : ℕ) (v : JsonValue δ) (left : Bool)
  | atKey (x : ℕ) (key : Text) (a : ℕ)
  | atIndex (x i : ℕ) (place : ℕ → ℕ)
  | pushBack (x y : ℕ) (place : ℕ → ℕ)
  | removeField (x : ℕ) (key : Text)
  | setSize (x size : ℕ) (place : ℕ → ℕ)
  | setCapacity (x : ℕ) (place : ℕ → ℕ)
  | reverse (x : ℕ)
  | destroy (x : ℕ)

def perform (t : Traversal) (g : JsonGraph δ) : Operation δ → Except HeapFault (JsonGraph δ)
  | .declare a => pure (g.declare a)
  | .copyConstruct a y => g.copyConstruct a y
  | .moveConstruct a y => g.moveConstruct a y
  | .scalarConstruct a v left => (g.declare a).assignScalar a v left
  | .copyAssign x y => handleFault (g.copyAssign x y)
  | .moveAssign x y => handleFault (g.moveAssign x y)
  | .assignScalar x v left => g.assignScalar x v left
  | .atKey x key a => (g.atKey t x key a).map Prod.snd
  | .atIndex x i place => (g.atIndex x i place).map Prod.snd
  | .pushBack x y place => g.pushBack x y place
  | .removeField x key => g.removeField x key
  | .setSize x size place => g.setSize x size place
  | .setCapacity x place => g.setCapacity x place
  | .reverse x => g.reverse x
  | .destroy x => g.destroy x

/-- The heap of a program that has declared nothing: all objects are in the pool. -/
def new (size : ℕ) : JsonGraph δ where
  handles := []
  objects := fun _ => { referenceCount := 0, isArray := false, object := [], array := [] }
  pool := List.range size

section Permitted

variable (g : JsonGraph δ)

def Live (a : ℕ) : Prop := a ∈ g.handles.map Handle.addr

/-- A live handle that lies in no container: a variable, or a temporary. -/
def Variable (a : ℕ) : Prop := g.Live a ∧ ∀ o, a ∉ (g.objects o).children

/-- The elements of the vector of what a handle refers to. -/
def elements (x : ℕ) : List ℕ :=
  match g.find x with
  | some (.object o) => (g.objects o).array
  | _ => []

/-- The places of the elements of a vector differ, and only an element that stays lies in one of
them. -/
def Vacant (x : ℕ) (place : ℕ → ℕ) : Prop :=
  Function.Injective place ∧ ∀ i, g.Live (place i) → (g.elements x)[i]? = some (place i)

/-- The first object has a handle of the second one. -/
def Holds (p o : ℕ) : Prop := ∃ c ∈ (g.objects p).children, g.find c = some (.object o)

/-- The handle lies in an object that can be got at from `o`. -/
def Within (o x : ℕ) : Prop :=
  ∃ p, Relation.ReflTransGen g.Holds o p ∧ x ∈ (g.objects p).children

/-- What a program has to keep to: the handles that it names are there, those that it makes are new
and no more than a count can count, what it assigns is not kept by the target alone, and no object
is put into what can be got at from it. -/
def Permitted : Operation δ → Prop
  | .declare a => ¬ g.Live a
  | .copyConstruct a y => ¬ g.Live a ∧ g.Live y ∧ g.handles.length + 1 < 4294967296
  | .moveConstruct a y => ¬ g.Live a ∧ g.Live y
  | .scalarConstruct a _ _ => ¬ g.Live a
  | .copyAssign x y =>
    g.Live x ∧ g.Live y ∧ g.handles.length < 4294967296 ∧ (x ≠ y → g.Outlives x y ∧
      ∀ o, g.find y = some (.object o) → ¬ g.Within o x)
  | .moveAssign x y =>
    g.Live x ∧ g.Live y ∧ (x ≠ y → g.Outlives x y ∧
      ∀ o, g.find y = some (.object o) → ¬ g.Within o x)
  | .assignScalar x _ _ => g.Live x
  | .atKey x _ a => g.Live x ∧ ¬ g.Live a
  | .atIndex x _ place => g.Live x ∧ g.Vacant x place
  | .pushBack x y place =>
    g.Live x ∧ g.Live y ∧ g.Vacant x place ∧ g.handles.length + 1 < 4294967296 ∧ x ≠ y ∧
      ∀ o, g.find y = some (.object o) → ¬ g.Within o x ∧
        ∀ p, g.find x = some (.object p) → ¬ Relation.ReflTransGen g.Holds o p
  | .removeField x _ => g.Live x ∧ g.find x ≠ some .null
  | .setSize x _ place => g.Live x ∧ g.Vacant x place
  | .setCapacity x place => g.Live x ∧ g.Vacant x place
  | .reverse x => g.Live x
  | .destroy x => g.Variable x

end Permitted

end JsonGraph

end OrderBookServer
