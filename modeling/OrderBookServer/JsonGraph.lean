import Mathlib.Data.List.Count
import Mathlib.Logic.Function.Basic
import OrderBookServer.Json
import OrderBookServer.KeyedList

/-!
The handles of src/core/json and the objects that they share. A `Json` lies at an address. It
refers to nothing, to a value of its own, or to a `JsonObject`, which counts the handles that refer
to it and holds further handles. Where the last handle of an object is released, the object goes
back to its pool and the handles in it are destroyed.
-/
namespace OrderBookServer

open KeyedList

/-- `m_value` of a handle. A `JsonValue` belongs to one handle and stands here itself; its own pool
is left out. -/
inductive MValue (δ : Type)
  | null
  | value (v : JsonValue δ) (isStringFormat : Bool)
  | object (o : ℕ)
deriving DecidableEq, Repr

structure Handle (δ : Type) where
  addr : ℕ
  mValue : MValue δ
deriving DecidableEq, Repr

/-- `m_object` has keys and the addresses of handles, in the order in which it is traversed, and
`m_array` has addresses of handles. -/
structure JsonObject where
  referenceCount : UInt32
  isArray : Bool
  object : List (Text × ℕ)
  array : List ℕ
deriving DecidableEq, Repr

/-- The handles that are not destroyed, the objects by number, and the objects that were given back
to `JsonObjectPool`. -/
structure JsonGraph (δ : Type) where
  handles : List (Handle δ)
  objects : ℕ → JsonObject
  pool : List ℕ

/-- A handle is read, written or destroyed that is destroyed already. -/
inductive HandleFault
  | destroyed
deriving DecidableEq, Repr

variable {δ : Type}

def MValue.refersTo (m : MValue δ) (o : ℕ) : Bool :=
  match m with
  | .object o' => o' == o
  | _ => false

namespace JsonObject

def children (x : JsonObject) : List ℕ := x.object.map Prod.snd ++ x.array

/-- The handles that belong to the tree: `m_is_array` says which. -/
def shown (x : JsonObject) : List ℕ := if x.isArray then x.array else x.object.map Prod.snd

def clear (x : JsonObject) : JsonObject := { x with isArray := false, object := [], array := [] }

/-- Two states of an object that differ in the count at most. -/
def Same (x y : JsonObject) : Prop :=
  x.isArray = y.isArray ∧ x.object = y.object ∧ x.array = y.array

section Contents

variable {x y z : JsonObject} {c : ℕ}

theorem Same.trans (h : x.Same y) (h' : y.Same z) : x.Same z :=
  ⟨h.1.trans h'.1, h.2.1.trans h'.2.1, h.2.2.trans h'.2.2⟩

theorem Same.children (h : x.Same y) : x.children = y.children := by
  simp [JsonObject.children, h.2.1, h.2.2]

theorem Same.shown (h : x.Same y) : x.shown = y.shown := by
  simp [JsonObject.shown, h.1, h.2.1, h.2.2]

theorem mem_children_of_shown (h : c ∈ x.shown) : c ∈ x.children := by
  unfold JsonObject.shown at h
  unfold JsonObject.children
  split at h
  · exact List.mem_append_right _ h
  · exact List.mem_append_left _ h

end Contents

end JsonObject

namespace JsonGraph

section Operations

variable (g : JsonGraph δ)

def find (a : ℕ) : Option (MValue δ) := (KeyedList.find Handle.addr g.handles a).map Handle.mValue

def read (a : ℕ) : Except HandleFault (MValue δ) :=
  match g.find a with
  | some m => pure m
  | none => throw .destroyed

def write (a : ℕ) (m : MValue δ) : Except HandleFault (JsonGraph δ) :=
  match g.find a with
  | some _ =>
    pure { g with handles := update Handle.addr g.handles a fun h => { h with mValue := m } }
  | none => throw .destroyed

def drop (a : ℕ) : JsonGraph δ := { g with handles := delete Handle.addr g.handles a }

def setObject (o : ℕ) (x : JsonObject) : JsonGraph δ :=
  { g with objects := Function.update g.objects o x }

/-- `release` of what a handle refers to, with the handles that `clear` has to destroy. -/
def release : MValue δ → JsonGraph δ × List ℕ
  | .object o =>
    let x := g.objects o
    let counted := { x with referenceCount := x.referenceCount - 1 }
    if x.referenceCount = 1 then
      ({ g.setObject o counted.clear with pool := g.pool ++ [o] }, x.children)
    else (g.setObject o counted, [])
  | _ => (g, [])

/-- `~Json` of some handles and of those that this leads to. A turn destroys a handle, so there are
no more turns than handles. -/
def destroyAll : ℕ → JsonGraph δ → List ℕ → Except HandleFault (JsonGraph δ)
  | _, g, [] => pure g
  | 0, _, _ :: _ => throw .destroyed
  | turns + 1, g, a :: rest => do
    let m ← g.read a
    let (g, dropped) := (g.drop a).release m
    destroyAll turns g (dropped ++ rest)

/-- `if (m_value) m_value->release()`, which leaves `m_value` as it is. -/
def releaseAt (x : ℕ) : Except HandleFault (JsonGraph δ) := do
  let m ← g.read x
  let (g, dropped) := g.release m
  destroyAll g.handles.length g dropped

def getCopy : MValue δ → MValue δ × JsonGraph δ
  | .object o =>
    let x := g.objects o
    (.object o, g.setObject o { x with referenceCount := x.referenceCount + 1 })
  | m => (m, g)

/-- `operator=(const Json&)`. -/
def copyAssign (x y : ℕ) : Except HandleFault (JsonGraph δ) :=
  if x = y then pure g
  else do
    let g ← g.releaseAt x
    let source ← g.read y
    let (target, g) := g.getCopy source
    g.write x target

/-- `operator=(Json&&)`. -/
def moveAssign (x y : ℕ) : Except HandleFault (JsonGraph δ) :=
  if x = y then pure g
  else do
    let g ← g.releaseAt x
    let source ← g.read y
    let g ← g.write x source
    g.write y .null

end Operations

/-- What a handle denotes, if its tree has fewer levels than `depth`. -/
def tree (g : JsonGraph δ) : ℕ → ℕ → Option (Json δ)
  | 0, _ => none
  | depth + 1, a =>
    match g.find a with
    | none => none
    | some .null => some .null
    | some (.value v isStringFormat) => some (.value v isStringFormat)
    | some (.object o) =>
      let x := g.objects o
      if x.isArray then (x.array.mapM (g.tree depth)).map .array
      else (x.object.mapM fun e => (g.tree depth e.2).map fun t => (e.1, t)).map .object

def Denotes (g : JsonGraph δ) (a : ℕ) (t : Json δ) : Prop := ∃ depth, g.tree depth a = some t

/-- How many handles refer to an object. -/
def refs (g : JsonGraph δ) (o : ℕ) : ℕ := g.handles.countP fun h => h.mValue.refersTo o

/-- Counts are numbers of handles, and the handles in objects are there, each of them once. -/
structure WellFormed (g : JsonGraph δ) : Prop where
  keys : (g.handles.map Handle.addr).Nodup
  count : ∀ o, (g.objects o).referenceCount.toNat = g.refs o
  pooled : ∀ o ∈ g.pool, g.refs o = 0
  held : ∀ o, g.refs o = 0 → (g.objects o).children = []
  live : ∀ o, ∀ c ∈ (g.objects o).children, c ∈ g.handles.map Handle.addr
  nodup : ∀ o, (g.objects o).children.Nodup
  apart : ∀ o o' c, c ∈ (g.objects o).children → c ∈ (g.objects o').children → o = o'

/-- Every handle of the object is `x` or lies in such an object: it goes when `x` is released. -/
inductive HeldOnlyBy (g : JsonGraph δ) (x : ℕ) : ℕ → Prop
  | intro {o : ℕ} (owner : Handle δ → ℕ)
      (lies : ∀ h ∈ g.handles, h.mValue.refersTo o → h.addr ≠ x →
        h.addr ∈ (g.objects (owner h)).children)
      (held : ∀ h ∈ g.handles, h.mValue.refersTo o → h.addr ≠ x → g.HeldOnlyBy x (owner h)) :
      g.HeldOnlyBy x o

/-- The handle belongs to the tree of the object. -/
inductive Inside (g : JsonGraph δ) (o : ℕ) : ℕ → Prop
  | child {a : ℕ} (ha : a ∈ (g.objects o).shown) : g.Inside o a
  | step {a b o' : ℕ} (hb : g.Inside o b) (href : g.find b = some (.object o'))
      (ha : a ∈ (g.objects o').shown) : g.Inside o a

end JsonGraph

end OrderBookServer
