import OrderBookServer.CachePool
import OrderBookServer.StdString

/-!
Shared strings: a `ShareString` is a window of the text of a pooled `StringReference`, which counts
the strings that refer to it. Positions are those of `size_t` and the count is a `uint32_t`; both
wrap around.
-/
namespace OrderBookServer

open StdString

def maxStringNum : ℕ := 1000000

structure StringReference where
  data : Text
  count : UInt32
deriving DecidableEq, Repr

/-- A `StringReference` has neither `init` nor `clear`. -/
instance : Pooled StringReference where

namespace StringReference

def retain (r : StringReference) : StringReference := { r with count := r.count + 1 }

/-- The old count and the object with one reference less. -/
def release (r : StringReference) : UInt32 × StringReference :=
  (r.count, { r with count := r.count - 1 })

end StringReference

abbrev StringPool := PoolBuffer StringReference

structure ShareString where
  stringReference : Option ℕ
  startIndex : UInt64
  length : UInt64
deriving DecidableEq, Repr

namespace ShareString

/-- `data()` of a string that refers to the text `data`. -/
def view (s : ShareString) (data : Text) : Except Failure Text :=
  substr data s.startIndex.toNat s.length.toNat

/-- The string that `from_substr` returns, whose copying is an effect on the pool. -/
def fromSubstr (s : ShareString) (startIndex length : UInt64) : Except Failure ShareString :=
  if startIndex + length ≤ s.length then
    .ok { s with startIndex := s.startIndex + startIndex, length := length }
  else .error .outOfRange

def fromSubstrWithEnd (s : ShareString) (startIndex endIndex : UInt64) :
    Except Failure ShareString :=
  if startIndex < s.length ∧ endIndex ≤ s.length ∧ startIndex < endIndex then
    -- the end index is included
    .ok { s with
      startIndex := s.startIndex + startIndex
      length := endIndex - startIndex + 1 }
  else .error .outOfRange

end ShareString

/-- The pool and the objects of type `ShareString`, each at its address. A destroyed object leaves
its address empty. -/
structure StringHeap where
  pool : StringPool
  objects : List (Option ShareString)

namespace StringHeap

inductive Fault
  | nullPointer
  | noObject
deriving DecidableEq, Repr

def new (n : ℕ) : StringHeap := ⟨.new n ⟨[], 0⟩, []⟩

/-- The object at an address, while it lives. -/
def object (h : StringHeap) (x : ℕ) : Option ShareString := h.objects.getD x none

def get (h : StringHeap) (x : ℕ) : Except Fault ShareString :=
  match h.object x with
  | some s => .ok s
  | none => .error .noObject

def set (h : StringHeap) (x : ℕ) (s : Option ShareString) : StringHeap :=
  { h with objects := h.objects.set x s }

def add (h : StringHeap) (s : ShareString) : StringHeap :=
  { h with objects := h.objects ++ [some s] }

def write (h : StringHeap) (r : ℕ) (reference : StringReference) : StringHeap :=
  { h with pool := { h.pool with data := Function.update h.pool.data r reference } }

def data (h : StringHeap) (s : ShareString) : Except Failure Text :=
  match s.stringReference with
  | none => .ok []
  | some r => s.view (h.pool.data r).data

section Members

variable (n : ℕ) (h : StringHeap)

/-- The constructors from text: the default one has no text, the others copy or move it. -/
def construct (data : Text) : Except PoolError StringHeap := do
  let (r, pool) ← h.pool.acquire n
  let h := { h with pool }.write r { data := data, count := 1 }
  pure (h.add { stringReference := some r, startIndex := 0, length := UInt64.ofNat data.length })

def retain : Option ℕ → Except Fault StringHeap
  | none => .error .nullPointer
  | some r => .ok (h.write r (h.pool.data r).retain)

def checkReleaseCurrentData (x : ℕ) : Except Fault StringHeap := do
  let s ← h.get x
  match s.stringReference with
  | none => pure h
  | some r =>
    let (count, reference) := (h.pool.data r).release
    let h := h.write r reference
    let h := if count = 1 then { h with pool := h.pool.release n r } else h
    pure (h.set x (some { s with stringReference := none }))

/-- A new object that refers to the text of `s`. -/
def copy (s : ShareString) : Except Fault StringHeap := do
  let h ← h.retain s.stringReference
  pure (h.add s)

def copyConstruct (source : ℕ) : Except Fault StringHeap := do
  h.copy (← h.get source)

/-- The move constructor leaves its source as it is. -/
def moveConstruct (source : ℕ) : Except Fault StringHeap := do
  h.copy (← h.get source)

/-- Both assignments: the fields of the source are read after the release. -/
def assign (target source : ℕ) : Except Fault StringHeap := do
  let h ← h.checkReleaseCurrentData n target
  let s ← h.get source
  let h ← h.retain s.stringReference
  pure (h.set target (some s))

def copyAssign (target source : ℕ) : Except Fault StringHeap := h.assign n target source

def moveAssign (target source : ℕ) : Except Fault StringHeap := h.assign n target source

/-- A substring that throws makes no object. -/
def addSubstring (s : ShareString) : Except Failure ShareString → Except Fault StringHeap
  | .error _ => .ok h
  | .ok window => do
    let h ← h.retain s.stringReference
    pure (h.add window)

def fromSubstr (source : ℕ) (startIndex length : UInt64) : Except Fault StringHeap := do
  let s ← h.get source
  h.addSubstring s (s.fromSubstr startIndex length)

def fromSubstrWithEnd (source : ℕ) (startIndex endIndex : UInt64) : Except Fault StringHeap := do
  let s ← h.get source
  h.addSubstring s (s.fromSubstrWithEnd startIndex endIndex)

def destroy (x : ℕ) : Except Fault StringHeap := do
  let h ← h.checkReleaseCurrentData n x
  pure (h.set x none)

end Members

inductive Op
  | construct (data : Text)
  | copyConstruct (source : ℕ)
  | moveConstruct (source : ℕ)
  | copyAssign (target source : ℕ)
  | moveAssign (target source : ℕ)
  | fromSubstr (source : ℕ) (startIndex length : UInt64)
  | fromSubstrWithEnd (source : ℕ) (startIndex endIndex : UInt64)
  | destroy (x : ℕ)
deriving DecidableEq, Repr

/-- A constructor that throws, because the pool is empty, leaves everything as it is. -/
def step (n : ℕ) (h : StringHeap) : Op → Except Fault StringHeap
  | .construct data =>
    match h.construct n data with
    | .ok h' => .ok h'
    | .error _ => .ok h
  | .copyConstruct source => h.copyConstruct source
  | .moveConstruct source => h.moveConstruct source
  | .copyAssign target source => h.copyAssign n target source
  | .moveAssign target source => h.moveAssign n target source
  | .fromSubstr source startIndex length => h.fromSubstr source startIndex length
  | .fromSubstrWithEnd source startIndex endIndex => h.fromSubstrWithEnd source startIndex endIndex
  | .destroy x => h.destroy n x

end StringHeap

end OrderBookServer
