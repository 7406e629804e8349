import Mathlib.Logic.Function.Basic
import OrderBookServer.Ring
import OrderBookServer.Runs

/-!
The queue of src/core/queue. Any number of producers push items and one consumer pops
them; each of them takes one atomic step at a time, in any order.
-/
namespace OrderBookServer.MpscQueue

variable {T : Type}

/-- A null slot holds nothing. -/
structure PoolBuffer (T : Type) where
  availableItems : ℕ → Option T
  head : ℕ
  tail : ℕ
  size : ℤ

/-- Where a producer stands in `push`, by its next step. -/
inductive PushState (T : Type)
  | idle
  | loadSize (item : T)
  | moveHead (item : T)
  | store (item : T) (headIndex : ℕ)
  | raiseSize (item : T)
deriving DecidableEq

/-- The push has passed the full check and has not moved the head. -/
def PushState.hasPassed : PushState T → Bool
  | .moveHead _ => true
  | _ => false

/-- Where the consumer stands in `pop`. It begins with the load of `size`. -/
inductive PopState (T : Type)
  | idle
  | loadSlot
  | clearSlot (item : T)
  | moveTail (item : T)
  | lowerSize (item : T)
deriving DecidableEq

/-- The last three fields only record what was done: how many pushes have passed the full
check, the items in the order in which their pushes moved the head, and the items that
were returned. -/
structure State (T : Type) where
  buffer : PoolBuffer T
  producer : ℕ → PushState T
  consumer : PopState T
  passed : ℕ
  moved : List T
  popped : List T

/-- A producer calls `push` with an item that is not null, a producer takes a step, the
consumer takes a step. -/
inductive Action (T : Type)
  | call (p : ℕ) (item : T)
  | produce (p : ℕ)
  | consume

def new : State T := ⟨⟨fun _ => none, 0, 0, 0⟩, fun _ => .idle, .idle, 0, [], []⟩

namespace State

variable (s : State T)

def goOn (p : ℕ) (state : PushState T) : State T :=
  { s with producer := Function.update s.producer p state }

/-- A step of `push`. The compare-and-swap on `head` is tried until it succeeds; the rounds
before that change nothing. -/
def produce (n p : ℕ) : Option (State T) :=
  match s.producer p with
  | .idle => none
  | .loadSize item =>
    -- `Queue is full` is thrown.
    if s.buffer.size = n then some (s.goOn p .idle)
    else some { s.goOn p (.moveHead item) with passed := s.passed + 1 }
  | .moveHead item =>
    some { s.goOn p (.store item s.buffer.head) with
      buffer := { s.buffer with head := (s.buffer.head + 1) % n }
      moved := s.moved ++ [item] }
  | .store item headIndex =>
    some { s.goOn p (.raiseSize item) with
      buffer := { s.buffer with
        availableItems := Function.update s.buffer.availableItems headIndex (some item) } }
  | .raiseSize _ =>
    some { s.goOn p .idle with buffer := { s.buffer with size := s.buffer.size + 1 } }

/-- A step of `pop`, which returns `nullptr` where it goes back to the start without an item. -/
def consume (n : ℕ) : State T :=
  match s.consumer with
  | .idle => if s.buffer.size = 0 then s else { s with consumer := .loadSlot }
  | .loadSlot =>
    match s.buffer.availableItems s.buffer.tail with
    | none => { s with consumer := .idle }
    | some item => { s with consumer := .clearSlot item }
  | .clearSlot item =>
    { s with
      consumer := .moveTail item
      buffer := { s.buffer with
        availableItems := Function.update s.buffer.availableItems s.buffer.tail none } }
  | .moveTail item =>
    { s with
      consumer := .lowerSize item
      buffer := { s.buffer with tail := (s.buffer.tail + 1) % n } }
  | .lowerSize item =>
    { s with
      consumer := .idle
      buffer := { s.buffer with size := s.buffer.size - 1 }
      popped := s.popped ++ [item] }

def step (n : ℕ) : Action T → Option (State T)
  | .call p item =>
    match s.producer p with
    | .idle => some (s.goOn p (.loadSize item))
    | _ => none
  | .produce p => s.produce n p
  | .consume => some (s.consume n)

/-- The next step of the consumer returns `nullptr`. -/
def ReturnsNull : Prop :=
  s.consumer = .idle ∧ s.buffer.size = 0 ∨
    s.consumer = .loadSlot ∧ s.buffer.availableItems s.buffer.tail = none

/-- How many items have been taken out of their slots. -/
def cleared : ℕ :=
  match s.consumer with
  | .moveTail _ => s.popped.length + 1
  | .lowerSize _ => s.popped.length + 1
  | _ => s.popped.length

/-- How many slots the consumer has passed. -/
def leftBehind : ℕ :=
  match s.consumer with
  | .lowerSize _ => s.popped.length + 1
  | _ => s.popped.length

/-- The item that the consumer is about to return. -/
def inHand : Option T :=
  match s.consumer with
  | .clearSlot item => some item
  | .moveTail item => some item
  | .lowerSize item => some item
  | _ => none

/-- A producer that moves the head finds a slot that is not in use, nor promised. -/
def HasRoom (n : ℕ) : Action T → Prop
  | .produce p => (s.producer p).hasPassed = true → s.moved.length < s.cleared + n
  | _ => True

instance (n : ℕ) (a : Action T) : Decidable (s.HasRoom n a) :=
  match a with
  | .produce _ => inferInstanceAs (Decidable (_ → _))
  | .call _ _ => instDecidableTrue
  | .consume => instDecidableTrue

end State

section Moves

variable {n : ℕ} {s s' : State T} {a : Action T}

/-- What a step with room can do. -/
inductive Move (n : ℕ) (s : State T) : State T → Prop
  | call {p : ℕ} {item : T} (hp : s.producer p = .idle) : Move n s (s.goOn p (.loadSize item))
  | refuse {p : ℕ} {item : T} (hp : s.producer p = .loadSize item) (hsize : s.buffer.size = n) :
      Move n s (s.goOn p .idle)
  | pass {p : ℕ} {item : T} (hp : s.producer p = .loadSize item) :
      Move n s { s.goOn p (.moveHead item) with passed := s.passed + 1 }
  | moveHead {p : ℕ} {item : T} (hp : s.producer p = .moveHead item)
      (hroom : s.moved.length < s.cleared + n) :
      Move n s { s.goOn p (.store item s.buffer.head) with
        buffer := { s.buffer with head := (s.buffer.head + 1) % n }
        moved := s.moved ++ [item] }
  | store {p headIndex : ℕ} {item : T} (hp : s.producer p = .store item headIndex) :
      Move n s { s.goOn p (.raiseSize item) with
        buffer := { s.buffer with
          availableItems := Function.update s.buffer.availableItems headIndex (some item) } }
  | raiseSize {p : ℕ} {item : T} (hp : s.producer p = .raiseSize item) :
      Move n s { s.goOn p .idle with buffer := { s.buffer with size := s.buffer.size + 1 } }
  | findEmpty (hc : s.consumer = .idle) : Move n s s
  | loadSize (hc : s.consumer = .idle) (hsize : s.buffer.size ≠ 0) :
      Move n s { s with consumer := .loadSlot }
  | findNull (hc : s.consumer = .loadSlot)
      (hslot : s.buffer.availableItems s.buffer.tail = none) : Move n s { s with consumer := .idle }
  | loadSlot {item : T} (hc : s.consumer = .loadSlot)
      (hslot : s.buffer.availableItems s.buffer.tail = some item) :
      Move n s { s with consumer := .clearSlot item }
  | clearSlot {item : T} (hc : s.consumer = .clearSlot item) :
      Move n s { s with
        consumer := .moveTail item
        buffer := { s.buffer with
          availableItems := Function.update s.buffer.availableItems s.buffer.tail none } }
  | moveTail {item : T} (hc : s.consumer = .moveTail item) :
      Move n s { s with
        consumer := .lowerSize item
        buffer := { s.buffer with tail := (s.buffer.tail + 1) % n } }
  | lowerSize {item : T} (hc : s.consumer = .lowerSize item) :
      Move n s { s with
        consumer := .idle
        buffer := { s.buffer with size := s.buffer.size - 1 }
        popped := s.popped ++ [item] }

theorem move_of_step (hroom : s.HasRoom n a) (h : s.step n a = some s') : Move n s s' := by
  cases a with
  | call p item =>
    unfold State.step at h
    cases hp : s.producer p with
    | idle =>
      simp only [hp] at h
      cases h
      exact .call hp
    | loadSize item' => simp [hp] at h
    | moveHead item' => simp [hp] at h
    | store item' headIndex => simp [hp] at h
    | raiseSize item' => simp [hp] at h
  | produce p =>
    change s.produce n p = some s' at h
    unfold State.produce at h
    cases hp : s.producer p with
    | idle => simp [hp] at h
    | loadSize item =>
      simp only [hp] at h
      by_cases hsize : s.buffer.size = n
      · rw [if_pos hsize] at h
        cases h
        exact .refuse hp hsize
      · rw [if_neg hsize] at h
        cases h
        exact .pass hp
    | moveHead item =>
      simp only [hp] at h
      cases h
      exact .moveHead hp (hroom (by rw [hp, PushState.hasPassed]))
    | store item headIndex =>
      simp only [hp] at h
      cases h
      exact .store hp
    | raiseSize item =>
      simp only [hp] at h
      cases h
      exact .raiseSize hp
  | consume =>
    change some (s.consume n) = some s' at h
    cases h
    unfold State.consume
    cases hc : s.consumer with
    | idle =>
      by_cases hsize : s.buffer.size = 0
      · simp only [hsize, if_true]
        exact .findEmpty hc
      · simp only [hsize, if_false]
        exact .loadSize hc hsize
    | loadSlot =>
      cases hslot : s.buffer.availableItems s.buffer.tail with
      | none => exact .findNull hc hslot
      | some item => exact .loadSlot hc hslot
    | clearSlot item => exact .clearSlot hc
    | moveTail item => exact .moveTail hc
    | lowerSize item => exact .lowerSize hc

end Moves

end OrderBookServer.MpscQueue
