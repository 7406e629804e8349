import OrderBookServer.CachePool
import OrderBookServer.Runs

/-!
The pool of src/core/cache among threads. Any number of threads acquire and release objects;
each of them takes one atomic step at a time, in any order.
-/
namespace OrderBookServer.SharedPool

/-- `size` is a number without bounds here: it may be lowered below zero. -/
structure PoolBuffer (T : Type) where
  availableItems : ℕ → ℕ
  data : ℕ → T
  head : ℕ
  tail : ℕ
  size : ℤ

/-- Where a thread stands in `acquire` or `release`, by its next step. A turn only records how
many calls had moved `head`, or `tail`, before. -/
inductive ThreadState
  | idle
  | loadSize
  | moveHead
  | readSlot (headIndex turn : ℕ)
  | lowerSize (item : ℕ)
  | init (item : ℕ)
  | moveTail (item : ℕ)
  | writeSlot (item tailIndex turn : ℕ)
  | raiseSize (item turn : ℕ)
  | clear (item turn : ℕ)
deriving DecidableEq

/-- A thread holds the objects that `acquire` has returned to it and for which it has not called
`release`. The last four fields only record what was done: how many calls have moved `head` and
`tail`, the turns of the calls that have read their slots, and those of the calls of `release`
that are over. -/
structure State (T : Type) where
  buffer : PoolBuffer T
  thread : ℕ → ThreadState
  held : ℕ → List ℕ
  acquired : ℕ
  released : ℕ
  read : List ℕ
  ended : List ℕ

/-- A thread calls `acquire`, a thread calls `release` with an object that it holds, a thread
takes a step. -/
inductive Action
  | acquire (t : ℕ)
  | release (t item : ℕ)
  | go (t : ℕ)

def new {T : Type} (n : ℕ) (object : T) : State T :=
  ⟨⟨id, fun _ => object, 0, 0, n⟩, fun _ => .idle, fun _ => [], 0, 0, [], []⟩

namespace State

variable {T : Type} [Pooled T] (s : State T)

omit [Pooled T] in
def goOn (t : ℕ) (state : ThreadState) : State T :=
  { s with thread := Function.update s.thread t state }

/-- A step of `acquire` or `release`. The compare-and-swaps are tried until they succeed; the
rounds before that change nothing. -/
def go (n t : ℕ) : Option (State T) :=
  match s.thread t with
  | .idle => none
  | .loadSize =>
    -- `No available items in cache pool` is thrown.
    if s.buffer.size = 0 then some (s.goOn t .idle) else some (s.goOn t .moveHead)
  | .moveHead =>
    some { s.goOn t (.readSlot s.buffer.head s.acquired) with
      buffer := { s.buffer with head := (s.buffer.head + 1) % n }
      acquired := s.acquired + 1 }
  | .readSlot headIndex turn =>
    some { s.goOn t (.lowerSize (s.buffer.availableItems headIndex)) with
      read := s.read ++ [turn] }
  | .lowerSize item =>
    some { s.goOn t (.init item) with buffer := { s.buffer with size := s.buffer.size - 1 } }
  | .init item =>
    some { s.goOn t .idle with
      buffer := { s.buffer with
        data := Function.update s.buffer.data item (Pooled.init (s.buffer.data item)) }
      held := Function.update s.held t (s.held t ++ [item]) }
  | .moveTail item =>
    some { s.goOn t (.writeSlot item s.buffer.tail s.released) with
      buffer := { s.buffer with tail := (s.buffer.tail + 1) % n }
      released := s.released + 1 }
  | .writeSlot item tailIndex turn =>
    some { s.goOn t (.raiseSize item turn) with
      buffer := { s.buffer with
        availableItems := Function.update s.buffer.availableItems tailIndex item } }
  | .raiseSize item turn =>
    some { s.goOn t (.clear item turn) with
      buffer := { s.buffer with size := s.buffer.size + 1 } }
  | .clear item turn =>
    some { s.goOn t .idle with
      buffer := { s.buffer with
        data := Function.update s.buffer.data item (Pooled.clear (s.buffer.data item)) }
      ended := s.ended ++ [turn] }

def step (n : ℕ) : Action → Option (State T)
  | .acquire t => if s.thread t = .idle then some (s.goOn t .loadSize) else none
  | .release t item =>
    if s.thread t = .idle ∧ item ∈ s.held t then
      some { s.goOn t (.moveTail item) with
        held := Function.update s.held t ((s.held t).erase item) }
    else none
  | .go t => s.go n t

omit [Pooled T] in
/-- The slots are used in turn: one that was released to is read only when that `release` is
over, and one that was acquired from is written only when that `acquire` has read it. -/
def InTurn (n : ℕ) : Action → Prop
  | .go t =>
    match s.thread t with
    | .readSlot _ turn => turn < n ∨ turn - n ∈ s.ended
    | .writeSlot _ _ turn => turn ∈ s.read
    | _ => True
  | _ => True

omit [Pooled T] in
instance (n : ℕ) (a : Action) : Decidable (s.InTurn n a) := by
  unfold InTurn
  split
  · split
    · exact inferInstanceAs (Decidable (_ ∨ _))
    · exact inferInstanceAs (Decidable (_ ∈ _))
    · exact instDecidableTrue
  · exact instDecidableTrue

end State

section Moves

variable {T : Type} [Pooled T] {n : ℕ} {s s' : State T} {a : Action}

/-- What a step in turn can do. -/
inductive Move (n : ℕ) (s : State T) : State T → Prop
  | call {t : ℕ} (ht : s.thread t = .idle) : Move n s (s.goOn t .loadSize)
  | refuse {t : ℕ} (ht : s.thread t = .loadSize) : Move n s (s.goOn t .idle)
  | pass {t : ℕ} (ht : s.thread t = .loadSize) : Move n s (s.goOn t .moveHead)
  | moveHead {t : ℕ} (ht : s.thread t = .moveHead) :
      Move n s { s.goOn t (.readSlot s.buffer.head s.acquired) with
        buffer := { s.buffer with head := (s.buffer.head + 1) % n }
        acquired := s.acquired + 1 }
  | readSlot {t i k : ℕ} (ht : s.thread t = .readSlot i k) (hturn : k < n ∨ k - n ∈ s.ended) :
      Move n s { s.goOn t (.lowerSize (s.buffer.availableItems i)) with read := s.read ++ [k] }
  | lowerSize {t x : ℕ} (ht : s.thread t = .lowerSize x) :
      Move n s { s.goOn t (.init x) with buffer := { s.buffer with size := s.buffer.size - 1 } }
  | init {t x : ℕ} (ht : s.thread t = .init x) :
      Move n s { s.goOn t .idle with
        buffer := { s.buffer with
          data := Function.update s.buffer.data x (Pooled.init (s.buffer.data x)) }
        held := Function.update s.held t (s.held t ++ [x]) }
  | giveBack {t x : ℕ} (ht : s.thread t = .idle) (hheld : x ∈ s.held t) :
      Move n s { s.goOn t (.moveTail x) with
        held := Function.update s.held t ((s.held t).erase x) }
  | moveTail {t x : ℕ} (ht : s.thread t = .moveTail x) :
      Move n s { s.goOn t (.writeSlot x s.buffer.tail s.released) with
        buffer := { s.buffer with tail := (s.buffer.tail + 1) % n }
        released := s.released + 1 }
  | writeSlot {t x i j : ℕ} (ht : s.thread t = .writeSlot x i j) (hturn : j ∈ s.read) :
      Move n s { s.goOn t (.raiseSize x j) with
        buffer := { s.buffer with
          availableItems := Function.update s.buffer.availableItems i x } }
  | raiseSize {t x j : ℕ} (ht : s.thread t = .raiseSize x j) :
      Move n s { s.goOn t (.clear x j) with
        buffer := { s.buffer with size := s.buffer.size + 1 } }
  | clear {t x j : ℕ} (ht : s.thread t = .clear x j) :
      Move n s { s.goOn t .idle with
        buffer := { s.buffer with
          data := Function.update s.buffer.data x (Pooled.clear (s.buffer.data x)) }
        ended := s.ended ++ [j] }

theorem move_of_go {t : ℕ} (hturn : s.InTurn n (.go t)) (h : s.go n t = some s') :
    Move n s s' := by
  unfold State.go at h
  unfold State.InTurn at hturn
  cases ht : s.thread t with
  | idle => simp [ht] at h
  | loadSize =>
    simp only [ht] at h
    by_cases hsize : s.buffer.size = 0
    · rw [if_pos hsize] at h
      cases h
      exact .refuse ht
    · rw [if_neg hsize] at h
      cases h
      exact .pass ht
  | moveHead =>
    simp only [ht] at h
    cases h
    exact .moveHead ht
  | readSlot i k =>
    simp only [ht] at h hturn
    cases h
    exact .readSlot ht hturn
  | lowerSize x =>
    simp only [ht] at h
    cases h
    exact .lowerSize ht
  | init x =>
    simp only [ht] at h
    cases h
    exact .init ht
  | moveTail x =>
    simp only [ht] at h
    cases h
    exact .moveTail ht
  | writeSlot x i j =>
    simp only [ht] at h hturn
    cases h
    exact .writeSlot ht hturn
  | raiseSize x j =>
    simp only [ht] at h
    cases h
    exact .raiseSize ht
  | clear x j =>
    simp only [ht] at h
    cases h
    exact .clear ht

theorem move_of_step (hturn : s.InTurn n a) (h : s.step n a = some s') : Move n s s' := by
  cases a with
  | go t => exact move_of_go hturn h
  | acquire t =>
    unfold State.step at h
    by_cases ht : s.thread t = .idle
    · simp only [if_pos ht] at h
      cases h
      exact .call ht
    · simp [if_neg ht] at h
  | release t x =>
    unfold State.step at h
    by_cases ht : s.thread t = .idle ∧ x ∈ s.held t
    · simp only [if_pos ht] at h
      cases h
      exact .giveBack ht.1 ht.2
    · simp [if_neg ht] at h

end Moves

end OrderBookServer.SharedPool
