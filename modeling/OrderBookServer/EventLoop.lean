import Mathlib.Data.List.Basic
import Mathlib.Logic.Function.Basic
import OrderBookServer.Coroutine

/-!
The tasks and the event loops of src/core/coroutine. Every loop is a thread that takes ready tasks
and resumes them: `EventBase` in the order of its queue, `EpollBase` in any order. Each statement
of a coroutine is one step, and the steps of different loops come in any order. The owner of a task
that was started on a loop drops it in two steps, at any time: it reads whether the task is done,
and acts on what it has read. The bounds of the pool and of the queue are left out.
-/
namespace OrderBookServer.EventLoop

open Coroutine

variable {L A V : Type}

/-- Where a coroutine stands: it runs, or it is suspended before its first statement, in a
`co_await` of a task or of a future, or behind its last statement. -/
inductive Point (L A V : Type)
  | running (code : Coroutine L A V)
  | initial (code : Coroutine L A V)
  | onTask (task : ℕ) (next : V → Coroutine L A V)
  | onFuture (future : ℕ) (next : V → Coroutine L A V)
  | done (v : V)

def Point.isDone : Point L A V → Bool
  | .done _ => true
  | _ => false

/-- A coroutine with its promise and its `TaskInfo`. `root` is the started task for which it was
called. -/
structure Promise (L A V : Type) where
  point : Point L A V
  suspendingPromise : Option ℕ
  eventBase : L
  isTaskRelease : Bool
  root : ℕ

/-- A future that a coroutine is suspended on. -/
structure FutureValue (V : Type) where
  value : Option V
  suspendingPromise : ℕ

/-- What the owner of a started task is about to do: it has dropped the task, or still holds it, or
has found in `destroy(false)` that the task is not done, or that it is. -/
inductive Owner
  | gone
  | holds
  | marks
  | removes
deriving DecidableEq

/-- Coroutines and futures go by their numbers and are there until they are destroyed. `ready` has
the coroutines that were set ready, and `lost` those of them that got into no queue: their loop is
an `EpollBase` that was `exhausted`, where `eventfd` fails. `current` is the coroutine that a loop
has resumed. `roots` are the started tasks, and the log has what each of them and the coroutines
that it called have done. -/
structure State (L A V : Type) where
  promises : ℕ → Option (Promise L A V)
  futures : ℕ → Option (FutureValue V)
  ready : L → List ℕ
  lost : List ℕ
  exhausted : L → Bool
  owner : ℕ → Owner
  current : L → Option ℕ
  promiseValue : ℕ → Option V
  roots : ℕ → Option (Coroutine L A V)
  log : List (ℕ × Event L A V)
  destroyed : List ℕ
  nextPromise : ℕ
  nextFuture : ℕ

/-- A coroutine is used that is destroyed, is resumed without the result that it waits for, or is
resumed while it runs. -/
inductive Fault
  | destroyed
  | noResult
  | running
deriving DecidableEq

/-- A task is started from outside the loops, a future is set, the process runs out of descriptors
or has some again, an owner reads whether its task is done, and acts on that, a loop takes a ready
task, a loop goes on with the coroutine that it has resumed. -/
inductive Action (L A V : Type)
  | startRunningOn (loop : L) (task : Coroutine L A V)
  | setValue (future : ℕ) (v : V)
  | exhaust (exhausted : L → Bool)
  | drop (i : ℕ)
  | finishDrop (i : ℕ)
  | checkHandle (loop : L) (i : ℕ)
  | advance (loop : L)

def init : State L A V where
  promises _ := none
  futures _ := none
  ready _ := []
  lost := []
  exhausted _ := false
  owner _ := .gone
  current _ := none
  promiseValue _ := none
  roots _ := none
  log := []
  destroyed := []
  nextPromise := 0
  nextFuture := 0

namespace State

variable (s : State L A V)

def find (i : ℕ) : Except Fault (Promise L A V) :=
  match s.promises i with
  | some promise => pure promise
  | none => throw .destroyed

def setPoint (i : ℕ) (promise : Promise L A V) (point : Point L A V) : State L A V :=
  { s with promises := Function.update s.promises i (some { promise with point := point }) }

def emit (root : ℕ) (event : Event L A V) : State L A V :=
  { s with log := s.log ++ [(root, event)] }

/-- `TaskInfoPool::release`, which destroys the frame. -/
def removeFromEventBase (i : ℕ) : Except Fault (State L A V) := do
  let _ ← s.find i
  return { s with
    promises := Function.update s.promises i none
    destroyed := s.destroyed ++ [i] }

/-- `BaseTask::destroy(false)` on the loop of the task: nothing comes in between. -/
def destroy (i : ℕ) : Except Fault (State L A V) := do
  let promise ← s.find i
  match promise.point with
  | .done _ => s.removeFromEventBase i
  | _ => return { s with
      promises := Function.update s.promises i (some { promise with isTaskRelease := true }) }

/-- `handle.done()` in the `destroy(false)` of the owner of a started task. -/
def drop (i : ℕ) : Except Fault (Option (State L A V)) :=
  match s.owner i with
  | .holds => do
    let promise ← s.find i
    let found := if promise.point.isDone then Owner.removes else Owner.marks
    return some { s with owner := Function.update s.owner i found }
  | _ => return none

/-- What `destroy(false)` does then. -/
def finishDrop (i : ℕ) : Except Fault (Option (State L A V)) :=
  match s.owner i with
  | .marks => do
    let promise ← s.find i
    return some { s with
      promises := Function.update s.promises i (some { promise with isTaskRelease := true })
      owner := Function.update s.owner i .gone }
  | .removes => do
    let s ← s.removeFromEventBase i
    return some { s with owner := Function.update s.owner i .gone }
  | _ => return none

/-- The wake-ups that are lost, with the one of a coroutine that is set ready now. -/
def lostWith (loop : L) (i : ℕ) : List ℕ := if s.exhausted loop then s.lost ++ [i] else s.lost

/-- What the log has of a started task. -/
def logOf (root : ℕ) : List (Event L A V) :=
  (s.log.filter fun entry => entry.1 = root).map Prod.snd

variable [DecidableEq L]

/-- `set_ready_task` on the loop of the coroutine. An `EpollBase` without a descriptor for it logs
that and returns. -/
def setReadyTask (i : ℕ) : Except Fault (State L A V) := do
  let promise ← s.find i
  let loop := promise.eventBase
  return { s with
    ready := Function.update s.ready loop (s.ready loop ++ [i])
    lost := s.lostWith loop i }

/-- `register_on` of a coroutine that was just created. -/
def registerOn (loop : L) (task : Coroutine L A V) (suspendingPromise : Option ℕ) (root : ℕ) :
    State L A V :=
  { s with
    promises := Function.update s.promises s.nextPromise
      (some ⟨.initial task, suspendingPromise, loop, false, root⟩)
    ready := Function.update s.ready loop (s.ready loop ++ [s.nextPromise])
    lost := s.lostWith loop s.nextPromise
    nextPromise := s.nextPromise + 1 }

/-- `start_running_on`, by an owner that holds the task then. -/
def startRunningOn (loop : L) (task : Coroutine L A V) : State L A V :=
  { s.registerOn loop task none s.nextPromise with
    owner := Function.update s.owner s.nextPromise .holds
    roots := Function.update s.roots s.nextPromise (some task) }

/-- `set_value` of a future that is there: it does nothing if the future is set. -/
def setValue (future : ℕ) (v : V) : Except Fault (Option (State L A V)) :=
  match s.futures future with
  | none => return none
  | some ⟨some _, _⟩ => return some s
  | some ⟨none, i⟩ =>
    some <$> { s with
      futures := Function.update s.futures future (some ⟨some v, i⟩) }.setReadyTask i

def resume (loop : L) (i : ℕ) (promise : Promise L A V) (code : Coroutine L A V) : State L A V :=
  { s.setPoint i promise (.running code) with current := Function.update s.current loop (some i) }

/-- `await_resume` of what the coroutine is suspended on, up to its next statement. -/
def awaitResume (loop : L) (i : ℕ) (promise : Promise L A V) : Except Fault (State L A V) :=
  match promise.point with
  | .done _ => return s
  | .running _ => throw .running
  | .initial code => return s.resume loop i promise code
  | .onTask task next => do
    let awaited ← s.find task
    match awaited.point with
    | .done v => do
      -- The awaited task is a temporary of the `co_await` expression.
      let s ← s.destroy task
      return s.resume loop i promise (next v)
    | _ => throw .noResult
  | .onFuture future next =>
    match s.futures future with
    | some ⟨some v, _⟩ =>
      let s := { s.emit promise.root (.received v) with
        futures := Function.update s.futures future none }
      return s.resume loop i promise (next v)
    | _ => throw .noResult

/-- The loop takes a ready task and resumes it if it is not done. -/
def checkHandle (loop : L) (i : ℕ) : Except Fault (Option (State L A V)) :=
  if s.current loop = none ∧ i ∈ s.ready loop ∧ i ∉ s.lost then do
    let promise ← s.find i
    some <$> { s with
      ready := Function.update s.ready loop ((s.ready loop).erase i) }.awaitResume loop i promise
  else return none

/-- `return_value` and `final_suspend`. -/
def coReturn (i : ℕ) (promise : Promise L A V) (v : V) : Except Fault (State L A V) :=
  let s := { s.setPoint i promise (.done v) with
    promiseValue := Function.update s.promiseValue i (some v) }
  match promise.suspendingPromise with
  | none => return s
  | some j => s.setReadyTask j

/-- The next statement of the coroutine that the loop has resumed. Behind the last one the loop
finds it done and checks whether to remove it. -/
def statement (loop : L) (i : ℕ) (promise : Promise L A V) : Except Fault (State L A V) :=
  let suspended := Function.update s.current loop none
  match promise.point with
  | .running (.coReturn v) => s.coReturn i promise v
  | .running (.act a next) =>
    return (s.emit promise.root (.did a)).setPoint i promise (.running next)
  | .running (.startRunningOn l task next) =>
    let s := (s.emit promise.root (.started l task)).setPoint i promise (.running next)
    return s.startRunningOn l task
  | .running (.awaitTask task next) =>
    let s := { s.setPoint i promise (.onTask s.nextPromise next) with current := suspended }
    return s.registerOn promise.eventBase task (some i) promise.root
  | .running (.awaitFuture next) =>
    return { s.setPoint i promise (.onFuture s.nextFuture next) with
      futures := Function.update s.futures s.nextFuture (some ⟨none, i⟩)
      nextFuture := s.nextFuture + 1
      current := suspended }
  | .done _ =>
    let s := { s with current := suspended }
    if promise.isTaskRelease then s.removeFromEventBase i else return s
  | _ => throw .running

def advance (loop : L) : Except Fault (Option (State L A V)) :=
  match s.current loop with
  | none => return none
  | some i => do
    let promise ← s.find i
    some <$> s.statement loop i promise

def step : Action L A V → Except Fault (Option (State L A V))
  | .startRunningOn loop task => return some (s.startRunningOn loop task)
  | .setValue future v => s.setValue future v
  | .exhaust exhausted => return some { s with exhausted }
  | .drop i => s.drop i
  | .finishDrop i => s.finishDrop i
  | .checkHandle loop i => s.checkHandle loop i
  | .advance loop => s.advance loop

/-- The owner of a task that is done does not drop it before the loop has looked at the flag, and
the loop looks at the flag when no owner is about to write it. -/
def InOrder : Action L A V → Prop
  | .drop i => ∀ promise ∈ s.promises i, promise.point.isDone = true →
    s.current promise.eventBase ≠ some i
  | .advance loop => ∀ i ∈ s.current loop, ∀ promise ∈ s.promises i,
    promise.point.isDone = true → s.owner i ≠ .marks
  | _ => True

instance (a : Action L A V) : Decidable (s.InOrder a) :=
  match a with
  | .startRunningOn _ _ => .isTrue trivial
  | .setValue _ _ => .isTrue trivial
  | .exhaust _ => .isTrue trivial
  | .drop i => inferInstanceAs (Decidable (∀ promise ∈ s.promises i, promise.point.isDone = true →
      s.current promise.eventBase ≠ some i))
  | .finishDrop _ => .isTrue trivial
  | .checkHandle _ _ => .isTrue trivial
  | .advance loop => inferInstanceAs (Decidable (∀ i ∈ s.current loop, ∀ promise ∈ s.promises i,
      promise.point.isDone = true → s.owner i ≠ .marks))

/-- The state after a step that is taken. -/
def next (a : Action L A V) : Option (State L A V) :=
  match s.step a with
  | .ok s' => s'
  | .error _ => none

end State

/-- What is left of a coroutine that does not await a task. -/
def Point.code : Point L A V → Option (Coroutine L A V)
  | .running code => some code
  | .initial code => some code
  | .onTask _ _ => none
  | .onFuture _ next => some (.awaitFuture next)
  | .done v => some (.coReturn v)

/-- What is left of a coroutine with what it awaits: the code of the innermost one and the
continuations of the others. -/
inductive Remains (s : State L A V) : ℕ → Coroutine L A V → List (V → Coroutine L A V) → Prop
  | here {i : ℕ} {promise : Promise L A V} {code : Coroutine L A V}
      (hi : s.promises i = some promise) (hcode : promise.point.code = some code) :
      Remains s i code []
  | onTask {i task : ℕ} {promise : Promise L A V} {next : V → Coroutine L A V}
      {code : Coroutine L A V} {stack : List (V → Coroutine L A V)}
      (hi : s.promises i = some promise) (hpoint : promise.point = .onTask task next)
      (h : Remains s task code stack) : Remains s i code (stack ++ [next])

end OrderBookServer.EventLoop
