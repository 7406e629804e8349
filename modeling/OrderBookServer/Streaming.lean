import Mathlib.Logic.Function.Basic
import OrderBookServer.DbnWrapper
import OrderBookServer.Runs

/-!
The requests that start and stop a stream, and the streams. Handlers run on the I/O loop and
streams on the GATEWAY loop, each from one `co_await` to the next as one step. A request is
received when its handler is registered on the I/O loop, and answered when the handler is done.
-/
namespace OrderBookServer.Streaming

variable {M : Type}

/-- A coroutine that is registered on the I/O loop: a handler from its start, `stop_streaming`
from its start, `stop_streaming` once its future is set, a handler once `stop_streaming` is
done. -/
inductive IoTask
  | handle (r : Request)
  | stopStreaming (r : Request)
  | stopped (r : Request)
  | goOn (r : Request)
deriving DecidableEq

/-- A coroutine that is registered on the GATEWAY loop. A stream that has slept has the record
of number `n` in hand. -/
inductive GatewayTask
  | startStreaming (hasSpeed : Bool)
  | startStreamData (g : ℕ)
  | resume (g n : ℕ)
deriving DecidableEq

/-- `initialize` makes the wrapper and the book of the next number, and destroys those before;
`count` tells how many it has made. A book goes by what was applied to it, where `none` stands
for the use of a record that was no longer valid. The last two fields only record what was
done: how many streams have begun to read each store, and whether a stop request was answered
after the last start request was received. -/
structure State (M : Type) where
  io : List IoTask
  gateway : List GatewayTask
  sleeping : List (ℕ × ℕ)
  count : ℕ
  wrapper : ℕ → DbnWrapper
  book : ℕ → List (Option M)
  begun : ℕ → ℕ
  isQuiet : Bool

/-- A request is received, a loop runs the next of its tasks, a timer fires. -/
inductive Action
  | receive (r : Request)
  | io
  | gateway
  | fire (i : ℕ)

def init : State M :=
  ⟨[], [], [], 0, fun _ => .new, fun _ => [], fun _ => 0, false⟩

namespace State

variable (file : DbnFile M) (s : State M)

/-- `m_dbn_wrapper` is there and streams. -/
def getIsStreaming : Bool :=
  match s.count with
  | 0 => false
  | g + 1 => (s.wrapper g).isStreaming

def setWrapper (g : ℕ) (w : DbnWrapper) : State M :=
  { s with wrapper := Function.update s.wrapper g w }

/-- The execute function of the future that `stop` returns. -/
def stop (r : Request) : State M :=
  match s.count with
  | 0 => s
  | g + 1 =>
    s.setWrapper g { s.wrapper g with stopFutureValue := some ⟨r, false⟩, isStreaming := false }

def initializeController : State M :=
  { s with
    count := s.count + 1
    wrapper := Function.update s.wrapper s.count .new
    book := Function.update s.book s.count [] }

def runIo : IoTask → State M
  | .handle r => { s with io := s.io ++ [.stopStreaming r] }
  | .stopStreaming r =>
    if s.getIsStreaming = true then s.stop r else { s with io := s.io ++ [.goOn r] }
  | .stopped r => { s with io := s.io ++ [.goOn r] }
  | .goOn (.start hasSpeed) =>
    { s.initializeController with gateway := s.gateway ++ [.startStreaming hasSpeed] }
  | .goOn .stop => { s with isQuiet := true }

/-- The end of `start_stream_data`. The future is set only once, and then the request that is
suspended on it is registered. -/
def finish (g : ℕ) : State M :=
  match (s.wrapper g).stopFutureValue with
  | some ⟨r, false⟩ =>
    { s.setWrapper g { s.wrapper g with
        isStreaming := false, stopFutureValue := some ⟨r, true⟩ } with
      io := s.io ++ [.stopped r] }
  | _ => s.setWrapper g { s.wrapper g with isStreaming := false }

/-- A record counts as long as its store is there and has given no other. -/
def record (g n : ℕ) : Option M :=
  if s.count = g + 1 ∧ (s.wrapper g).position = n + 1 then file.records[n]?.join else none

/-- What the store gives to a stream that is not told to stop. -/
def pass (g : ℕ) : Pass M :=
  file.readOn (s.wrapper g).hasSpeed (s.wrapper g).position
    (file.records.drop (s.wrapper g).position)

/-- The store gives the records, and they are applied to the book at once. -/
def take (g : ℕ) (pass : Pass M) : State M :=
  { s.setWrapper g { s.wrapper g with position := pass.position } with
    book := Function.update s.book g (s.book g ++
      pass.applied.map fun mbo => if s.count = g + 1 then some mbo else none) }

/-- The loop of `start_stream_data` up to its next sleep or its end. -/
def loop (g : ℕ) : State M :=
  if (s.wrapper g).isStreaming = true then
    if (s.pass file g).isAsleep = true then
      { s.take g (s.pass file g) with
        sleeping := s.sleeping ++ [(g, (s.pass file g).position - 1)] }
    else (s.take g (s.pass file g)).finish g
  else s.finish g

/-- The stream is made over the wrapper and the book that are there now. -/
def startStreaming (hasSpeed : Bool) : State M :=
  match s.count with
  | 0 => s
  | g + 1 =>
    { s.setWrapper g { s.wrapper g with hasSpeed := hasSpeed } with
      gateway := s.gateway ++ [.startStreamData g] }

def runGateway : GatewayTask → State M
  | .startStreaming hasSpeed => s.startStreaming hasSpeed
  | .startStreamData g =>
    { s.setWrapper g { s.wrapper g with isStreaming := true, stopFutureValue := none } with
      begun := Function.update s.begun g (s.begun g + 1) }.loop file g
  | .resume g n =>
    { s with book := Function.update s.book g (s.book g ++ [s.record file g n]) }.loop file g

def receive (r : Request) : State M :=
  { s with io := s.io ++ [.handle r], isQuiet := s.isQuiet && decide (r = .stop) }

def step : Action → Option (State M)
  | .receive r => some (s.receive r)
  | .io =>
    match s.io with
    | [] => none
    | task :: rest => some ({ s with io := rest }.runIo task)
  | .gateway =>
    match s.gateway with
    | [] => none
    | task :: rest => some ({ s with gateway := rest }.runGateway file task)
  | .fire i =>
    match s.sleeping[i]? with
    | none => none
    | some (g, n) =>
      some { s with
        sleeping := s.sleeping.eraseIdx i
        gateway := s.gateway ++ [.resume g n] }

/-- There is a stream over the wrapper that was made and is not over. -/
def Streams (g : ℕ) : Prop :=
  .startStreamData g ∈ s.gateway ∨ ∃ n, .resume g n ∈ s.gateway ∨ (g, n) ∈ s.sleeping

variable {file} {s} {r : Request} {g : ℕ}

theorem runIo_stopStreaming_of_streaming (h : s.getIsStreaming = true) :
    s.runIo (.stopStreaming r) = s.stop r :=
  if_pos h

theorem runIo_stopStreaming_of_not (h : ¬ s.getIsStreaming = true) :
    s.runIo (.stopStreaming r) = { s with io := s.io ++ [.goOn r] } :=
  if_neg h

/-- `stop` changes nothing but the wrapper, and that not in its position. -/
theorem exists_stop_eq (s : State M) (r : Request) : ∃ wrapper,
    s.stop r = { s with wrapper := wrapper } ∧
      ∀ k, (wrapper k).position = (s.wrapper k).position := by
  unfold stop
  split
  · exact ⟨s.wrapper, rfl, fun k => rfl⟩
  · rename_i g _
    refine ⟨_, rfl, fun k => ?_⟩
    by_cases hk : k = g
    · rw [hk, Function.update_self]
    · rw [Function.update_of_ne hk]

theorem getIsStreaming_of_count (hcount : s.count = g + 1) :
    s.getIsStreaming = (s.wrapper g).isStreaming := by
  unfold getIsStreaming
  rw [hcount]

theorem startStreaming_of_zero (hcount : s.count = 0) (hasSpeed : Bool) :
    s.startStreaming hasSpeed = s := by
  unfold startStreaming
  rw [hcount]

theorem startStreaming_of_count (hcount : s.count = g + 1) (hasSpeed : Bool) :
    s.startStreaming hasSpeed =
      { s.setWrapper g { s.wrapper g with hasSpeed := hasSpeed } with
        gateway := s.gateway ++ [.startStreamData g] } := by
  unfold startStreaming
  rw [hcount]

end State

/-- What a step can do. -/
inductive Move (file : DbnFile M) (s : State M) : Action → State M → Prop
  | receive {r : Request} : Move file s (.receive r) (s.receive r)
  | io {task : IoTask} {rest : List IoTask} (hio : s.io = task :: rest) :
      Move file s .io (({ s with io := rest } : State M).runIo task)
  | gateway {task : GatewayTask} {rest : List GatewayTask} (hgateway : s.gateway = task :: rest) :
      Move file s .gateway (({ s with gateway := rest } : State M).runGateway file task)
  | fire {i g n : ℕ} (hi : s.sleeping[i]? = some (g, n)) :
      Move file s (.fire i)
        { s with sleeping := s.sleeping.eraseIdx i, gateway := s.gateway ++ [.resume g n] }

theorem move_of_step {file : DbnFile M} {s t : State M} {a : Action} (h : s.step file a = some t) :
    Move file s a t := by
  unfold State.step at h
  cases a with
  | receive r =>
    cases h
    exact .receive
  | io =>
    cases hio : s.io with
    | nil => simp [hio] at h
    | cons task rest =>
      simp only [hio] at h
      cases h
      exact .io hio
  | gateway =>
    cases hgateway : s.gateway with
    | nil => simp [hgateway] at h
    | cons task rest =>
      simp only [hgateway] at h
      cases h
      exact .gateway hgateway
  | fire i =>
    cases hi : s.sleeping[i]? with
    | none => simp [hi] at h
    | some x =>
      simp only [hi] at h
      cases h
      exact .fire hi

/-- A file of two MBO messages, with a sleep before each. -/
def twoMbos : DbnFile Char := ⟨[some 'a', none, some 'b'], fun _ => 1⟩

end OrderBookServer.Streaming
