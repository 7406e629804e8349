import Mathlib.Logic.Function.Basic
import OrderBookServer.Runs

/-!
The hand-shake of src/src/dbn_wrapper between the requests that stop a stream and the stream.
Each statement is one atomic step, and the steps come in any order.
-/
namespace OrderBookServer.Handshake

/-- Where a request stands in `stop_streaming`, by its next step. -/
inductive StopState
  | readFlag
  | storeFuture
  | lowerFlag
  | suspended
  | answered
deriving DecidableEq

/-- The request has not stored its future, and may. -/
def StopState.isFresh : StopState → Bool
  | .readFlag => true
  | .storeFuture => true
  | _ => false

/-- The request has stored its future and waits for it, or is about to. -/
def StopState.isWaiting : StopState → Bool
  | .lowerFlag => true
  | .suspended => true
  | _ => false

/-- Where the stream stands in `start_stream_data`. -/
inductive StreamState
  | raiseFlag
  | resetSlot
  | readFlag
  | readRecord
  | lowerFlag
  | readSlot
  | setFuture (found : Option ℕ)
  | finished
deriving DecidableEq

/-- The stream has reset the slot and has not read it at its end. -/
def StreamState.isListening : StreamState → Bool
  | .readFlag => true
  | .readRecord => true
  | .lowerFlag => true
  | .readSlot => true
  | _ => false

/-- A future goes by the number of its request. -/
structure State where
  isStreaming : Bool
  stopFutureValue : Option ℕ
  isSet : ℕ → Bool
  stopper : ℕ → StopState
  stream : StreamState

/-- A request takes a step, the stream takes a step. `more` tells whether `NextRecord` gives a
record. -/
inductive Action
  | stopStreaming (i : ℕ)
  | startStreamData (more : Bool)

def init : State := ⟨false, none, fun _ => false, fun _ => .readFlag, .raiseFlag⟩

namespace State

variable (s : State)

def goOn (i : ℕ) (state : StopState) : State :=
  { s with stopper := Function.update s.stopper i state }

def stopStreaming (i : ℕ) : Option State :=
  match s.stopper i with
  | .readFlag => some (s.goOn i (if s.isStreaming then .storeFuture else .answered))
  | .storeFuture => some { s.goOn i .lowerFlag with stopFutureValue := some i }
  | .lowerFlag => some { s.goOn i .suspended with isStreaming := false }
  | .suspended => if s.isSet i then some (s.goOn i .answered) else none
  | .answered => none

/-- The futures once the one that the stream found is set, if there is one and it is unset. -/
def setFound : Option ℕ → ℕ → Bool
  | none => s.isSet
  | some i => if s.isSet i then s.isSet else Function.update s.isSet i true

def startStreamData (more : Bool) : Option State :=
  match s.stream with
  | .raiseFlag => some { s with isStreaming := true, stream := .resetSlot }
  | .resetSlot => some { s with stopFutureValue := none, stream := .readFlag }
  | .readFlag => some { s with stream := if s.isStreaming then .readRecord else .lowerFlag }
  -- The sleep and the callback for the record lie before the next read of the flag.
  | .readRecord => some { s with stream := if more then .readFlag else .lowerFlag }
  | .lowerFlag => some { s with isStreaming := false, stream := .readSlot }
  | .readSlot => some { s with stream := .setFuture s.stopFutureValue }
  | .setFuture found => some { s with isSet := s.setFound found, stream := .finished }
  | .finished => none

def step : Action → Option State
  | .stopStreaming i => s.stopStreaming i
  | .startStreamData more => s.startStreamData more

/-- A future that is stored finds the slot free and the stream listening. -/
def InTime : Action → Prop
  | .stopStreaming i =>
    s.stopper i = .storeFuture → s.stream.isListening = true ∧ s.stopFutureValue = none
  | .startStreamData _ => True

instance (a : Action) : Decidable (s.InTime a) :=
  match a with
  | .stopStreaming _ => inferInstanceAs (Decidable (_ → _))
  | .startStreamData _ => instDecidableTrue

/-- The stream is over and some request waits for a future that is not set. -/
def Stranded : Prop :=
  s.stream = .finished ∧ ∃ i, s.stopper i = .suspended ∧ s.isSet i = false

/-- The future that the stream sets at its end, as things stand. -/
def sought : Option ℕ :=
  match s.stream with
  | .raiseFlag => none
  | .resetSlot => none
  | .setFuture found => found
  | .finished => none
  | _ => s.stopFutureValue

end State

section Moves

variable {s s' : State} {a : Action}

/-- What a step in time can do. -/
inductive Move (s : State) : State → Prop
  | refuse {i : ℕ} (hi : s.stopper i = .readFlag) : Move s (s.goOn i .answered)
  | check {i : ℕ} (hi : s.stopper i = .readFlag) : Move s (s.goOn i .storeFuture)
  | storeFuture {i : ℕ} (hi : s.stopper i = .storeFuture) (hlisten : s.stream.isListening = true)
      (hfree : s.stopFutureValue = none) :
      Move s { s.goOn i .lowerFlag with stopFutureValue := some i }
  | suspend {i : ℕ} (hi : s.stopper i = .lowerFlag) :
      Move s { s.goOn i .suspended with isStreaming := false }
  | answer {i : ℕ} (hi : s.stopper i = .suspended) (hset : s.isSet i = true) :
      Move s (s.goOn i .answered)
  | raiseFlag (hs : s.stream = .raiseFlag) :
      Move s { s with isStreaming := true, stream := .resetSlot }
  | resetSlot (hs : s.stream = .resetSlot) :
      Move s { s with stopFutureValue := none, stream := .readFlag }
  | listen {b : Bool} {state : StreamState} (hs : s.stream.isListening = true)
      (hstate : state.isListening = true) :
      Move s { s with isStreaming := b, stream := state }
  | readSlot (hs : s.stream = .readSlot) : Move s { s with stream := .setFuture s.stopFutureValue }
  | setFuture {found : Option ℕ} (hs : s.stream = .setFuture found) :
      Move s { s with isSet := s.setFound found, stream := .finished }

theorem move_of_step (htime : s.InTime a) (h : s.step a = some s') : Move s s' := by
  cases a with
  | stopStreaming i =>
    change s.stopStreaming i = some s' at h
    unfold State.stopStreaming at h
    cases hi : s.stopper i with
    | readFlag =>
      simp only [hi] at h
      cases hflag : s.isStreaming with
      | true =>
        rw [hflag] at h
        cases h
        exact .check hi
      | false =>
        rw [hflag] at h
        cases h
        exact .refuse hi
    | storeFuture =>
      simp only [hi] at h
      cases h
      obtain ⟨hlisten, hfree⟩ := htime hi
      exact .storeFuture hi hlisten hfree
    | lowerFlag =>
      simp only [hi] at h
      cases h
      exact .suspend hi
    | suspended =>
      simp only [hi] at h
      cases hset : s.isSet i with
      | true =>
        rw [hset] at h
        cases h
        exact .answer hi hset
      | false => simp [hset] at h
    | answered => simp [hi] at h
  | startStreamData more =>
    change s.startStreamData more = some s' at h
    unfold State.startStreamData at h
    cases hs : s.stream with
    | raiseFlag =>
      simp only [hs] at h
      cases h
      exact .raiseFlag hs
    | resetSlot =>
      simp only [hs] at h
      cases h
      exact .resetSlot hs
    | readFlag =>
      simp only [hs] at h
      cases h
      refine .listen (by rw [hs]; rfl) ?_
      cases s.isStreaming with
      | true => rfl
      | false => rfl
    | readRecord =>
      simp only [hs] at h
      cases h
      refine .listen (by rw [hs]; rfl) ?_
      cases more with
      | true => rfl
      | false => rfl
    | lowerFlag =>
      simp only [hs] at h
      cases h
      exact .listen (by rw [hs]; rfl) rfl
    | readSlot =>
      simp only [hs] at h
      cases h
      exact .readSlot hs
    | setFuture found =>
      simp only [hs] at h
      cases h
      exact .setFuture hs
    | finished => simp [hs] at h

end Moves

end OrderBookServer.Handshake
