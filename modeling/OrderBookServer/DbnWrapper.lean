import Mathlib.Data.List.Basic
import Mathlib.Data.Int.Notation

/-!
The wrapper of src/src/dbn_wrapper and what its stream does with the file between two sleeps.
-/
namespace OrderBookServer.Streaming

variable {M : Type}

/-- The records of a file in the order in which `NextRecord` gives them; a record that is not an
MBO message is `none`. -/
structure DbnFile (M : Type) where
  records : List (Option M)
  tsInDelta : M → ℤ

/-- A request to start comes with a speed. What matters of it is whether it is above zero. -/
inductive Request
  | start (hasSpeed : Bool)
  | stop
deriving DecidableEq

/-- The future of `stop`, on which a request is suspended. -/
structure StopFuture where
  request : Request
  isSet : Bool
deriving DecidableEq

/-- `position` tells how many records the store has given. -/
structure DbnWrapper where
  position : ℕ
  hasSpeed : Bool
  isStreaming : Bool
  stopFutureValue : Option StopFuture
deriving DecidableEq

namespace DbnWrapper

/-- The speed is 1.0 at first. -/
def new : DbnWrapper := ⟨0, true, false, none⟩

end DbnWrapper

/-- What a stream did up to its next sleep or its end. -/
structure Pass (M : Type) where
  applied : List M
  position : ℕ
  isAsleep : Bool

namespace DbnFile

variable (file : DbnFile M)

/-- The MBO messages among the first `n` records. -/
def mbosBefore (n : ℕ) : List M := (file.records.take n).filterMap id

def mbos : List M := file.records.filterMap id

/-- The loop of `start_stream_data` over the records that are left, where it is not told to
stop. It sleeps with a record in hand, the last one that the store has given. -/
def readOn (hasSpeed : Bool) : ℕ → List (Option M) → Pass M
  | position, [] => ⟨[], position, false⟩
  | position, none :: rest => readOn hasSpeed (position + 1) rest
  | position, some mbo :: rest =>
    if 0 < file.tsInDelta mbo ∧ hasSpeed = true then ⟨[], position + 1, true⟩
    else
      let pass := readOn hasSpeed (position + 1) rest
      { pass with applied := mbo :: pass.applied }

/-- The store stands after a record of which the stream has not made use. -/
def InHand (n : ℕ) : Prop := ∃ mbo, file.records[n]? = some (some mbo)

variable {file}

theorem mbosBefore_succ_of_none {n : ℕ} (h : file.records[n]? = some none) :
    file.mbosBefore (n + 1) = file.mbosBefore n := by
  unfold mbosBefore
  rw [List.take_add_one, h]
  simp

theorem mbosBefore_succ_of_some {n : ℕ} {mbo : M} (h : file.records[n]? = some (some mbo)) :
    file.mbosBefore (n + 1) = file.mbosBefore n ++ [mbo] := by
  unfold mbosBefore
  rw [List.take_add_one, h]
  simp

theorem mbosBefore_prefix (n : ℕ) : file.mbosBefore n <+: file.mbos :=
  (List.take_prefix n file.records).filterMap id

theorem mbosBefore_of_length_le {n : ℕ} (h : file.records.length ≤ n) :
    file.mbosBefore n = file.mbos := by
  unfold mbosBefore mbos
  rw [List.take_of_length_le h]

/-- The stream has gone on from the first `n` records without a gap, up to the record in hand
or to the end of the file. -/
structure Continues (file : DbnFile M) (n : ℕ) (pass : Pass M) : Prop where
  asleep : pass.isAsleep = true → ∃ k, pass.position = k + 1 ∧ file.InHand k ∧
    file.mbosBefore n ++ pass.applied = file.mbosBefore k
  ended : pass.isAsleep = false → file.mbosBefore n ++ pass.applied = file.mbos

theorem continues_readOn (hasSpeed : Bool) (rest : List (Option M)) (n : ℕ)
    (h : file.records.drop n = rest) : file.Continues n (file.readOn hasSpeed n rest) := by
  induction rest generalizing n with
  | nil =>
    refine ⟨fun hsleep => ?_, fun _ => ?_⟩
    · cases hsleep
    · show file.mbosBefore n ++ [] = file.mbos
      rw [List.append_nil]
      exact mbosBefore_of_length_le (List.drop_eq_nil_iff.mp h)
  | cons record rest ih =>
    have hhead : file.records[n]? = some record := by
      rw [← List.head?_drop, h, List.head?_cons]
    have htail : file.records.drop (n + 1) = rest := by
      rw [← List.tail_drop, h, List.tail_cons]
    have hrest := ih (n + 1) htail
    cases record with
    | none =>
      have hsame := mbosBefore_succ_of_none hhead
      refine ⟨fun hsleep => ?_, fun hawake => ?_⟩
      · rw [← hsame]
        exact hrest.asleep hsleep
      · rw [← hsame]
        exact hrest.ended hawake
    | some mbo =>
      unfold readOn
      by_cases hsleep : 0 < file.tsInDelta mbo ∧ hasSpeed = true
      · rw [if_pos hsleep]
        refine ⟨fun _ => ⟨n, rfl, ⟨mbo, hhead⟩, List.append_nil _⟩, fun hawake => ?_⟩
        cases hawake
      · rw [if_neg hsleep]
        have hmore := mbosBefore_succ_of_some hhead
        refine ⟨fun hsleep => ?_, fun hawake => ?_⟩
        · obtain ⟨k, hk, hhand, happlied⟩ := hrest.asleep hsleep
          rw [hmore, List.append_assoc] at happlied
          exact ⟨k, hk, hhand, happlied⟩
        · have happlied := hrest.ended hawake
          rw [hmore, List.append_assoc] at happlied
          exact happlied

end DbnFile

end OrderBookServer.Streaming
