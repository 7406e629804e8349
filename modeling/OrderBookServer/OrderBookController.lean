import OrderBookServer.CompactJson
import OrderBookServer.LatencyTracker
import OrderBookServer.SnapshotText

/-!
The controller of the book: the statistics of the applied messages are cleared when a stream is
started, filled as messages are applied, and read by every snapshot. The throughputs of a snapshot
divide by percentiles, which are zero while the window is empty.
-/
namespace OrderBookServer

open Runs

/-- The values that a quotient of two finite numbers comes to, without a sign of zero. -/
inductive Double
  | finite (x : ℚ)
  | infinite
deriving DecidableEq

namespace Double

def divide (a b : ℚ) : Double := if b = 0 then .infinite else .finite (a / b)

def IsFinite : Double → Prop
  | .finite _ => True
  | .infinite => False

end Double

/-- `std::to_chars` of a `double`: a finite number becomes a number of the JSON grammar. -/
class DoubleChars extends CharConv Double where
  number : ∀ x, ∃ t : NumberToken, toChars (.finite x) = t.text
  infinite : toChars .infinite = ['i', 'n', 'f']

/-- `latency` is the tracker of `get_orderbook_snapshot_async`. -/
structure OrderBookController where
  orderBook : Option OrderBook
  applyStats : LatencyTracker ℚ
  latency : LatencyTracker ℚ

namespace OrderBookController

inductive Crash
  | nullPointer
  | orderBook (fault : Fault)
deriving DecidableEq

/-- What the controller is asked to do, each with the latency that is measured. -/
inductive Op
  | initializeController
  | startStreaming
  | applied (mbo : MboMsg) (us : ℚ)
  | snapshot (ms : ℚ)

def new : OrderBookController := ⟨none, {}, {}⟩

/-! The keys of the response. -/

def throughputP50 : Text :=
  ['t', 'h', 'r', 'o', 'u', 'g', 'h', 'p', 'u', 't', '_', 'p', '5', '0']

def throughputP90 : Text :=
  ['t', 'h', 'r', 'o', 'u', 'g', 'h', 'p', 'u', 't', '_', 'p', '9', '0']

def throughputP99 : Text :=
  ['t', 'h', 'r', 'o', 'u', 'g', 'h', 'p', 'u', 't', '_', 'p', '9', '9']

def latencyGetSnapshot : Text :=
  ['l', 'a', 't', 'e', 'n', 'c', 'y', '_', 'g', 'e', 't', '_', 's', 'n', 'a', 'p', 's', 'h', 'o',
    't']

def latencyApplyMboMsg : Text :=
  ['l', 'a', 't', 'e', 'n', 'c', 'y', '_', 'a', 'p', 'p', 'l', 'y', '_', 'm', 'b', 'o', '_', 'm',
    's', 'g']

def statusKey : Text :=
  ['s', 't', 'a', 't', 'u', 's']

def snapshotKey : Text :=
  ['s', 'n', 'a', 'p', 's', 'h', 'o', 't']

section Operations

variable (s : OrderBookController)

def initializeController : OrderBookController :=
  { s with orderBook := OrderBook.new 20000000 120000000000 10000000 }

/-- The wrapper is there as soon as the book is. -/
def startStreaming : Except Crash OrderBookController :=
  match s.orderBook with
  | none => .error .nullPointer
  | some _ => .ok { s with applyStats := s.applyStats.clear }

/-- The callback of the stream. -/
def applied (mbo : MboMsg) (us : ℚ) : Except Crash OrderBookController :=
  match s.orderBook with
  | none => .error .nullPointer
  | some book =>
    match book.step mbo with
    | .error fault => .error (.orderBook fault)
    | .ok book => .ok { s with orderBook := some book, applyStats := s.applyStats.addSample us }

/-- A number as a handle. -/
def number (x : Double) : Json Double := .ofValue (.double x)

def latencyJson (latency : LatencyTracker ℚ) : Option (Json Double) := do
  let p50 ← latency.p50
  let p90 ← latency.p90
  let p99 ← latency.p99
  pure (.object [
    (['p', '5', '0'], number (.finite p50)),
    (['p', '9', '0'], number (.finite p90)),
    (['p', '9', '9'], number (.finite p99))])

def applyJson (applyStats : LatencyTracker ℚ) : Option (Json Double) := do
  let p50 ← applyStats.p50
  let p90 ← applyStats.p90
  let p99 ← applyStats.p99
  pure (.object [
    (['p', '5', '0'], number (.finite p50)),
    (['p', '9', '0'], number (.finite p90)),
    (['p', '9', '9'], number (.finite p99)),
    (throughputP50, number (Double.divide 1000000 p50)),
    (throughputP90, number (Double.divide 1000000 p90)),
    (throughputP99, number (Double.divide 1000000 p99))])

/-- The tracker of the snapshots with the time that this one took. -/
def measured (ms : ℚ) : OrderBookController := { s with latency := s.latency.addSample ms }

/-- What `get_orderbook_snapshot_async` sets its future to. -/
def snapshotJson (ms : ℚ) : Option (Json Double) :=
  match s.orderBook with
  | none => some .null
  | some book => do
    let latency ← latencyJson (s.measured ms).latency
    let apply ← applyJson s.applyStats
    let snapshot : Json Double := book.buildSnapshot
    let snapshot := snapshot.setKey latencyGetSnapshot latency
    pure (snapshot.setKey latencyApplyMboMsg apply)

/-- The response of the handler of `/get_snapshot`. -/
def response (snapshot : Json Double) : Json Double :=
  (Json.setKey .null statusKey (.ofValue (.string ['O', 'K']))).setKey
    snapshotKey snapshot

def getOrderbookSnapshotAsync (ms : ℚ) : OrderBookController :=
  match s.orderBook with
  | none => s
  | some _ => s.measured ms

def step : Op → Except Crash OrderBookController
  | .initializeController => .ok s.initializeController
  | .startStreaming => s.startStreaming
  | .applied mbo us => s.applied mbo us
  | .snapshot ms => .ok (s.getOrderbookSnapshotAsync ms)

end Operations

/-- Every measured latency of an applied message is positive. -/
def Op.Positive : Op → Prop
  | .applied _ us => 0 < us
  | _ => True

/-- The snapshot divides by nothing but positive numbers, and its response is a JSON text with
finite numbers only. -/
def SafeSnapshot [DoubleChars] (s : OrderBookController) (ms : ℚ) : Prop :=
  (∃ p50 p90 p99, s.applyStats.p50 = some p50 ∧ s.applyStats.p90 = some p90 ∧
      s.applyStats.p99 = some p99 ∧ p50 ≠ 0 ∧ p90 ≠ 0 ∧ p99 ≠ 0) ∧
    ∃ json, s.snapshotJson ms = some json ∧ (response json).Every (Json.doubles Double.IsFinite) ∧
      CompactJson (response json).getStringValue

/-- A snapshot that finds a book is safe. -/
def Safe [DoubleChars] (s : OrderBookController) : Op → Prop
  | .snapshot ms => s.orderBook ≠ none → s.SafeSnapshot ms
  | _ => True

/-- A snapshot that finds a book finds a sample. -/
def Sampled (s : OrderBookController) : Op → Prop
  | .snapshot _ => s.orderBook ≠ none → s.applyStats.samples ≠ []
  | _ => True

section Snapshots

variable {s s' : OrderBookController} {ms : ℚ} {op : Op}

/-- Every sample of the applied messages is positive. -/
def PositiveSamples (s : OrderBookController) : Prop := ∀ x ∈ s.applyStats.samples, 0 < x

/-- What a request makes of the statistics of the applied messages. -/
def statsAfter (applyStats : LatencyTracker ℚ) : Op → LatencyTracker ℚ
  | .startStreaming => applyStats.clear
  | .applied _ us => applyStats.addSample us
  | .initializeController => applyStats
  | .snapshot _ => applyStats

theorem applyStats_step (hstep : s.step op = .ok s') :
    s'.applyStats = statsAfter s.applyStats op := by
  cases op with
  | initializeController =>
    cases hstep
    rfl
  | startStreaming =>
    simp only [step, startStreaming] at hstep
    split at hstep
    · cases hstep
    · cases hstep
      rfl
  | applied mbo us =>
    simp only [step, applied] at hstep
    split at hstep
    · cases hstep
    · split at hstep
      · cases hstep
      · cases hstep
        rfl
  | snapshot ms =>
    cases hstep
    unfold getOrderbookSnapshotAsync
    split
    · rfl
    · rfl

theorem positiveSamples_step (h : s.PositiveSamples) (hop : op.Positive)
    (hstep : s.step op = .ok s') : s'.PositiveSamples := by
  intro x hx
  rw [applyStats_step hstep] at hx
  cases op with
  | initializeController => exact h x hx
  | startStreaming => exact absurd hx List.not_mem_nil
  | applied mbo us =>
    rcases LatencyTracker.mem_addSample hx with hold | rfl
    · exact h x hold
    · exact hop
  | snapshot ms => exact h x hx

theorem isPlain_of_all (key : Text) (h : (key.all fun c => decide (IsPlain c)) = true) :
    ∀ c ∈ key, IsPlain c :=
  fun c hc => of_decide_eq_true (List.all_eq_true.mp h c hc)

theorem plain_int64 (x : Int64) :
    (Json.ofValue (.int64 x) : Json Double).Every (Json.plain Double.IsFinite) := by
  refine .value ⟨fun y hy => ?_, fun y hy => ?_⟩
  · cases hy
  · cases hy

theorem plain_number {x : Double} (hx : x.IsFinite) :
    (number x).Every (Json.plain Double.IsFinite) := by
  refine .value ⟨fun y hy => ?_, fun y hy => ?_⟩
  · cases hy
    exact hx
  · cases hy

theorem isFinite_divide {a b : ℚ} (hb : b ≠ 0) : (Double.divide a b).IsFinite := by
  unfold Double.divide
  rw [if_neg hb]
  trivial

theorem exists_percentiles {t : LatencyTracker ℚ} (h : t.samples ≠ []) :
    ∃ p50 ∈ t.samples, ∃ p90 ∈ t.samples, ∃ p99 ∈ t.samples,
      t.p50 = some p50 ∧ t.p90 = some p90 ∧ t.p99 = some p99 := by
  obtain ⟨p50, hmem50, h50⟩ := LatencyTracker.exists_percentile (p := 50) h (by norm_num)
  obtain ⟨p90, hmem90, h90⟩ := LatencyTracker.exists_percentile (p := 90) h (by norm_num)
  obtain ⟨p99, hmem99, h99⟩ := LatencyTracker.exists_percentile (p := 99) h (by norm_num)
  exact ⟨p50, hmem50, p90, hmem90, p99, hmem99, h50, h90, h99⟩

/-- Every member of an object is plain, so the object is. -/
theorem plain_object {members : List (Text × Json Double)}
    (h : ∀ key value, (key, value) ∈ members →
      (∀ c ∈ key, IsPlain c) ∧ value.Every (Json.plain Double.IsFinite)) :
    (Json.object members).Every (Json.plain Double.IsFinite) :=
  .object (fun m hm => (h m.1 m.2 hm).1) fun m hm => (h m.1 m.2 hm).2

theorem plain_latencyJson {t : LatencyTracker ℚ} (h : t.samples ≠ []) :
    ∃ json, latencyJson t = some json ∧ json.Every (Json.plain Double.IsFinite) := by
  obtain ⟨p50, _, p90, _, p99, _, h50, h90, h99⟩ := exists_percentiles h
  unfold latencyJson
  rw [h50, h90, h99]
  refine ⟨_, rfl, plain_object ?_⟩
  intro key value hm
  simp only [List.mem_cons, Prod.mk.injEq, List.not_mem_nil, or_false] at hm
  rcases hm with ⟨rfl, rfl⟩ | ⟨rfl, rfl⟩ | ⟨rfl, rfl⟩
  · exact ⟨isPlain_of_all _ rfl, plain_number trivial⟩
  · exact ⟨isPlain_of_all _ rfl, plain_number trivial⟩
  · exact ⟨isPlain_of_all _ rfl, plain_number trivial⟩

theorem plain_applyJson {t : LatencyTracker ℚ} {p50 p90 p99 : ℚ} (h50 : t.p50 = some p50)
    (h90 : t.p90 = some p90) (h99 : t.p99 = some p99) (hne50 : p50 ≠ 0) (hne90 : p90 ≠ 0)
    (hne99 : p99 ≠ 0) :
    ∃ json, applyJson t = some json ∧ json.Every (Json.plain Double.IsFinite) := by
  unfold applyJson
  rw [h50, h90, h99]
  refine ⟨_, rfl, plain_object ?_⟩
  intro key value hm
  simp only [List.mem_cons, Prod.mk.injEq, List.not_mem_nil, or_false] at hm
  rcases hm with ⟨rfl, rfl⟩ | ⟨rfl, rfl⟩ | ⟨rfl, rfl⟩ | ⟨rfl, rfl⟩ | ⟨rfl, rfl⟩ | ⟨rfl, rfl⟩
  · exact ⟨isPlain_of_all _ rfl, plain_number trivial⟩
  · exact ⟨isPlain_of_all _ rfl, plain_number trivial⟩
  · exact ⟨isPlain_of_all _ rfl, plain_number trivial⟩
  · exact ⟨isPlain_of_all _ rfl, plain_number (isFinite_divide hne50)⟩
  · exact ⟨isPlain_of_all _ rfl, plain_number (isFinite_divide hne90)⟩
  · exact ⟨isPlain_of_all _ rfl, plain_number (isFinite_divide hne99)⟩

/-- The book's own part of a snapshot has no floating-point number. -/
theorem plain_buildSnapshot (book : OrderBook) :
    (book.buildSnapshot : Json Double).Every (Json.plain Double.IsFinite) := by
  have hlevel : ∀ e : Int64 × UInt64,
      (OrderBook.levelJson e.1 e.2 : Json Double).Every (Json.plain Double.IsFinite) := by
    intro e
    apply plain_object
    intro key value hm
    simp only [List.mem_cons, Prod.mk.injEq, List.not_mem_nil, or_false] at hm
    rcases hm with ⟨rfl, rfl⟩ | ⟨rfl, rfl⟩
    · exact ⟨isPlain_of_all _ rfl, plain_int64 e.1⟩
    · exact ⟨isPlain_of_all _ rfl, plain_int64 e.2.toInt64⟩
  have hside : ∀ es : List (Int64 × UInt64),
      (OrderBook.sideJson es : Json Double).Every (Json.plain Double.IsFinite) := by
    intro es
    cases es with
    | nil => exact .null
    | cons e es =>
      refine .array trivial fun item hitem => ?_
      obtain ⟨x, _, rfl⟩ := List.mem_map.mp hitem
      exact hlevel x
  rw [OrderBook.buildSnapshot_eq]
  apply plain_object
  intro key value hm
  simp only [List.mem_cons, Prod.mk.injEq, List.not_mem_nil, or_false] at hm
  rcases hm with ⟨hkey, hvalue⟩ | ⟨hkey, hvalue⟩
  · rw [hkey, hvalue]
    exact ⟨isPlain_of_all _ rfl, hside (book.entries true)⟩
  · rw [hkey, hvalue]
    exact ⟨isPlain_of_all _ rfl, hside (book.entries false)⟩

theorem plain_snapshot (book : OrderBook) {latency apply : Json Double}
    (hlatency : latency.Every (Json.plain Double.IsFinite))
    (happly : apply.Every (Json.plain Double.IsFinite)) :
    (((book.buildSnapshot : Json Double).setKey latencyGetSnapshot latency).setKey
      latencyApplyMboMsg apply).Every (Json.plain Double.IsFinite) := by
  apply Json.Every.setKey _ (isPlain_of_all _ rfl) happly
  exact (plain_buildSnapshot book).setKey (isPlain_of_all _ rfl) hlatency

theorem plain_response {json : Json Double} (h : json.Every (Json.plain Double.IsFinite)) :
    (response json).Every (Json.plain Double.IsFinite) := by
  have hstatus : (Json.ofValue (.string ['O', 'K']) : Json Double).Every
      (Json.plain Double.IsFinite) := by
    refine .value ⟨fun x hx => ?_, fun s hs => ?_⟩
    · cases hx
    · cases hs
      exact ⟨rfl, isPlain_of_all _ rfl⟩
  unfold response
  apply Json.Every.setKey _ (isPlain_of_all _ rfl) h
  exact Json.Every.setKey .null (isPlain_of_all _ rfl) hstatus

theorem number_of_isFinite [DoubleChars] (x : Double) (hx : x.IsFinite) :
    ∃ t : NumberToken, CharConv.toChars x = t.text := by
  cases x with
  | finite x => exact DoubleChars.number x
  | infinite => cases hx

/-- A snapshot is safe exactly when it finds a sample. -/
theorem safeSnapshot_iff [DoubleChars] (hpos : s.PositiveSamples) (hbook : s.orderBook ≠ none) :
    s.SafeSnapshot ms ↔ s.applyStats.samples ≠ [] := by
  constructor
  · rintro ⟨⟨p50, _, _, h50, _, _, hne, _⟩, _⟩ hnil
    rw [LatencyTracker.p50, LatencyTracker.percentile_of_empty hnil] at h50
    exact hne (Option.some.inj h50).symm
  · intro hne
    obtain ⟨p50, hmem50, p90, hmem90, p99, hmem99, h50, h90, h99⟩ := exists_percentiles hne
    have hne50 : p50 ≠ 0 := (hpos p50 hmem50).ne'
    have hne90 : p90 ≠ 0 := (hpos p90 hmem90).ne'
    have hne99 : p99 ≠ 0 := (hpos p99 hmem99).ne'
    obtain ⟨latency, hlatency, hplain⟩ :=
      plain_latencyJson (t := (s.measured ms).latency) LatencyTracker.addSample_ne_nil
    obtain ⟨apply, happly, hplain'⟩ := plain_applyJson h50 h90 h99 hne50 hne90 hne99
    obtain ⟨book, hbook⟩ := Option.ne_none_iff_exists'.mp hbook
    have hbuilt := plain_snapshot book hplain hplain'
    refine ⟨⟨p50, p90, p99, h50, h90, h99, hne50, hne90, hne99⟩,
      (book.buildSnapshot.setKey latencyGetSnapshot latency).setKey latencyApplyMboMsg apply,
      ?_, ?_, ?_⟩
    · unfold snapshotJson
      rw [hbook, hlatency, happly]
      rfl
    · exact Json.doubles_of_plain (plain_response hbuilt)
    · exact Json.compactJson_getStringValue number_of_isFinite (plain_response hbuilt)

theorem safe_iff_sampled [DoubleChars] (hpos : s.PositiveSamples) : s.Safe op ↔ s.Sampled op := by
  cases op with
  | snapshot ms =>
    constructor
    · exact fun hsafe hbook => (safeSnapshot_iff hpos hbook).mp (hsafe hbook)
    · exact fun hsampled hbook => (safeSnapshot_iff hpos hbook).mpr (hsampled hbook)
  | initializeController => exact Iff.rfl
  | startStreaming => exact Iff.rfl
  | applied mbo us => exact Iff.rfl

end Snapshots

section Runs

/-- Every snapshot of a run that finds a book is safe. -/
def SafeAlong [DoubleChars] (ops : List Op) : Prop := Along step Safe new ops

/-- Every snapshot of a run that finds a book finds a sample. -/
def SampledAlong (ops : List Op) : Prop := Along step Sampled new ops

/-- Whether a message has been applied since the statistics were last cleared. -/
def appliedNext (isApplied : Bool) : Op → Bool
  | .applied _ _ => true
  | .startStreaming => false
  | _ => isApplied

def appliedSinceClear (ops : List Op) : Bool := ops.foldl appliedNext false

theorem samples_ne_nil_step {s s' : OrderBookController} {op : Op} {isApplied : Bool}
    (h : s.applyStats.samples ≠ [] ↔ isApplied = true) (hstep : s.step op = .ok s') :
    s'.applyStats.samples ≠ [] ↔ appliedNext isApplied op = true := by
  rw [applyStats_step hstep]
  cases op with
  | initializeController => exact h
  | startStreaming => simp [statsAfter, LatencyTracker.clear, appliedNext]
  | applied mbo us => exact iff_of_true LatencyTracker.addSample_ne_nil rfl
  | snapshot ms => exact h

/-- The tracker has a sample exactly when a message has been applied since it was cleared. -/
theorem samples_ne_nil_iff {ops : List Op} {s : OrderBookController}
    (hrun : run step new ops = .ok s) :
    s.applyStats.samples ≠ [] ↔ appliedSinceClear ops = true := by
  suffices hgeneral : ∀ (ops : List Op) (t : OrderBookController) (isApplied : Bool),
      (t.applyStats.samples ≠ [] ↔ isApplied = true) → run step t ops = .ok s →
      (s.applyStats.samples ≠ [] ↔ ops.foldl appliedNext isApplied = true) from
    hgeneral ops new false (by simp [new]) hrun
  intro ops
  induction ops with
  | nil =>
    intro t isApplied h hrun
    cases hrun
    exact h
  | cons op ops ih =>
    intro t isApplied h hrun
    obtain ⟨t', hstep, hrest⟩ := run_cons_ok hrun
    exact ih t' _ (samples_ne_nil_step h hstep) hrest

/-- With positive latencies the snapshots of a run are safe exactly when each finds a sample. -/
theorem safeAlong_iff_sampledAlong [DoubleChars] (ops : List Op)
    (hpos : ∀ op ∈ ops, op.Positive) : SafeAlong ops ↔ SampledAlong ops := by
  refine along_iff PositiveSamples Op.Positive ?_ ?_ ?_ hpos
  · exact fun s op s' h hop _ hstep => positiveSamples_step h hop hstep
  · exact fun s op h _ => safe_iff_sampled h
  · exact fun x hx => absurd hx List.not_mem_nil

/-- Texts that are right for whole numbers of few digits. -/
@[reducible] def wholeChars : DoubleChars where
  toChars
    | .finite x => Decimal.toChars ⌊x⌋
    | .infinite => ['i', 'n', 'f']
  fromChars _ := none
  number x := ⟨integerToken ⌊x⌋, (text_integerToken ⌊x⌋).symm⟩
  infinite := rfl

/-- A stream whose first message changes nothing, and a snapshot. -/
def oneMessage : List Op :=
  [.initializeController, .startStreaming, .applied ⟨0, 0, 0, 'N', 'N'⟩ 1000, .snapshot 1]

theorem safeAlong_iff_sampledAlong_oneMessage : @SafeAlong wholeChars oneMessage := by
  refine (@safeAlong_iff_sampledAlong wholeChars oneMessage ?_).mpr ?_
  · intro op hop
    simp only [oneMessage, List.mem_cons, List.not_mem_nil, or_false] at hop
    obtain rfl | rfl | rfl | rfl := hop
    · trivial
    · trivial
    · exact (by norm_num : (0 : ℚ) < 1000)
    · trivial
  · refine ⟨trivial, fun s₁ h₁ => ⟨trivial, fun s₂ h₂ => ⟨trivial, fun s₃ h₃ => ?_⟩⟩⟩
    constructor
    · intro _
      have hrun : run step new (oneMessage.take 3) = .ok s₃ :=
        (run_cons_of_ok h₁ _).trans ((run_cons_of_ok h₂ _).trans (run_cons_of_ok h₃ []))
      exact (samples_ne_nil_iff hrun).mpr rfl
    · exact fun _ _ => trivial

/-- A snapshot between the start of a stream and its first message. -/
theorem not_safeAlong_noMessage :
    ¬ @SafeAlong wholeChars [.initializeController, .startStreaming, .snapshot 1] := by
  have hbook : (new.initializeController).orderBook = some OrderBook.productionBook :=
    OrderBook.new_productionBook
  have hstart : (new.initializeController).step .startStreaming =
      .ok { new.initializeController with applyStats := LatencyTracker.clear {} } := by
    simp only [step, startStreaming, hbook]
    rfl
  rintro ⟨_, hrest⟩
  have hsnapshot := ((hrest _ rfl).2 _ hstart).1
  have hsome : (new.initializeController).orderBook ≠ none := by
    rw [hbook]
    exact Option.some_ne_none _
  exact (@safeSnapshot_iff _ _ wholeChars (fun x hx => absurd hx List.not_mem_nil) hsome).mp
    (hsnapshot hsome) rfl

end Runs

end OrderBookController

end OrderBookServer
