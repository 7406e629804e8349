import Mathlib.Data.Rat.Floor
import Mathlib.Tactic.Positivity
import OrderBookServer.Runs
import OrderBookServer.StdString

/-!
Sleeps of the stream. The gap to the next message is divided by the speed, goes as a number of
nanoseconds through `sleep_for` and `add_schedule_task` into a timer, and comes to the kernel in
seconds and nanoseconds. A zero there disarms the timer, and the stream sleeps on for ever.
-/
namespace OrderBookServer

open StdString Runs

inductive TimerUnit
  | second
  | millisecond
  | microsecond
  | nanosecond
deriving DecidableEq, Repr

def TimerUnit.toNat : TimerUnit → ℕ
  | second => 1000000000
  | millisecond => 1000000
  | microsecond => 1000
  | nanosecond => 1

/-- What a timer calls: the future of a sleep gets its tick as the value. -/
inductive TimerCallback
  | setValue (tick : ℕ)
deriving DecidableEq, Repr

/-- The `it_value` of an `itimerspec`. -/
structure ItValue where
  tvSec : ℕ
  tvNsec : ℕ
deriving DecidableEq, Repr

structure TimerIO where
  intervalNs : ℕ
  callback : Option TimerCallback
deriving DecidableEq, Repr

namespace TimerIO

/-- A timer as the pool gives it, after `clear`. -/
def cleared : TimerIO := { intervalNs := 0, callback := none }

def setCallback (t : TimerIO) (intervalNsValue : ℕ) (callbackValue : TimerCallback) : TimerIO :=
  { t with intervalNs := intervalNsValue, callback := some callbackValue }

/-- What `generate_fd` sets the new descriptor to. -/
def generateFd (t : TimerIO) : ItValue :=
  { tvSec := t.intervalNs / 1000000000, tvNsec := t.intervalNs % 1000000000 }

end TimerIO

namespace Timer

def addScheduleTask (callback : TimerCallback) (tickInterval : ℕ) (unit : TimerUnit) : TimerIO :=
  TimerIO.cleared.setCallback (sizeT (tickInterval * unit.toNat)) callback

/-- The timer of a sleep; the tick is in nanoseconds. -/
def sleepFor (tickInterval : ℕ) (unit : TimerUnit) : TimerIO :=
  let tick := sizeT (tickInterval * unit.toNat)
  addScheduleTask (.setValue tick) tick .nanosecond

end Timer

/-- A number without its fraction. -/
def truncate (x : ℚ) : ℤ := if 0 ≤ x then ⌊x⌋ else ⌈x⌉

/-- The conversion to `long long`, which is undefined for a value out of range. -/
def toLongLong (x : ℚ) : Option ℤ :=
  if -9223372036854775808 ≤ truncate x ∧ truncate x ≤ 9223372036854775807 then some (truncate x)
  else none

/-- The interval of `start_stream_data`. -/
def sleepNs (tsInDelta : ℤ) (speed : ℚ) : Option ℤ := toLongLong (tsInDelta / speed)

/-- A `timerfd` of the kernel: whether it is readable, by its value, the time at which it was set
and the time now. A value of zero disarms it. -/
structure Timerfd where
  readable : ItValue → ℕ → ℕ → Bool
  disarms : ∀ since now, readable { tvSec := 0, tvNsec := 0 } since now = false
  expires : ∀ value since, value ≠ { tvSec := 0, tvNsec := 0 } → value.tvNsec < 1000000000 →
    ∃ time, ∀ now, time ≤ now → readable value since now = true

namespace SleepingStream

/-- A timer that the loop of the system objects watches. -/
structure LivingTimer where
  timer : TimerIO
  value : ItValue
  since : ℕ
deriving DecidableEq, Repr

/-- The stream between two suspensions is `isReady`; a stream that sleeps has a message in hand.
The messages that are left come last, with the gap in front of each. -/
structure World (M : Type) where
  clock : ℕ
  timer : Option LivingTimer
  isReady : Bool
  inHand : Option M
  applied : List M
  rest : List M
deriving DecidableEq, Repr

inductive Action
  | tick
  | systemIo
  | stream
deriving DecidableEq, Repr

namespace World

variable {M : Type} (tsInDelta : M → ℤ) (speed : ℚ) (fd : Timerfd)

/-- `co_await Timer::sleep_for(sleep_ns, NANOSECOND)` with the message in hand. -/
def sleep (w : World M) (mbo : M) (ns : ℤ) : World M :=
  let timer := Timer.sleepFor (sizeT ns) .nanosecond
  { w with
    timer := some { timer := timer, value := timer.generateFd, since := w.clock }
    isReady := false
    inHand := some mbo }

/-- The callback sets the future, whose suspended stream becomes ready; the timer is released. -/
def handleRead (w : World M) (t : LivingTimer) : World M :=
  match t.timer.callback with
  | some (.setValue _) => { w with timer := none, isReady := true }
  | none => { w with timer := none }

/-- The stream up to its next message: the one in hand, or one that it need not wait for, is
applied; in front of the others it sleeps. -/
def runStream (w : World M) : Option (World M) :=
  match w.inHand with
  | some mbo => some { w with inHand := none, applied := w.applied ++ [mbo] }
  | none =>
    match w.rest with
    | [] => none
    | mbo :: rest =>
      if 0 < tsInDelta mbo ∧ 0 < speed then
        (sleepNs (tsInDelta mbo) speed).map ({ w with rest := rest }.sleep mbo)
      else some { w with applied := w.applied ++ [mbo], rest := rest }

def next (w : World M) : Action → Option (World M)
  | .tick => some { w with clock := w.clock + 1 }
  | .systemIo =>
    match w.timer with
    | some t => if fd.readable t.value t.since w.clock = true then some (w.handleRead t) else none
    | none => none
  | .stream => if w.isReady = true then w.runStream tsInDelta speed else none

/-- What the loops make of a world as time goes on. -/
abbrev Reached (w w' : World M) : Prop :=
  Reaches (next tsInDelta speed fd) (fun _ _ => True) w w'

/-- The stream runs, with this message as the next one of the file. -/
structure Faces (w : World M) (mbo : M) : Prop where
  ready : w.isReady = true
  hand : w.inHand = none
  head : w.rest.head? = some mbo

/-- The sleep in front of a message ends: its interval is a positive `long long`, comes to the
kernel as a value that arms the timer, and whatever happens the message can still be applied
next. -/
def WakesUp (w : World M) (mbo : M) : Prop :=
  ∃ ns w₁ t, sleepNs (tsInDelta mbo) speed = some ns ∧ 0 < ns ∧
    w.next tsInDelta speed fd .stream = some w₁ ∧ w₁.timer = some t ∧
    t.value = t.timer.generateFd ∧ t.value ≠ { tvSec := 0, tvNsec := 0 } ∧
    t.value.tvNsec < 1000000000 ∧
    ∀ w', Reached tsInDelta speed fd w₁ w' →
      ∃ w'', Reached tsInDelta speed fd w' w'' ∧ w.applied ++ [mbo] <+: w''.applied

end World

section Intervals

variable {delta : ℤ} {speed : ℚ} {ns : ℤ}

theorem toLongLong_of_nonneg {x : ℚ} (hx : 0 ≤ x) (hlt : x < 9223372036854775808) :
    toLongLong x = some ⌊x⌋ := by
  have hfloor : 0 ≤ ⌊x⌋ := Int.floor_nonneg.mpr hx
  have hsmall : ⌊x⌋ < 9223372036854775808 := by
    apply Int.floor_lt.mpr
    exact_mod_cast hlt
  have htruncate : truncate x = ⌊x⌋ := if_pos hx
  unfold toLongLong
  rw [htruncate, if_pos ⟨by omega, by omega⟩]

theorem toLongLong_eq_none {x : ℚ} (hlarge : 9223372036854775808 ≤ x) : toLongLong x = none := by
  have hx : 0 ≤ x := le_trans (by norm_num) hlarge
  have hfloor : 9223372036854775808 ≤ ⌊x⌋ := by
    apply Int.le_floor.mpr
    exact_mod_cast hlarge
  have htruncate : truncate x = ⌊x⌋ := if_pos hx
  unfold toLongLong
  rw [htruncate, if_neg (by omega)]

/-- The interval is a positive number exactly for a speed between the two bounds. -/
theorem exists_sleepNs_iff (hdelta : 0 < delta) (hspeed : 0 < speed) :
    (∃ ns, sleepNs delta speed = some ns ∧ 0 < ns) ↔
      speed ≤ delta ∧ (delta : ℚ) < 9223372036854775808 * speed := by
  have hdelta' : (0 : ℚ) < delta := by exact_mod_cast hdelta
  have hx : (0 : ℚ) ≤ delta / speed := by positivity
  have hone : 1 ≤ (delta : ℚ) / speed ↔ speed ≤ delta := one_le_div hspeed
  have hbound : (delta : ℚ) / speed < 9223372036854775808 ↔
      (delta : ℚ) < 9223372036854775808 * speed := div_lt_iff₀ hspeed
  unfold sleepNs
  rw [← hone, ← hbound]
  constructor
  · rintro ⟨ns, hns, hpos⟩
    have hlt : (delta : ℚ) / speed < 9223372036854775808 := by
      by_contra hlarge
      rw [toLongLong_eq_none (not_lt.mp hlarge)] at hns
      cases hns
    rw [toLongLong_of_nonneg hx hlt] at hns
    cases hns
    exact ⟨by exact_mod_cast Int.le_floor.mp (Int.add_one_le_iff.mpr hpos), hlt⟩
  · rintro ⟨hle, hlt⟩
    refine ⟨_, toLongLong_of_nonneg hx hlt, ?_⟩
    exact Int.lt_of_lt_of_le Int.zero_lt_one (Int.le_floor.mpr (by exact_mod_cast hle))

theorem le_of_sleepNs (h : sleepNs delta speed = some ns) : ns ≤ 9223372036854775807 := by
  unfold sleepNs toLongLong at h
  split at h
  · rename_i hrange
    cases h
    exact hrange.2
  · cases h

/-- No conversion on the way to the timer changes a positive interval. -/
theorem intervalNs_sleepFor (hpos : 0 < ns) (hle : ns ≤ 9223372036854775807) :
    ((Timer.sleepFor (sizeT ns) .nanosecond).intervalNs : ℤ) = ns := by
  show (sizeT ((sizeT ((sizeT ns : ℕ) * (1 : ℕ)) : ℕ) * (1 : ℕ)) : ℤ) = ns
  unfold sizeT
  omega

/-- A positive interval arms the timer. -/
theorem generateFd_of_pos (hpos : 0 < ns) (hle : ns ≤ 9223372036854775807) :
    (Timer.sleepFor (sizeT ns) .nanosecond).generateFd ≠ { tvSec := 0, tvNsec := 0 } ∧
      (Timer.sleepFor (sizeT ns) .nanosecond).generateFd.tvNsec < 1000000000 := by
  have hinterval := intervalNs_sleepFor hpos hle
  refine ⟨fun hzero => ?_, Nat.mod_lt _ (by norm_num)⟩
  have hsec := congrArg ItValue.tvSec hzero
  have hnsec := congrArg ItValue.tvNsec hzero
  unfold TimerIO.generateFd at hsec hnsec
  dsimp only at hsec hnsec
  omega

end Intervals

section Waking

variable {M : Type} {tsInDelta : M → ℤ} {speed : ℚ} {fd : Timerfd} {w w' : World M} {mbo : M}
  {t : LivingTimer}

/-- Between a sleep that began in `w` and the use of its message. -/
inductive Waiting (w : World M) (mbo : M) (t : LivingTimer) (w' : World M) : Prop
  | asleep (htimer : w'.timer = some t) (hready : w'.isReady = false)
      (hhand : w'.inHand = some mbo) (happlied : w'.applied = w.applied)
  | resumed (hready : w'.isReady = true) (hhand : w'.inHand = some mbo)
      (happlied : w'.applied = w.applied)
  | done (happlied : w.applied ++ [mbo] <+: w'.applied)

theorem applied_isPrefix_runStream (h : w.runStream tsInDelta speed = some w') :
    w.applied <+: w'.applied := by
  unfold World.runStream at h
  split at h
  · cases h
    exact List.prefix_append _ _
  · split at h
    · cases h
    · split at h
      · rename_i hsleep
        obtain ⟨ns, _, rfl⟩ := Option.map_eq_some_iff.mp h
        exact List.prefix_refl _
      · cases h
        exact List.prefix_append _ _

theorem applied_isPrefix_next {a : Action} (h : w.next tsInDelta speed fd a = some w') :
    w.applied <+: w'.applied := by
  cases a with
  | tick =>
    cases h
    exact List.prefix_refl _
  | systemIo =>
    simp only [World.next] at h
    split at h
    · rename_i t ht
      split at h
      · cases h
        unfold World.handleRead
        split
        · exact List.prefix_refl _
        · exact List.prefix_refl _
      · cases h
    · cases h
  | stream =>
    simp only [World.next] at h
    split at h
    · exact applied_isPrefix_runStream h
    · cases h

/-- Each step leaves the stream asleep, resumed, or with the message applied. -/
theorem waiting_next {w₀ : World M} (ht : t.timer.callback ≠ none) {a : Action}
    (h : Waiting w₀ mbo t w) (hnext : w.next tsInDelta speed fd a = some w') :
    Waiting w₀ mbo t w' := by
  cases h with
  | asleep htimer hready hhand happlied =>
    cases a with
    | tick =>
      cases hnext
      exact .asleep htimer hready hhand happlied
    | systemIo =>
      simp only [World.next, htimer] at hnext
      split at hnext
      · cases hnext
        obtain ⟨callback, hcallback⟩ := Option.ne_none_iff_exists'.mp ht
        obtain ⟨tick⟩ := callback
        unfold World.handleRead
        rw [hcallback]
        exact .resumed rfl hhand happlied
      · cases hnext
    | stream =>
      simp only [World.next, hready, Bool.false_eq_true, if_false] at hnext
      cases hnext
  | resumed hready hhand happlied =>
    cases a with
    | tick =>
      cases hnext
      exact .resumed hready hhand happlied
    | systemIo =>
      simp only [World.next] at hnext
      split at hnext
      · split at hnext
        · cases hnext
          unfold World.handleRead
          split
          · exact .resumed rfl hhand happlied
          · exact .resumed hready hhand happlied
        · cases hnext
      · cases hnext
    | stream =>
      simp only [World.next, hready, if_true, World.runStream, hhand] at hnext
      cases hnext
      exact .done (by rw [happlied])
  | done happlied => exact .done (happlied.trans (applied_isPrefix_next hnext))

/-- Time goes on up to any time. -/
theorem reached_tick (w : World M) (k : ℕ) :
    World.Reached tsInDelta speed fd w { w with clock := w.clock + k } := by
  induction k with
  | zero => exact .start
  | succ k ih => exact .step (m := .tick) ih trivial rfl

/-- A stream that waits for an armed timer comes to apply its message. -/
theorem exists_applied_of_waiting {w₀ : World M} (hvalue : t.value ≠ { tvSec := 0, tvNsec := 0 })
    (hnsec : t.value.tvNsec < 1000000000) (ht : t.timer.callback ≠ none)
    (h : Waiting w₀ mbo t w) : ∃ w', World.Reached tsInDelta speed fd w w' ∧
      w₀.applied ++ [mbo] <+: w'.applied := by
  have hresumed : ∀ v : World M, v.isReady = true → v.inHand = some mbo →
      v.applied = w₀.applied → World.Reached tsInDelta speed fd w v →
      ∃ w', World.Reached tsInDelta speed fd w w' ∧ w₀.applied ++ [mbo] <+: w'.applied := by
    intro v hready hhand happlied hreached
    refine ⟨{ v with inHand := none, applied := v.applied ++ [mbo] },
      .step (m := .stream) hreached trivial ?_, by rw [happlied]⟩
    simp only [World.next, hready, if_true, World.runStream, hhand]
  cases h with
  | asleep htimer hready hhand happlied =>
    -- time passes until the timer is readable, then its callback makes the stream ready
    obtain ⟨time, hreadable⟩ := fd.expires t.value t.since hvalue hnsec
    let v : World M := { w with clock := w.clock + time }
    have hnow : fd.readable t.value t.since v.clock = true :=
      hreadable v.clock (Nat.le_add_left time w.clock)
    have hio : v.next tsInDelta speed fd .systemIo = some (v.handleRead t) := by
      have htimer' : v.timer = some t := htimer
      simp only [World.next, htimer', hnow, if_true]
    obtain ⟨callback, hcallback⟩ := Option.ne_none_iff_exists'.mp ht
    obtain ⟨tick⟩ := callback
    have hwoken : v.handleRead t = { v with timer := none, isReady := true } := by
      unfold World.handleRead
      rw [hcallback]
    rw [hwoken] at hio
    have hreached := Reaches.step (m := .systemIo) (reached_tick w time) trivial hio
    exact hresumed { v with timer := none, isReady := true } rfl hhand happlied hreached
  | resumed hready hhand happlied => exact hresumed w hready hhand happlied .start
  | done happlied => exact ⟨w, .start, happlied⟩

/-- Asleep in front of a timer that is disarmed. -/
def Stuck (applied : List M) (w : World M) : Prop :=
  ∃ t, w.timer = some t ∧ t.value = { tvSec := 0, tvNsec := 0 } ∧ w.isReady = false ∧
    w.applied = applied

/-- Behind a disarmed timer nothing is ever applied. -/
theorem stuck_of_reached {applied : List M} (h : Stuck applied w)
    (hreached : World.Reached tsInDelta speed fd w w') : Stuck applied w' := by
  refine Reaches.invariant ?_ h hreached
  rintro v a v' ⟨t, htimer, hvalue, hready, happlied⟩ _ hnext
  cases a with
  | tick =>
    cases hnext
    exact ⟨t, htimer, hvalue, hready, happlied⟩
  | systemIo =>
    simp only [World.next, htimer, hvalue, fd.disarms, Bool.false_eq_true, if_false] at hnext
    cases hnext
  | stream =>
    simp only [World.next, hready, Bool.false_eq_true, if_false] at hnext
    cases hnext

/-- In front of a message with a gap the stream goes to sleep. -/
theorem next_stream_of_faces (fd : Timerfd) {ns : ℤ} (hfaces : w.Faces mbo)
    (hdelta : 0 < tsInDelta mbo) (hspeed : 0 < speed)
    (hns : sleepNs (tsInDelta mbo) speed = some ns) :
    ∃ rest, w.next tsInDelta speed fd .stream = some ({ w with rest := rest }.sleep mbo ns) := by
  obtain ⟨rest, hrest⟩ : ∃ rest, w.rest = mbo :: rest := by
    have hhead := hfaces.head
    cases hw : w.rest with
    | nil =>
      rw [hw] at hhead
      cases hhead
    | cons m rest =>
      rw [hw] at hhead
      cases hhead
      exact ⟨rest, rfl⟩
  refine ⟨rest, ?_⟩
  simp only [World.next, hfaces.ready, if_true, World.runStream, hfaces.hand, hrest]
  rw [if_pos ⟨hdelta, hspeed⟩, hns]
  rfl

/-- A sleep of no nanoseconds lasts for ever. -/
theorem applied_of_sleep_zero {rest : List M}
    (hreached : World.Reached tsInDelta speed fd ({ w with rest := rest }.sleep mbo 0) w') :
    w'.applied = w.applied := by
  have hstuck : Stuck w.applied ({ w with rest := rest }.sleep mbo 0) := ⟨_, rfl, rfl, rfl, rfl⟩
  obtain ⟨_, _, _, _, happlied⟩ := stuck_of_reached hstuck hreached
  exact happlied

/-- A sleep ends exactly where the speed is not above the gap and leaves an interval in range. -/
theorem wakesUp_iff (fd : Timerfd) (hfaces : w.Faces mbo) (hdelta : 0 < tsInDelta mbo)
    (hspeed : 0 < speed) : w.WakesUp tsInDelta speed fd mbo ↔
      speed ≤ tsInDelta mbo ∧ (tsInDelta mbo : ℚ) < 9223372036854775808 * speed := by
  rw [← exists_sleepNs_iff hdelta hspeed]
  constructor
  · rintro ⟨ns, _, _, hns, hpos, _⟩
    exact ⟨ns, hns, hpos⟩
  · rintro ⟨ns, hns, hpos⟩
    obtain ⟨rest, hnext⟩ := next_stream_of_faces fd hfaces hdelta hspeed hns
    obtain ⟨hvalue, hnsec⟩ := generateFd_of_pos hpos (le_of_sleepNs hns)
    refine ⟨ns, _, _, hns, hpos, hnext, rfl, rfl, hvalue, hnsec, fun w' hreached => ?_⟩
    have hcallback : (Timer.sleepFor (sizeT ns) .nanosecond).callback ≠ none :=
      Option.some_ne_none _
    have hwaiting : Waiting w mbo _ w' :=
      Reaches.invariant (fun _ _ _ h _ hnext => waiting_next hcallback h hnext)
        (.asleep rfl rfl rfl rfl : Waiting w mbo _ ({ w with rest := rest }.sleep mbo ns)) hreached
    exact exists_applied_of_waiting hvalue hnsec hcallback hwaiting

/-- A timer that is readable once its time is over, unless it is disarmed. -/
def onTime : Timerfd where
  readable value since now :=
    value ≠ { tvSec := 0, tvNsec := 0 } ∧ since + value.tvSec * 1000000000 + value.tvNsec ≤ now
  disarms _ _ := by simp
  expires value since hvalue _ :=
    ⟨since + value.tvSec * 1000000000 + value.tvNsec, fun _ hnow => by simp [hvalue, hnow]⟩

/-- A stream in front of one message, which is its own gap. -/
def facing (gap : ℤ) : World ℤ :=
  { clock := 0, timer := none, isReady := true, inHand := none, applied := [], rest := [gap] }

theorem faces_facing (gap : ℤ) : (facing gap).Faces gap := ⟨rfl, rfl, rfl⟩

theorem wakesUp_iff_half : (facing 1000).WakesUp id 500 onTime 1000 :=
  (wakesUp_iff onTime (faces_facing 1000) (by norm_num) (by norm_num)).mpr
    ⟨by norm_num, by norm_num⟩

/-- One nanosecond at twice the speed: the message is never applied. -/
theorem not_wakesUp_double : ¬ (facing 1).WakesUp id 2 onTime 1 ∧
    ∃ w₁, (facing 1).next id 2 onTime .stream = some w₁ ∧
      ∀ w', World.Reached id 2 onTime w₁ w' → w'.applied = [] := by
  have hzero : sleepNs 1 2 = some 0 := by
    have hfloor : ⌊((1 : ℤ) : ℚ) / 2⌋ = 0 := by norm_num
    unfold sleepNs
    rw [toLongLong_of_nonneg (by norm_num) (by norm_num), hfloor]
  constructor
  · rintro ⟨ns, _, _, hns, hpos, _⟩
    have hsame : some ns = some 0 := hns.symm.trans hzero
    cases hsame
    exact lt_irrefl 0 hpos
  · have htwo : (0 : ℚ) < 2 := by norm_num
    obtain ⟨rest, hnext⟩ := next_stream_of_faces onTime (faces_facing 1)
      (by norm_num : 0 < id (1 : ℤ)) htwo hzero
    exact ⟨_, hnext, fun w' hreached => applied_of_sleep_zero hreached⟩

end Waking

end SleepingStream

end OrderBookServer
