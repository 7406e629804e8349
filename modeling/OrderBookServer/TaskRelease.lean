import OrderBookServer.Runs

/-!
The end of a task of src/core/coroutine that was started on the loop of another thread. The
owner drops the task and the loop resumes it; each read, write and release is one atomic step,
and the steps come in any order.
-/
namespace OrderBookServer.TaskRelease

/-- Where the owner stands in `destroy`, by its next step. -/
inductive OwnerState
  | readDone
  | readEventBase
  | readTaskPtr
  | release
  | setRelease
  | finished
deriving DecidableEq

/-- Where the loop stands in `check_handle`, by its next step. A task that is suspended or in the
queue is `ready`. -/
inductive LoopState
  | ready
  | checkDone
  | resume
  | readDone
  | readEventBase
  | readRelease
  | release
  | finished
deriving DecidableEq

/-- `releases` counts how often the `TaskInfo` was returned to the pool, which destroys the frame,
and `usedAfter` tells whether the frame or the `TaskInfo` was used after that. -/
structure State where
  isDone : Bool
  isTaskRelease : Bool
  owner : OwnerState
  loop : LoopState
  releases : ℕ
  usedAfter : Bool

/-- `completes` tells whether the task comes to its end where it is resumed. -/
inductive Action
  | destroy
  | checkHandle (completes : Bool)

def init : State := ⟨false, false, .readDone, .ready, 0, false⟩

namespace State

variable (s : State)

/-- The frame or the `TaskInfo` is used. -/
def use : State := { s with usedAfter := s.usedAfter || decide (0 < s.releases) }

def destroy : Option State :=
  match s.owner with
  | .readDone => some { s.use with owner := if s.isDone then .readEventBase else .setRelease }
  | .readEventBase => some { s.use with owner := .readTaskPtr }
  | .readTaskPtr => some { s.use with owner := .release }
  | .release => some { s.use with releases := s.releases + 1, owner := .finished }
  | .setRelease => some { s.use with isTaskRelease := true, owner := .finished }
  | .finished => none

def checkHandle (completes : Bool) : Option State :=
  match s.loop with
  | .ready => some { s with loop := .checkDone }
  | .checkDone => some { s.use with loop := if s.isDone then .finished else .resume }
  | .resume => some { s.use with isDone := completes, loop := .readDone }
  | .readDone => some { s.use with loop := if s.isDone then .readEventBase else .ready }
  -- A `TaskInfo` that was released has no event base.
  | .readEventBase => some { s.use with loop := if s.releases = 0 then .readRelease else .finished }
  | .readRelease => some { s.use with loop := if s.isTaskRelease then .release else .finished }
  | .release => some { s.use with releases := s.releases + 1, loop := .finished }
  | .finished => none

def step : Action → Option State
  | .destroy => s.destroy
  | .checkHandle completes => s.checkHandle completes

/-- The owner sets `is_task_release` before the loop has read it for the last time, and releases
the `TaskInfo` after that. -/
def InOrder : Action → Prop
  | .destroy =>
    (s.owner = .setRelease → s.loop ≠ .finished) ∧ (s.owner = .release → s.loop = .finished)
  | .checkHandle _ => True

instance (a : Action) : Decidable (s.InOrder a) :=
  match a with
  | .destroy => inferInstanceAs (Decidable ((_ → _) ∧ (_ → _)))
  | .checkHandle _ => instDecidableTrue

end State

/-- The `TaskInfo` is released once, and nothing is used after that. -/
structure ReleasedOnce (s : State) : Prop where
  once : s.owner = .finished → s.loop = .finished → s.releases = 1
  atMost : s.releases ≤ 1
  unused : s.usedAfter = false

/-- The owner has found the task done and has not released it yet. -/
def OwnerState.isReleasing : OwnerState → Bool
  | .readEventBase => true
  | .readTaskPtr => true
  | .release => true
  | _ => false

/-- The loop stands where the task is not done. -/
def LoopState.isBefore : LoopState → Bool
  | .ready => true
  | .checkDone => true
  | .resume => true
  | .readDone => true
  | _ => false

/-- The loop stands where the task is done. -/
def LoopState.isAfter : LoopState → Bool
  | .readDone => true
  | .readEventBase => true
  | .readRelease => true
  | .release => true
  | .finished => true
  | _ => false

structure Inv (s : State) : Prop where
  before : s.isDone = false → s.loop.isBefore = true
  after : s.isDone = true → s.loop.isAfter = true
  found : s.owner.isReleasing = true → s.isDone = true
  told : s.isTaskRelease = true → s.owner = .finished
  heard : s.loop = .release → s.isTaskRelease = true
  left : s.owner = .finished → s.loop ≠ .finished → s.isTaskRelease = true
  none : ¬ (s.owner = .finished ∧ s.loop = .finished) → s.releases = 0
  one : s.owner = .finished → s.loop = .finished → s.releases = 1
  unused : s.usedAfter = false

section Steps

variable {s s' : State} {a : Action} {completes : Bool}

theorem inv_init : Inv init where
  before _ := rfl
  after h := by cases h
  found h := by cases h
  told h := by cases h
  heard h := by cases h
  left h := by cases h
  none _ := rfl
  one h := by cases h
  unused := rfl

/-- Where one of the two is not finished, nothing has been released, so nothing is used after. -/
theorem Inv.use_eq (h : Inv s) (hbusy : ¬ (s.owner = .finished ∧ s.loop = .finished)) :
    s.use = s := by
  have hzero : decide (0 < s.releases) = false := by
    rw [h.none hbusy]
    rfl
  unfold State.use
  rw [hzero, Bool.or_false]

/-- The owner goes on, but not to its end. -/
theorem Inv.ownerGoesOn (h : Inv s) (owner : OwnerState) (hbusy : s.owner ≠ .finished)
    (hnext : owner ≠ .finished) (hfound : owner.isReleasing = true → s.isDone = true) :
    Inv { s with owner := owner } where
  before := h.before
  after := h.after
  found := hfound
  told hflag := absurd (h.told hflag) hbusy
  heard := h.heard
  left hend := absurd hend hnext
  none _ := h.none fun hboth => hbusy hboth.1
  one hend := absurd hend hnext
  unused := h.unused

/-- The loop goes on, but not to its end. -/
theorem Inv.loopGoesOn (h : Inv s) (loop : LoopState) {done : Bool} (hbusy : s.loop ≠ .finished)
    (hnext : loop ≠ .finished) (hbefore : done = false → loop.isBefore = true)
    (hafter : done = true → loop.isAfter = true) (hmono : s.isDone = true → done = true)
    (hheard : loop = .release → s.isTaskRelease = true) :
    Inv { s with isDone := done, loop := loop } where
  before := hbefore
  after := hafter
  found hfound := hmono (h.found hfound)
  told := h.told
  heard := hheard
  left hend _ := h.left hend hbusy
  none _ := h.none fun hboth => hbusy hboth.2
  one _ hend := absurd hend hnext
  unused := h.unused

/-- What a step of the owner in order preserves. -/
theorem Inv.destroy (h : Inv s) (horder : s.InOrder .destroy) (hstep : s.destroy = some s') :
    Inv s' := by
  obtain ⟨hset, hrelease⟩ := horder
  unfold State.destroy at hstep
  by_cases hend : s.owner = .finished
  · simp [hend] at hstep
  rw [h.use_eq fun hboth => hend hboth.1] at hstep
  have hflag : s.isTaskRelease ≠ true := fun hflag => hend (h.told hflag)
  cases howner : s.owner with
  | finished => exact absurd howner hend
  | readDone =>
    simp only [howner] at hstep
    cases hstep
    cases hdone : s.isDone with
    | false =>
      have hnext := h.ownerGoesOn .setRelease hend (by simp) fun hf => by cases hf
      rw [hdone] at hnext
      exact hnext
    | true =>
      have hnext := h.ownerGoesOn .readEventBase hend (by simp) fun _ => hdone
      rw [hdone] at hnext
      exact hnext
  | readEventBase =>
    simp only [howner] at hstep
    cases hstep
    exact h.ownerGoesOn _ hend (by simp) fun _ => h.found (by rw [howner]; rfl)
  | readTaskPtr =>
    simp only [howner] at hstep
    cases hstep
    exact h.ownerGoesOn _ hend (by simp) fun _ => h.found (by rw [howner]; rfl)
  | release =>
    simp only [howner] at hstep
    cases hstep
    have hloop := hrelease howner
    refine ⟨h.before, h.after, fun hf => ?_, fun hf => absurd hf hflag, h.heard,
      fun _ hbusy => absurd hloop hbusy, fun hbusy => absurd ⟨rfl, hloop⟩ hbusy, fun _ _ => ?_,
      h.unused⟩
    · cases hf
    · show s.releases + 1 = 1
      rw [h.none fun hboth => hend hboth.1]
  | setRelease =>
    simp only [howner] at hstep
    cases hstep
    exact ⟨h.before, h.after, fun hf => by simp [OwnerState.isReleasing] at hf, fun _ => rfl,
      fun _ => rfl, fun _ _ => rfl, fun _ => h.none fun hboth => hend hboth.1,
      fun _ hloop => absurd hloop (hset howner), h.unused⟩

theorem Inv.not_done (h : Inv s) (hloop : s.loop.isAfter = false) : s.isDone = false := by
  cases hdone : s.isDone with
  | false => rfl
  | true =>
    rw [h.after hdone] at hloop
    cases hloop

theorem Inv.done (h : Inv s) (hloop : s.loop.isBefore = false) : s.isDone = true := by
  cases hdone : s.isDone with
  | true => rfl
  | false =>
    rw [h.before hdone] at hloop
    cases hloop

/-- The loop has read `is_task_release` for the last time and found it unset. -/
theorem Inv.loopLeaves (h : Inv s) (hdone : s.isDone = true) (hbusy : s.loop ≠ .finished)
    (hflag : s.isTaskRelease = false) : Inv { s with loop := .finished } where
  before hd := by
    change s.isDone = false at hd
    rw [hdone] at hd
    cases hd
  after _ := rfl
  found := h.found
  told := h.told
  heard hend := by cases hend
  left _ hend := absurd rfl hend
  none _ := h.none fun hboth => hbusy hboth.2
  one howner _ := by
    have htold := h.left howner hbusy
    rw [hflag] at htold
    cases htold
  unused := h.unused

/-- The loop releases the `TaskInfo` of an owner that is gone. -/
theorem Inv.loopReleases (h : Inv s) (hloop : s.loop = .release) :
    Inv { s with releases := s.releases + 1, loop := .finished } where
  before hd := by
    have hdone := h.done (by rw [hloop]; rfl)
    change s.isDone = false at hd
    rw [hdone] at hd
    cases hd
  after _ := rfl
  found := h.found
  told := h.told
  heard hend := by cases hend
  left _ hend := absurd rfl hend
  none hboth := absurd ⟨h.told (h.heard hloop), rfl⟩ hboth
  one _ _ := by
    show s.releases + 1 = 1
    rw [h.none fun hboth => by rw [hloop] at hboth; cases hboth.2]
  unused := h.unused

/-- What a step of the loop preserves. -/
theorem Inv.checkHandle (h : Inv s) (hstep : s.checkHandle completes = some s') : Inv s' := by
  unfold State.checkHandle at hstep
  by_cases hend : s.loop = .finished
  · simp [hend] at hstep
  rw [h.use_eq fun hboth => hend hboth.2] at hstep
  cases hloop : s.loop with
  | finished => exact absurd hloop hend
  | ready =>
    have hdone := h.not_done (by rw [hloop]; rfl)
    simp only [hloop] at hstep
    cases hstep
    exact h.loopGoesOn _ hend (by simp) (fun _ => rfl) (fun hd => by rw [hdone] at hd; cases hd)
      (fun hd => hd) fun hr => by cases hr
  | checkDone =>
    have hdone := h.not_done (by rw [hloop]; rfl)
    simp only [hloop, hdone, Bool.false_eq_true, if_false] at hstep
    cases hstep
    exact h.loopGoesOn _ hend (by simp) (fun _ => rfl) (fun hd => by cases hd)
      (fun hd => by rw [hdone] at hd; cases hd) fun hr => by cases hr
  | resume =>
    have hdone := h.not_done (by rw [hloop]; rfl)
    simp only [hloop] at hstep
    cases hstep
    exact h.loopGoesOn _ hend (by simp) (fun _ => rfl) (fun _ => rfl)
      (fun hd => by rw [hdone] at hd; cases hd) fun hr => by cases hr
  | readDone =>
    cases hdone : s.isDone with
    | false =>
      simp only [hloop, hdone, Bool.false_eq_true, if_false] at hstep
      cases hstep
      exact h.loopGoesOn _ hend (by simp) (fun _ => rfl) (fun hd => by cases hd)
        (fun hd => by rw [hdone] at hd; cases hd) fun hr => by cases hr
    | true =>
      simp only [hloop, hdone, if_true] at hstep
      cases hstep
      exact h.loopGoesOn _ hend (by simp) (fun hd => by cases hd) (fun _ => rfl) (fun _ => rfl)
        fun hr => by cases hr
  | readEventBase =>
    have hdone := h.done (by rw [hloop]; rfl)
    simp only [hloop, if_pos (h.none fun hboth => hend hboth.2)] at hstep
    cases hstep
    exact h.loopGoesOn .readRelease hend (by simp)
      (fun hd => by rw [hdone] at hd; cases hd) (fun _ => rfl) (fun hd => hd) fun hr => by cases hr
  | readRelease =>
    have hdone := h.done (by rw [hloop]; rfl)
    cases hflag : s.isTaskRelease with
    | false =>
      simp only [hloop, hflag, Bool.false_eq_true, if_false] at hstep
      cases hstep
      have hnext := h.loopLeaves hdone hend hflag
      rw [hflag] at hnext
      exact hnext
    | true =>
      simp only [hloop, hflag, if_true] at hstep
      cases hstep
      have hnext := h.loopGoesOn .release hend (by simp)
        (fun hd => by rw [hdone] at hd; cases hd) (fun _ => rfl) (fun hd => hd) fun _ => hflag
      rw [hflag] at hnext
      exact hnext
  | release =>
    simp only [hloop] at hstep
    cases hstep
    exact h.loopReleases hloop

theorem Inv.step (h : Inv s) (horder : s.InOrder a) (hstep : s.step a = some s') : Inv s' := by
  cases a with
  | destroy => exact h.destroy horder hstep
  | checkHandle completes => exact h.checkHandle hstep

theorem Inv.releasedOnce (h : Inv s) : ReleasedOnce s := by
  refine ⟨h.one, ?_, h.unused⟩
  by_cases hboth : s.owner = .finished ∧ s.loop = .finished
  · exact Nat.le_of_eq (h.one hboth.1 hboth.2)
  · rw [h.none hboth]
    exact Nat.zero_le 1

/-- Each step that the loop has left once the task is done uses it. -/
theorem exists_usedAfter (hreleased : 0 < s.releases) (hloop : s.loop.isAfter = true)
    (hbusy : s.loop ≠ .finished) : ∃ t, s.step (.checkHandle false) = some t ∧
      t.usedAfter = true := by
  have huse : s.use.usedAfter = true := by
    show (s.usedAfter || decide (0 < s.releases)) = true
    rw [decide_eq_true hreleased, Bool.or_true]
  unfold State.step State.checkHandle
  cases hs : s.loop with
  | ready =>
    rw [hs] at hloop
    cases hloop
  | checkDone =>
    rw [hs] at hloop
    cases hloop
  | resume =>
    rw [hs] at hloop
    cases hloop
  | finished => exact absurd hs hbusy
  | readDone => exact ⟨_, rfl, huse⟩
  | readEventBase => exact ⟨_, rfl, huse⟩
  | readRelease => exact ⟨_, rfl, huse⟩
  | release => exact ⟨_, rfl, huse⟩

/-- A step of the owner out of order loses the `TaskInfo`, or the loop goes on to use it. -/
theorem Inv.exists_bad (h : Inv s) (hnot : ¬ s.InOrder a) (hstep : s.step a = some s') :
    ∃ t, Runs.Reaches State.step (fun _ _ => True) s' t ∧ ¬ ReleasedOnce t := by
  cases a with
  | checkHandle completes => exact absurd trivial hnot
  | destroy =>
    change s.destroy = some s' at hstep
    unfold State.destroy at hstep
    by_cases hset : s.owner = .setRelease ∧ s.loop = .finished
    · obtain ⟨howner, hloop⟩ := hset
      have hzero : s.releases = 0 := h.none fun hboth => by rw [howner] at hboth; cases hboth.1
      simp only [howner] at hstep
      cases hstep
      refine ⟨_, .start, fun hgood => ?_⟩
      have hone : s.releases = 1 := hgood.once rfl hloop
      rw [hzero] at hone
      cases hone
    · have hrelease : s.owner = .release ∧ s.loop ≠ .finished := by
        by_contra hno
        exact hnot ⟨fun howner hloop => hset ⟨howner, hloop⟩,
          fun howner => not_not.mp fun hloop => hno ⟨howner, hloop⟩⟩
      obtain ⟨howner, hloop⟩ := hrelease
      have hdone := h.found (by rw [howner]; rfl)
      simp only [howner] at hstep
      cases hstep
      obtain ⟨t, hnext, hused⟩ := exists_usedAfter
        (s := { s.use with releases := s.releases + 1, owner := .finished })
        (Nat.succ_pos _) (h.after hdone) hloop
      refine ⟨t, .step .start trivial hnext, fun hgood => ?_⟩
      rw [hgood.unused] at hused
      cases hused

end Steps

section Releasing

variable {s : State}

/-- As long as the owner drops the task in order it is released once, with nothing used after; and
once it does not, the `TaskInfo` is lost or used after its release. -/
theorem releasedOnce_of_inOrder (h : Runs.Reaches State.step State.InOrder init s) :
    ReleasedOnce s ∧ ∀ a t, ¬ s.InOrder a → s.step a = some t → ∃ u,
      Runs.Reaches State.step (fun _ _ => True) t u ∧ ¬ ReleasedOnce u := by
  have hinv : Inv s := h.invariant (fun _ _ _ hs horder hstep => hs.step horder hstep) inv_init
  exact ⟨hinv.releasedOnce, fun _ _ hnot hstep => hinv.exists_bad hnot hstep⟩

/-- A task that is dropped while it is suspended, and is then resumed to its end. -/
theorem releasedOnce_of_inOrder_suspended : ∃ s : State,
    Runs.Reaches State.step State.InOrder init s ∧ s.owner = .finished ∧ s.loop = .finished ∧
      s.releases = 1 ∧ ReleasedOnce s := by
  have hrun := Runs.Reaches.follow [.checkHandle false, .checkHandle false, .checkHandle false,
    .checkHandle false, .destroy, .destroy, .checkHandle false, .checkHandle false,
    .checkHandle true, .checkHandle false, .checkHandle false, .checkHandle false,
    .checkHandle false] (.start : Runs.Reaches State.step State.InOrder init init) rfl
  exact ⟨_, hrun, rfl, rfl, rfl, (releasedOnce_of_inOrder hrun).1⟩

/-- The owner finds the task not done, and sets `is_task_release` when the loop has come to the
end of the task and gone. -/
theorem not_releasedOnce_late : ¬ ∀ s : State,
    Runs.Reaches State.step (fun _ _ => True) init s → ReleasedOnce s := by
  intro hall
  have hrun := Runs.Reaches.follow [.destroy, .checkHandle false, .checkHandle false,
    .checkHandle true, .checkHandle false, .checkHandle false, .checkHandle false, .destroy]
    (.start : Runs.Reaches State.step (fun _ _ => True) init init) rfl
  have honce := (hall _ hrun).once rfl rfl
  cases honce

end Releasing

end OrderBookServer.TaskRelease
