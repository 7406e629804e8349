import OrderBookServer.EventLoopInvariant

/-!
The owners of started tasks. Where the steps are in order, what a loop has resumed is there, and a
task that is at its end is still to be destroyed by its loop or by its owner.
-/
namespace OrderBookServer.EventLoop

open Coroutine

variable {L A V : Type} {s s' : State L A V}

/-- A started task without the flag has an owner. At its end its loop is about to look at the flag,
or its owner, who finds it done when the loop has looked, destroys it. -/
structure Settled (s : State L A V) : Prop where
  there : ∀ loop i, s.current loop = some i → ∃ promise, s.promises i = some promise
  flagged : ∀ i promise, s.promises i = some promise → promise.suspendingPromise = none →
    promise.isTaskRelease = false → s.owner i ≠ .gone
  kept : ∀ i promise, s.promises i = some promise → promise.suspendingPromise = none →
    promise.point.isDone = true → s.current promise.eventBase = some i ∨ s.owner i = .holds ∨
      s.owner i = .removes
  apart : ∀ i promise, s.promises i = some promise → s.owner i = .removes →
    s.current promise.eventBase ≠ some i

/-- A step that only concerns the queues, the futures and the log. -/
theorem Settled.frame (h : Settled s) (hpromises : s'.promises = s.promises)
    (howner : s'.owner = s.owner) (hcurrent : s'.current = s.current) : Settled s' where
  there := by
    rw [hcurrent, hpromises]
    exact h.there
  flagged := by
    rw [hpromises, howner]
    exact h.flagged
  kept := by
    rw [hpromises, howner, hcurrent]
    exact h.kept
  apart := by
    rw [hpromises, howner, hcurrent]
    exact h.apart

/-- No loop is at a coroutine that is not there. -/
theorem Settled.away (h : Settled s) {i : ℕ} (hi : s.promises i = none) (loop : L) :
    s.current loop ≠ some i := by
  intro hcurrent
  obtain ⟨promise, hpromise⟩ := h.there loop i hcurrent
  rw [hi] at hpromise
  cases hpromise

/-- An owner that has not dropped its task and is not about to set the flag. -/
theorem Owner.cases_of {o : Owner} (hgone : o ≠ .gone) (hmarks : o ≠ .marks) :
    o = .holds ∨ o = .removes := by
  cases o with
  | gone => exact absurd rfl hgone
  | holds => exact .inl rfl
  | marks => exact absurd rfl hmarks
  | removes => exact .inr rfl

section Moves

attribute [local grind =] Function.update_apply Point.isDone

/-- The coroutine that a loop is at comes to another point. -/
theorem Settled.setPoint (h : Settled s) {i : ℕ} {promise : Promise L A V}
    (hi : s.promises i = some promise) (hcurrent : s.current promise.eventBase = some i)
    (point : Point L A V) : Settled (s.setPoint i promise point) := by
  obtain ⟨hthere, hflagged, hkept, hapart⟩ := h
  constructor <;> simp only [State.setPoint] <;> grind

/-- A coroutine that no loop is at is destroyed. -/
theorem Settled.remove (h : Settled s) {i : ℕ} (hidle : ∀ loop, s.current loop ≠ some i) :
    Settled { s with
      promises := Function.update s.promises i none
      destroyed := s.destroyed ++ [i] } := by
  obtain ⟨hthere, hflagged, hkept, hapart⟩ := h
  constructor <;> grind

/-- The owner of a task reads whether it is done, which the loop has looked at then. -/
theorem Settled.drop (h : Settled s) {i : ℕ} {promise : Promise L A V}
    {found : Owner} (hi : s.promises i = some promise)
    (hfound : found = if promise.point.isDone then .removes else .marks)
    (hdone : promise.point.isDone = true → s.current promise.eventBase ≠ some i) :
    Settled { s with owner := Function.update s.owner i found } := by
  obtain ⟨hthere, hflagged, hkept, hapart⟩ := h
  exact ⟨hthere, by grind, by grind, by grind⟩

/-- The owner of a task sets the flag, before the loop looks at it. -/
theorem Settled.mark (h : Settled s) {i : ℕ} {promise : Promise L A V}
    (hi : s.promises i = some promise) (hmarks : s.owner i = .marks) : Settled { s with
      promises := Function.update s.promises i (some { promise with isTaskRelease := true })
      owner := Function.update s.owner i .gone } := by
  obtain ⟨hthere, hflagged, hkept, hapart⟩ := h
  exact ⟨by grind, by grind, by grind, by grind⟩

/-- The owner of a task destroys it, after the loop has looked at it. -/
theorem Settled.release (h : Settled s) (hlinked : Linked s) {i : ℕ} {promise : Promise L A V}
    (hi : s.promises i = some promise) (hremoves : s.owner i = .removes) : Settled { s with
      promises := Function.update s.promises i none
      destroyed := s.destroyed ++ [i]
      owner := Function.update s.owner i .gone } := by
  obtain ⟨hthere, hflagged, hkept, hapart⟩ := h
  have hbusy := @hlinked.busy
  exact ⟨by grind, by grind, by grind, by grind⟩

variable [DecidableEq L]

/-- The coroutine that a loop is at is suspended. -/
theorem Settled.suspend (h : Settled s) {i : ℕ} {promise : Promise L A V} {point : Point L A V}
    (hi : s.promises i = some promise) (hcurrent : s.current promise.eventBase = some i)
    (hpoint : point.isDone = false) : Settled { s.setPoint i promise point with
      current := Function.update s.current promise.eventBase none } := by
  obtain ⟨hthere, hflagged, hkept, hapart⟩ := h
  constructor <;> simp only [State.setPoint] <;> grind

/-- An idle loop goes on with a coroutine. -/
theorem Settled.resume (h : Settled s) {i : ℕ} {promise : Promise L A V}
    (hi : s.promises i = some promise) (hidle : s.current promise.eventBase = none)
    (howner : s.owner i ≠ .removes) (code : Coroutine L A V) :
    Settled (s.resume promise.eventBase i promise code) := by
  obtain ⟨hthere, hflagged, hkept, hapart⟩ := h
  constructor <;> simp only [State.resume, State.setPoint] <;> grind

/-- A coroutine calls one that was just created. -/
theorem Settled.register (h : Settled s) (hnew : s.promises s.nextPromise = none) (loop : L)
    (task : Coroutine L A V) (caller root : ℕ) :
    Settled (s.registerOn loop task (some caller) root) := by
  have haway := h.away hnew
  obtain ⟨hthere, hflagged, hkept, hapart⟩ := h
  constructor <;> simp only [State.registerOn] <;> grind

/-- A task is started, and its owner holds it. -/
theorem Settled.start (h : Settled s) (hnew : s.promises s.nextPromise = none) (loop : L)
    (task : Coroutine L A V) : Settled (s.startRunningOn loop task) := by
  have haway := h.away hnew
  obtain ⟨hthere, hflagged, hkept, hapart⟩ := h
  constructor <;> simp only [State.startRunningOn, State.registerOn] <;> grind

/-- A loop looks at a task at its end and leaves it to its owner. -/
theorem Settled.keep (h : Settled s) {i : ℕ} {promise : Promise L A V}
    (hi : s.promises i = some promise) (hcurrent : s.current promise.eventBase = some i)
    (howner : promise.suspendingPromise = none → s.owner i = .holds ∨ s.owner i = .removes) :
    Settled { s with current := Function.update s.current promise.eventBase none } := by
  obtain ⟨hthere, hflagged, hkept, hapart⟩ := h
  constructor <;> grind

/-- A loop looks at a task at its end and destroys it. -/
theorem Settled.leave (h : Settled s) {i : ℕ} {loop : L} (hcurrent : s.current loop = some i)
    (honly : ∀ other, s.current other = some i → other = loop) : Settled { s with
      current := Function.update s.current loop none
      promises := Function.update s.promises i none
      destroyed := s.destroyed ++ [i] } := by
  obtain ⟨hthere, hflagged, hkept, hapart⟩ := h
  constructor <;> grind

theorem Settled.loopMove {loop : L} (h : Settled s) (hlinked : Linked s)
    (hmove : LoopMove s loop s')
    (hlooks : ∀ i promise, s.current loop = some i → s.promises i = some promise →
      promise.point.isDone = true → s.owner i ≠ .marks) : Settled s' := by
  have hnew : s.promises s.nextPromise = none := hlinked.tree.fresh
  have hunknown : ∀ {i promise} p, s.promises i = some promise →
      Function.update s.promises i p s.nextPromise = none := by
    intro i promise p hi
    rw [Function.update_of_ne, hnew]
    intro heq
    rw [← heq, hnew] at hi
    cases hi
  have hat : ∀ {i promise code}, s.promises i = some promise → promise.point = .running code →
      s.current promise.eventBase = some i :=
    fun hi hpoint => ((hlinked.stands _ _ hi).running _ hpoint).1
  -- Only a task at its end is to be destroyed by its owner.
  have hremoves : ∀ {i promise}, s.promises i = some promise → promise.point.isDone = false →
      s.owner i ≠ .removes := by
    intro i promise hi hpoint howner
    rw [hlinked.owned.removes i promise howner hi] at hpoint
    cases hpoint
  cases hmove with
  | resume hi hready hlost hidle hpoint =>
    have howner := hremoves hi (by rw [hpoint]; rfl)
    exact (h.resume hi hidle howner _).frame rfl rfl rfl
  | @resumeTask i task promise awaited next v hi hready hlost hidle hpoint htask hdone =>
    have howner := hremoves hi (by rw [hpoint]; rfl)
    obtain ⟨_, hawaited, hcalled, _⟩ := (hlinked.stands i promise hi).onTask task next hpoint
    obtain rfl := Option.some.inj (htask.symm.trans hawaited)
    obtain ⟨_, hlt, caller, _, hcaller, _, _, hloop⟩ :=
      hlinked.tree.called task awaited i htask hcalled
    obtain rfl := Option.some.inj (hi.symm.trans hcaller)
    have haway : ∀ loop, s.current loop ≠ some task := by
      intro loop hcurrent
      obtain ⟨rfl, _⟩ := hlinked.busy hcurrent htask
      rw [← hloop, hidle] at hcurrent
      cases hcurrent
    have hstays : Function.update s.promises task none i = some promise := by
      rw [Function.update_of_ne (by omega), hi]
    exact ((h.remove haway).resume hstays hidle howner _).frame rfl rfl rfl
  | resumeFuture hi hready hlost hidle hpoint hfuture =>
    have howner := hremoves hi (by rw [hpoint]; rfl)
    exact (h.resume hi hidle howner _).frame rfl rfl rfl
  | finish hi hpoint hroot => exact (h.setPoint hi (hat hi hpoint) _).frame rfl rfl rfl
  | coReturn hi hpoint hj => exact (h.setPoint hi (hat hi hpoint) _).frame rfl rfl rfl
  | act hi hpoint => exact (h.setPoint hi (hat hi hpoint) _).frame rfl rfl rfl
  | @startTask i promise loop task next hi hpoint =>
    have hset : Settled ((s.emit promise.root (.started loop task)).setPoint i promise
        (.running next)) := (h.setPoint hi (hat hi hpoint) _).frame rfl rfl rfl
    exact hset.start (hunknown _ hi) loop task
  | awaitTask hi hpoint =>
    exact (h.suspend hi (hat hi hpoint) rfl).register (hunknown _ hi) _ _ _ _
  | awaitFuture hi hpoint => exact (h.suspend hi (hat hi hpoint) rfl).frame rfl rfl rfl
  | @keep i promise v hi hcurrent hpoint hrelease =>
    -- The flag is not set, so the owner still holds the task or has found it done.
    refine h.keep hi hcurrent fun hroot => ?_
    have hmarks := hlooks i promise hcurrent hi (by rw [hpoint]; rfl)
    exact Owner.cases_of (h.flagged i promise hi hroot hrelease) hmarks
  | @remove i promise v hi hcurrent hpoint hrelease =>
    exact h.leave hcurrent fun loop hloop => (hlinked.busy hloop hi).1.symm

theorem step_of_next {a : Action L A V} (hs : s.next a = some s') :
    s.step a = .ok (some s') := by
  unfold State.next at hs
  cases hstep : s.step a with
  | error e =>
    rw [hstep] at hs
    cases hs
  | ok t =>
    rw [hstep] at hs
    exact congrArg Except.ok hs

theorem Settled.setValue (h : Settled s) (hlinked : Linked s) {future : ℕ} {v : V}
    (hs : s.setValue future v = .ok (some s')) : Settled s' := by
  cases hfuture : s.futures future with
  | none =>
    rw [State.setValue, hfuture] at hs
    cases hs
  | some futureValue =>
    obtain ⟨value, i⟩ := futureValue
    cases value with
    | some u =>
      rw [State.setValue, hfuture] at hs
      cases hs
      exact h
    | none =>
      obtain ⟨_, promise, next, hi, _⟩ := hlinked.future future none i hfuture
      rw [setValue_eq v hfuture hi] at hs
      cases hs
      exact h.frame rfl rfl rfl

omit [DecidableEq L] in
theorem Settled.finishDrop (h : Settled s) (hlinked : Linked s) {i : ℕ}
    (hs : s.finishDrop i = .ok (some s')) : Settled s' := by
  rw [State.finishDrop] at hs
  cases howner : s.owner i with
  | marks =>
    obtain ⟨promise, hi, _⟩ := hlinked.owned.there i (by rw [howner]; nofun)
    rw [howner, find_eq hi] at hs
    cases hs
    exact h.mark hi howner
  | removes =>
    obtain ⟨promise, hi, _⟩ := hlinked.owned.there i (by rw [howner]; nofun)
    rw [howner, removeFromEventBase_eq promise hi] at hs
    cases hs
    exact h.release hlinked hi howner
  | _ =>
    rw [howner] at hs
    cases hs

theorem Settled.checkHandle (h : Settled s) (hlinked : Linked s) {loop : L} {i : ℕ}
    (hs : s.checkHandle loop i = .ok (some s')) : Settled s' := by
  by_cases hcan : s.current loop = none ∧ i ∈ s.ready loop ∧ i ∉ s.lost
  · obtain ⟨t, ht, hmove⟩ := hlinked.checkHandle hcan.1 hcan.2.1 hcan.2.2
    rw [ht] at hs
    cases hs
    refine h.loopMove hlinked hmove fun k promise hk => ?_
    rw [hcan.1] at hk
    cases hk
  · rw [State.checkHandle, if_neg hcan] at hs
    cases hs

theorem Settled.advance (h : Settled s) (hlinked : Linked s) {loop : L}
    (hlooks : ∀ i promise, s.current loop = some i → s.promises i = some promise →
      promise.point.isDone = true → s.owner i ≠ .marks)
    (hs : s.advance loop = .ok (some s')) : Settled s' := by
  cases hcurrent : s.current loop with
  | none =>
    rw [State.advance, hcurrent] at hs
    cases hs
  | some i =>
    obtain ⟨promise, hi⟩ := h.there loop i hcurrent
    obtain ⟨t, ht, hmove⟩ := hlinked.advance hcurrent hi
    rw [ht] at hs
    cases hs
    exact h.loopMove hlinked hmove hlooks

/-- A step that is in order leaves the owners and the loops in agreement. -/
theorem Settled.next (h : Settled s) (hlinked : Linked s) {a : Action L A V}
    (hin : s.InOrder a) (hs : s.next a = some s') : Settled s' := by
  have hstep := step_of_next hs
  cases a with
  | startRunningOn loop task =>
    cases hstep
    exact h.start hlinked.tree.fresh loop task
  | setValue future v => exact h.setValue hlinked hstep
  | exhaust exhausted =>
    cases hstep
    exact h.frame rfl rfl rfl
  | drop i =>
    rw [State.step, State.drop] at hstep
    cases howner : s.owner i with
    | holds =>
      obtain ⟨promise, hi, _⟩ := hlinked.owned.there i (by rw [howner]; nofun)
      rw [howner, find_eq hi] at hstep
      cases hstep
      exact h.drop hi rfl (hin promise hi)
    | _ =>
      rw [howner] at hstep
      cases hstep
  | finishDrop i => exact h.finishDrop hlinked hstep
  | checkHandle loop i => exact h.checkHandle hlinked hstep
  | advance loop =>
    exact h.advance hlinked (fun i promise hi hpromise => hin i hi promise hpromise) hstep

end Moves

end OrderBookServer.EventLoop
