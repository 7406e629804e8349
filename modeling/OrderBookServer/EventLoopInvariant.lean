import Mathlib.Data.List.Nodup
import OrderBookServer.EventLoop

/-!
What holds of the event loops in every order of their steps. `Linked` says how the coroutines, the
queues, the futures and the owners refer to one another, and that every coroutine is set ready
exactly when it can go on.
-/
namespace OrderBookServer.EventLoop

open Coroutine

variable {L A V : Type}

/-- The coroutine runs or is behind its last statement. -/
def Point.isBusy : Point L A V → Bool
  | .running _ => true
  | .done _ => true
  | _ => false

/-- The coroutines that are there. A called one is awaited by its caller, on the same loop, and a
started one is its own root. -/
structure Tree (promises : ℕ → Option (Promise L A V)) (nextPromise : ℕ) (destroyed : List ℕ) :
    Prop where
  known : ∀ i promise, promises i = some promise → i < nextPromise
  started : ∀ i promise, promises i = some promise → promise.suspendingPromise = none →
    promise.root = i
  called : ∀ i promise j, promises i = some promise → promise.suspendingPromise = some j →
    promise.isTaskRelease = false ∧ j < i ∧ ∃ caller next, promises j = some caller ∧
      caller.point = .onTask i next ∧ caller.root = promise.root ∧
        caller.eventBase = promise.eventBase
  gone : ∀ i, i ∈ destroyed ↔ i < nextPromise ∧ promises i = none
  once : destroyed.Nodup

/-- What is owned is a started task that is there and that no loop may destroy. -/
structure Owned (promises : ℕ → Option (Promise L A V)) (owner : ℕ → Owner) : Prop where
  there : ∀ i, owner i ≠ .gone → ∃ promise, promises i = some promise ∧
    promise.suspendingPromise = none ∧ promise.isTaskRelease = false
  removes : ∀ i promise, owner i = .removes → promises i = some promise →
    promise.point.isDone = true

/-- A coroutine is ready on its loop exactly if it is suspended and can go on. -/
structure Stands (s : State L A V) (i : ℕ) (promise : Promise L A V) : Prop where
  running : ∀ code, promise.point = .running code →
    s.current promise.eventBase = some i ∧ i ∉ s.ready promise.eventBase
  initial : ∀ code, promise.point = .initial code → i ∈ s.ready promise.eventBase
  onTask : ∀ task next, promise.point = .onTask task next → ∃ awaited,
    s.promises task = some awaited ∧ awaited.suspendingPromise = some i ∧
      (i ∈ s.ready promise.eventBase ↔ awaited.point.isDone = true)
  onFuture : ∀ future next, promise.point = .onFuture future next → ∃ value,
    s.futures future = some ⟨value, i⟩ ∧
      (i ∈ s.ready promise.eventBase ↔ value.isSome = true)
  done : ∀ v, promise.point = .done v → i ∉ s.ready promise.eventBase

structure Linked (s : State L A V) : Prop where
  tree : Tree s.promises s.nextPromise s.destroyed
  stands : ∀ i promise, s.promises i = some promise → Stands s i promise
  queued : ∀ loop i, i ∈ s.ready loop → ∃ promise, s.promises i = some promise ∧
    promise.eventBase = loop
  nodup : ∀ loop, (s.ready loop).Nodup
  lost : ∀ i ∈ s.lost, ∃ loop, i ∈ s.ready loop
  current : ∀ loop i, s.current loop = some i → i ∈ s.destroyed ∨
    ∃ promise, s.promises i = some promise ∧ promise.eventBase = loop ∧ promise.point.isBusy = true
  owned : Owned s.promises s.owner
  future : ∀ future value i, s.futures future = some ⟨value, i⟩ → future < s.nextFuture ∧
    ∃ promise next, s.promises i = some promise ∧ promise.point = .onFuture future next
  returned : ∀ i promise v, s.promises i = some promise →
    (s.promiseValue i = some v ↔ promise.point = .done v)
  fresh : ∀ i, s.nextPromise ≤ i → s.promiseValue i = none

section Tree

variable {promises : ℕ → Option (Promise L A V)} {nextPromise i : ℕ} {destroyed : List ℕ}
  {promise : Promise L A V}

/-- Nobody is called by a coroutine that does not await a task. -/
theorem Tree.leaf (h : Tree promises nextPromise destroyed) (hi : promises i = some promise)
    (hpoint : ∀ task next, promise.point ≠ .onTask task next) {k : ℕ} {other : Promise L A V}
    (hk : promises k = some other) : other.suspendingPromise ≠ some i := by
  intro hcalled
  obtain ⟨_, _, caller, next, hcaller, hat, _⟩ := h.called k other i hk hcalled
  rw [hi] at hcaller
  cases hcaller
  exact hpoint k next hat

theorem Tree.fresh (h : Tree promises nextPromise destroyed) : promises nextPromise = none := by
  cases hnext : promises nextPromise with
  | none => rfl
  | some promise => exact absurd (h.known _ promise hnext) (Nat.lt_irrefl _)

/-- A coroutine that calls nobody goes on. -/
theorem Tree.setPoint (h : Tree promises nextPromise destroyed) (hi : promises i = some promise)
    (hleaf : ∀ k other, promises k = some other → other.suspendingPromise ≠ some i)
    (point : Point L A V) :
    Tree (Function.update promises i (some { promise with point := point })) nextPromise
      destroyed where
  known := by
    have hknown := h.known
    grind [Function.update_apply]
  started := by
    have hstarted := h.started
    grind [Function.update_apply]
  called k other j hk hj := by
    have hold : ∃ old, promises k = some old ∧ old.suspendingPromise = some j ∧
        old.isTaskRelease = other.isTaskRelease ∧ old.root = other.root ∧
          old.eventBase = other.eventBase := by
      grind [Function.update_apply]
    obtain ⟨old, hold, hcalled, hrelease, hroot, hloop⟩ := hold
    obtain ⟨hkept, hlt, caller, next, hcaller, hat, hcroot, hcloop⟩ := h.called k old j hold hcalled
    have hji : j ≠ i := by
      rintro rfl
      exact hleaf k old hold hcalled
    exact ⟨hrelease ▸ hkept, hlt, caller, next, by rw [Function.update_of_ne hji, hcaller], hat,
      hcroot.trans hroot, hcloop.trans hloop⟩
  gone := by
    have hgone := h.gone
    grind [Function.update_apply]
  once := h.once

/-- A task is started. -/
theorem Tree.start (h : Tree promises nextPromise destroyed) (point : Point L A V) (loop : L) :
    Tree (Function.update promises nextPromise (some ⟨point, none, loop, false, nextPromise⟩))
      (nextPromise + 1) destroyed where
  known := by
    have hknown := h.known
    grind [Function.update_apply]
  started := by
    have hstarted := h.started
    grind [Function.update_apply]
  called := by
    have hcalled := h.called
    have hknown := h.known
    grind [Function.update_apply]
  gone := by
    have hgone := h.gone
    have hfresh := h.fresh
    grind [Function.update_apply]
  once := h.once

/-- A coroutine that calls nobody calls a task. -/
theorem Tree.call (h : Tree promises nextPromise destroyed) (hi : promises i = some promise)
    (hleaf : ∀ k other, promises k = some other → other.suspendingPromise ≠ some i)
    (point : Point L A V) (next : V → Coroutine L A V) :
    Tree (Function.update
      (Function.update promises i (some { promise with point := .onTask nextPromise next }))
      nextPromise (some ⟨point, some i, promise.eventBase, false, promise.root⟩))
      (nextPromise + 1) destroyed := by
  have hset := h.setPoint hi hleaf (.onTask nextPromise next)
  have hlt := h.known i promise hi
  refine ⟨?_, ?_, fun k other j hk hj => ?_, ?_, h.once⟩
  · have hknown := hset.known
    grind [Function.update_apply]
  · have hstarted := hset.started
    grind [Function.update_apply]
  · by_cases hknew : k = nextPromise
    · subst hknew
      rw [Function.update_self] at hk
      cases hk
      cases hj
      exact ⟨rfl, hlt, { promise with point := .onTask k next }, next,
        by rw [Function.update_of_ne (Nat.ne_of_lt hlt), Function.update_self], rfl, rfl, rfl⟩
    · rw [Function.update_of_ne hknew] at hk
      obtain ⟨hkept, hltk, caller, next', hcaller, hrest⟩ := hset.called k other j hk hj
      have hjnew : j ≠ nextPromise :=
        Nat.ne_of_lt (Nat.lt_trans hltk (hset.known k other hk))
      exact ⟨hkept, hltk, caller, next', by rw [Function.update_of_ne hjnew, hcaller], hrest⟩
  · have hgone := hset.gone
    have hfresh := hset.fresh
    grind [Function.update_apply]

/-- The owner of a started task leaves it to the loop. -/
theorem Tree.mark (h : Tree promises nextPromise destroyed) (hi : promises i = some promise)
    (hroot : promise.suspendingPromise = none) :
    Tree (Function.update promises i (some { promise with isTaskRelease := true })) nextPromise
      destroyed where
  known := by
    have hknown := h.known
    grind [Function.update_apply]
  started := by
    have hstarted := h.started
    grind [Function.update_apply]
  called k other j hk hj := by
    have hold : ∃ old, promises k = some old ∧ old.suspendingPromise = some j ∧
        old.isTaskRelease = other.isTaskRelease ∧ old.root = other.root ∧
          old.eventBase = other.eventBase := by
      grind [Function.update_apply]
    obtain ⟨old, hold, hcalled, hrelease, hroot', hloop⟩ := hold
    obtain ⟨hkept, hlt, caller, next, hcaller, hat, hcroot, hcloop⟩ := h.called k old j hold hcalled
    refine ⟨hrelease ▸ hkept, hlt, ?_⟩
    by_cases hji : j = i
    · subst hji
      cases hi.symm.trans hcaller
      exact ⟨_, next, Function.update_self .., hat, hcroot.trans hroot', hcloop.trans hloop⟩
    · exact ⟨caller, next, by rw [Function.update_of_ne hji, hcaller], hat, hcroot.trans hroot',
        hcloop.trans hloop⟩
  gone := by
    have hgone := h.gone
    grind [Function.update_apply]
  once := h.once

/-- A coroutine that calls nobody is destroyed. -/
theorem Tree.drop (h : Tree promises nextPromise destroyed) (hi : promises i = some promise)
    (hleaf : ∀ k other, promises k = some other → other.suspendingPromise ≠ some i) :
    Tree (Function.update promises i none) nextPromise (destroyed ++ [i]) where
  known := by
    have hknown := h.known
    grind [Function.update_apply]
  started := by
    have hstarted := h.started
    grind [Function.update_apply]
  called := by
    have hcalled := h.called
    grind [Function.update_apply]
  gone := by
    have hgone := h.gone
    have hknown := h.known
    grind [Function.update_apply]
  once := by
    have honce := h.once
    have hgone := h.gone
    grind

end Tree

section Owned

variable {promises : ℕ → Option (Promise L A V)} {owner : ℕ → Owner} {i k : ℕ}
  {promise created : Promise L A V}

/-- A coroutine that is not at its end goes on. -/
theorem Owned.setPoint (h : Owned promises owner) (hi : promises i = some promise)
    (hpoint : promise.point.isDone = false) (point : Point L A V) :
    Owned (Function.update promises i (some { promise with point := point })) owner where
  there := by
    have hthere := h.there
    grind [Function.update_apply]
  removes := by
    have hremoves := h.removes
    grind [Function.update_apply]

/-- A coroutine is created that nobody owns. -/
theorem Owned.create (h : Owned promises owner) (hk : promises k = none) :
    Owned (Function.update promises k (some created)) owner where
  there := by
    have hthere := h.there
    grind [Function.update_apply]
  removes := by
    have hthere := h.there
    have hremoves := h.removes
    grind [Function.update_apply]

theorem Owned.start (h : Owned promises owner) (hroot : created.suspendingPromise = none)
    (hkept : created.isTaskRelease = false) :
    Owned (Function.update promises k (some created)) (Function.update owner k .holds) where
  there := by
    have hthere := h.there
    grind [Function.update_apply]
  removes := by
    have hremoves := h.removes
    grind [Function.update_apply]

/-- A coroutine is destroyed that nobody owns. -/
theorem Owned.destroy (h : Owned promises owner) (hi : promises i = some promise)
    (hfree : promise.suspendingPromise ≠ none ∨ promise.isTaskRelease = true) :
    Owned (Function.update promises i none) owner where
  there := by
    have hthere := h.there
    grind [Function.update_apply]
  removes := by
    have hremoves := h.removes
    grind [Function.update_apply]

/-- The owner of a task has read whether it is done. -/
theorem Owned.drop (h : Owned promises owner) (hi : promises i = some promise)
    (hholds : owner i = .holds) {found : Owner}
    (hfound : found = if promise.point.isDone then .removes else .marks) :
    Owned promises (Function.update owner i found) where
  there := by
    have hthere := h.there
    grind [Function.update_apply]
  removes := by
    have hremoves := h.removes
    grind [Function.update_apply]

/-- The owner of a task has dropped it, and changed at most the task. -/
theorem Owned.leave (h : Owned promises owner) (after : Option (Promise L A V)) :
    Owned (Function.update promises i after) (Function.update owner i .gone) where
  there := by
    have hthere := h.there
    grind [Function.update_apply]
  removes := by
    have hremoves := h.removes
    grind [Function.update_apply]

end Owned

section Moves

variable {s : State L A V}

@[simp] theorem find_eq {i : ℕ} {promise : Promise L A V} (hi : s.promises i = some promise) :
    s.find i = .ok promise := by
  unfold State.find
  rw [hi]
  rfl

theorem removeFromEventBase_eq {i : ℕ} (promise : Promise L A V)
    (hi : s.promises i = some promise) : s.removeFromEventBase i = .ok { s with
      promises := Function.update s.promises i none
      destroyed := s.destroyed ++ [i] } := by
  unfold State.removeFromEventBase
  rw [find_eq hi]
  rfl

theorem Linked.futures_nextFuture (h : Linked s) : s.futures s.nextFuture = none := by
  cases hnext : s.futures s.nextFuture with
  | none => rfl
  | some future => exact absurd (h.future _ _ _ hnext).1 (Nat.lt_irrefl _)

theorem Linked.onTask_lt (h : Linked s) {i task : ℕ} {promise : Promise L A V}
    {next : V → Coroutine L A V} (hi : s.promises i = some promise)
    (hpoint : promise.point = .onTask task next) :
    i < task ∧ ∃ awaited, s.promises task = some awaited ∧ awaited.root = promise.root := by
  obtain ⟨awaited, htask, hcalled, _⟩ := (h.stands i promise hi).onTask task next hpoint
  obtain ⟨_, hlt, caller, _, hcaller, _, hroot, _⟩ := h.tree.called task awaited i htask hcalled
  cases hi.symm.trans hcaller
  exact ⟨hlt, awaited, htask, hroot.symm⟩

/-- What a coroutine sees that takes no part in a step. -/
theorem Stands.frame {s' : State L A V} {k : ℕ} {other : Promise L A V} (h : Stands s k other)
    (hready : k ∈ s'.ready other.eventBase ↔ k ∈ s.ready other.eventBase)
    (hcurrent : s.current other.eventBase = some k → s'.current other.eventBase = some k)
    (htask : ∀ task awaited, s.promises task = some awaited →
      awaited.suspendingPromise = some k → ∃ awaited', s'.promises task = some awaited' ∧
        awaited'.suspendingPromise = some k ∧ awaited'.point.isDone = awaited.point.isDone)
    (hfuture : ∀ future value, s.futures future = some ⟨value, k⟩ →
      s'.futures future = some ⟨value, k⟩) : Stands s' k other where
  running code hat := by
    obtain ⟨hat, hnot⟩ := h.running code hat
    exact ⟨hcurrent hat, by rw [hready]; exact hnot⟩
  initial code hat := hready.mpr (h.initial code hat)
  onTask task next hat := by
    obtain ⟨awaited, hawaited, hcalled, hiff⟩ := h.onTask task next hat
    obtain ⟨awaited', hawaited', hcalled', hdone⟩ := htask task awaited hawaited hcalled
    exact ⟨awaited', hawaited', hcalled', by rw [hready, hiff, hdone]⟩
  onFuture future next hat := by
    obtain ⟨value, hvalue, hiff⟩ := h.onFuture future next hat
    exact ⟨value, hfuture future value hvalue, by rw [hready, hiff]⟩
  done v hat := by
    rw [hready]
    exact h.done v hat

/-- The coroutine that takes part in a step, and the others. -/
theorem Stands.of_update {promises : ℕ → Option (Promise L A V)} {s' : State L A V} {i : ℕ}
    {promise : Promise L A V} (hpromises : s'.promises = Function.update promises i (some promise))
    (hself : Stands s' i promise)
    (hother : ∀ k other, k ≠ i → promises k = some other → Stands s' k other) :
    ∀ k other, s'.promises k = some other → Stands s' k other := by
  intro k other hk
  rw [hpromises] at hk
  by_cases hki : k = i
  · subst hki
    rw [Function.update_self] at hk
    cases hk
    exact hself
  · rw [Function.update_of_ne hki] at hk
    exact hother k other hki hk

variable [DecidableEq L]

/-- What a step of a loop can come to: it concerns a coroutine on the loop. -/
inductive LoopMove (s : State L A V) : L → State L A V → Prop
  | resume {i : ℕ} {promise : Promise L A V} {code : Coroutine L A V}
      (hi : s.promises i = some promise) (hready : i ∈ s.ready promise.eventBase)
      (hkept : i ∉ s.lost) (hidle : s.current promise.eventBase = none)
      (hpoint : promise.point = .initial code) :
      LoopMove s promise.eventBase (({ s with
        ready := Function.update s.ready promise.eventBase
          ((s.ready promise.eventBase).erase i) } : State L A V).resume
        promise.eventBase i promise code)
  | resumeTask {i task : ℕ} {promise awaited : Promise L A V} {next : V → Coroutine L A V} {v : V}
      (hi : s.promises i = some promise) (hready : i ∈ s.ready promise.eventBase)
      (hkept : i ∉ s.lost) (hidle : s.current promise.eventBase = none)
      (hpoint : promise.point = .onTask task next)
      (htask : s.promises task = some awaited) (hdone : awaited.point = .done v) :
      LoopMove s promise.eventBase (({ s with
        ready := Function.update s.ready promise.eventBase
          ((s.ready promise.eventBase).erase i)
        promises := Function.update s.promises task none
        destroyed := s.destroyed ++ [task] } : State L A V).resume
        promise.eventBase i promise (next v))
  | resumeFuture {i future : ℕ} {promise : Promise L A V} {next : V → Coroutine L A V} {v : V}
      (hi : s.promises i = some promise) (hready : i ∈ s.ready promise.eventBase)
      (hkept : i ∉ s.lost) (hidle : s.current promise.eventBase = none)
      (hpoint : promise.point = .onFuture future next)
      (hfuture : s.futures future = some ⟨some v, i⟩) :
      LoopMove s promise.eventBase (({ s.emit promise.root (.received v) with
        ready := Function.update s.ready promise.eventBase
          ((s.ready promise.eventBase).erase i)
        futures := Function.update s.futures future none } : State L A V).resume
        promise.eventBase i promise (next v))
  | finish {i : ℕ} {promise : Promise L A V} {v : V} (hi : s.promises i = some promise)
      (hpoint : promise.point = .running (.coReturn v)) (hroot : promise.suspendingPromise = none) :
      LoopMove s promise.eventBase { s.setPoint i promise (.done v) with
        promiseValue := Function.update s.promiseValue i (some v) }
  | coReturn {i j : ℕ} {promise : Promise L A V} {v : V} (hi : s.promises i = some promise)
      (hpoint : promise.point = .running (.coReturn v))
      (hj : promise.suspendingPromise = some j) :
      LoopMove s promise.eventBase { s.setPoint i promise (.done v) with
        promiseValue := Function.update s.promiseValue i (some v)
        ready := Function.update s.ready promise.eventBase (s.ready promise.eventBase ++ [j])
        lost := s.lostWith promise.eventBase j }
  | act {i : ℕ} {promise : Promise L A V} {a : A} {next : Coroutine L A V}
      (hi : s.promises i = some promise) (hpoint : promise.point = .running (.act a next)) :
      LoopMove s promise.eventBase
        ((s.emit promise.root (.did a)).setPoint i promise (.running next))
  | startTask {i : ℕ} {promise : Promise L A V} {loop : L} {task next : Coroutine L A V}
      (hi : s.promises i = some promise)
      (hpoint : promise.point = .running (.startRunningOn loop task next)) :
      LoopMove s promise.eventBase (((s.emit promise.root (.started loop task)).setPoint i promise
        (.running next)).startRunningOn loop task)
  | awaitTask {i : ℕ} {promise : Promise L A V} {task : Coroutine L A V}
      {next : V → Coroutine L A V} (hi : s.promises i = some promise)
      (hpoint : promise.point = .running (.awaitTask task next)) :
      LoopMove s promise.eventBase (({ s.setPoint i promise (.onTask s.nextPromise next) with
        current := Function.update s.current promise.eventBase none } : State L A V).registerOn
        promise.eventBase task (some i) promise.root)
  | awaitFuture {i : ℕ} {promise : Promise L A V} {next : V → Coroutine L A V}
      (hi : s.promises i = some promise)
      (hpoint : promise.point = .running (.awaitFuture next)) :
      LoopMove s promise.eventBase { s.setPoint i promise (.onFuture s.nextFuture next) with
        futures := Function.update s.futures s.nextFuture (some ⟨none, i⟩)
        nextFuture := s.nextFuture + 1
        current := Function.update s.current promise.eventBase none }
  | keep {i : ℕ} {promise : Promise L A V} {v : V} (hi : s.promises i = some promise)
      (hcurrent : s.current promise.eventBase = some i) (hpoint : promise.point = .done v)
      (hkept : promise.isTaskRelease = false) :
      LoopMove s promise.eventBase { s with
        current := Function.update s.current promise.eventBase none }
  | remove {i : ℕ} {promise : Promise L A V} {v : V} (hi : s.promises i = some promise)
      (hcurrent : s.current promise.eventBase = some i) (hpoint : promise.point = .done v)
      (hrelease : promise.isTaskRelease = true) :
      LoopMove s promise.eventBase { s with
        current := Function.update s.current promise.eventBase none
        promises := Function.update s.promises i none
        destroyed := s.destroyed ++ [i] }

/-- What a step can come to. -/
inductive Move (s : State L A V) : State L A V → Prop
  | start (loop : L) (task : Coroutine L A V) : Move s (s.startRunningOn loop task)
  | set {future i : ℕ} {promise : Promise L A V} (v : V)
      (hfuture : s.futures future = some ⟨none, i⟩) (hi : s.promises i = some promise) :
      Move s { s with
        futures := Function.update s.futures future (some ⟨some v, i⟩)
        ready := Function.update s.ready promise.eventBase (s.ready promise.eventBase ++ [i])
        lost := s.lostWith promise.eventBase i }
  | isSet : Move s s
  | exhaust (exhausted : L → Bool) : Move s { s with exhausted }
  | drop {i : ℕ} {promise : Promise L A V} {found : Owner} (hholds : s.owner i = .holds)
      (hi : s.promises i = some promise)
      (hfound : found = if promise.point.isDone then .removes else .marks) :
      Move s { s with owner := Function.update s.owner i found }
  | mark {i : ℕ} {promise : Promise L A V} (hmarks : s.owner i = .marks)
      (hi : s.promises i = some promise) : Move s { s with
        promises := Function.update s.promises i (some { promise with isTaskRelease := true })
        owner := Function.update s.owner i .gone }
  | release {i : ℕ} {promise : Promise L A V} {v : V} (hremoves : s.owner i = .removes)
      (hi : s.promises i = some promise) (hpoint : promise.point = .done v) : Move s { s with
        promises := Function.update s.promises i none
        destroyed := s.destroyed ++ [i]
        owner := Function.update s.owner i .gone }
  | loop {loop : L} {s' : State L A V} (h : LoopMove s loop s') : Move s s'

theorem setReadyTask_eq {i : ℕ} (promise : Promise L A V) (hi : s.promises i = some promise) :
    s.setReadyTask i = .ok { s with
      ready := Function.update s.ready promise.eventBase
        (s.ready promise.eventBase ++ [i])
      lost := s.lostWith promise.eventBase i } := by
  unfold State.setReadyTask
  rw [find_eq hi]
  rfl

theorem setValue_eq {future i : ℕ} {promise : Promise L A V} (v : V)
    (hfuture : s.futures future = some ⟨none, i⟩) (hi : s.promises i = some promise) :
    s.setValue future v = .ok (some { s with
      futures := Function.update s.futures future (some ⟨some v, i⟩)
      ready := Function.update s.ready promise.eventBase
        (s.ready promise.eventBase ++ [i])
      lost := s.lostWith promise.eventBase i }) := by
  have hset := setReadyTask_eq (s := { s with
    futures := Function.update s.futures future (some ⟨some v, i⟩) }) promise hi
  unfold State.setValue
  rw [hfuture]
  simp only [hset]
  rfl

theorem Linked.setValue (h : Linked s) (future : ℕ) (v : V) :
    s.setValue future v = .ok none ∨ ∃ s', s.setValue future v = .ok (some s') ∧ Move s s' := by
  cases hfuture : s.futures future with
  | none =>
    left
    unfold State.setValue
    rw [hfuture]
    rfl
  | some futureValue =>
    obtain ⟨value, i⟩ := futureValue
    cases value with
    | some u =>
      refine .inr ⟨s, ?_, .isSet⟩
      unfold State.setValue
      rw [hfuture]
      rfl
    | none =>
      obtain ⟨_, promise, next, hi, _⟩ := h.future future none i hfuture
      exact .inr ⟨_, setValue_eq v hfuture hi, .set v hfuture hi⟩

theorem Linked.checkHandle (h : Linked s) {loop : L} {i : ℕ} (hidle : s.current loop = none)
    (hready : i ∈ s.ready loop) (hkept : i ∉ s.lost) :
    ∃ s', s.checkHandle loop i = .ok (some s') ∧ LoopMove s loop s' := by
  unfold State.checkHandle
  rw [if_pos ⟨hidle, hready, hkept⟩]
  obtain ⟨promise, hi, rfl⟩ := h.queued loop i hready
  rw [find_eq hi]
  cases hpoint : promise.point with
  | running code => exact absurd hready ((h.stands i promise hi).running code hpoint).2
  | done v => exact absurd hready ((h.stands i promise hi).done v hpoint)
  | initial code =>
    refine ⟨_, ?_, .resume hi hready hkept hidle hpoint⟩
    show some <$> State.awaitResume _ _ _ _ = _
    unfold State.awaitResume
    rw [hpoint]
    rfl
  | onTask task next =>
    obtain ⟨awaited, htask, _, hiff⟩ := (h.stands i promise hi).onTask task next hpoint
    have hawaited := hiff.mp hready
    cases hdone : awaited.point with
    | done v =>
      refine ⟨_, ?_, .resumeTask hi hready hkept hidle hpoint htask hdone⟩
      show some <$> State.awaitResume _ _ _ _ = _
      unfold State.awaitResume
      simp only [hpoint, State.find, State.destroy, State.removeFromEventBase, htask, hdone,
        pure_bind]
      rfl
    | _ =>
      rw [hdone] at hawaited
      cases hawaited
  | onFuture future next =>
    obtain ⟨value, hfuture, hiff⟩ := (h.stands i promise hi).onFuture future next hpoint
    obtain ⟨v, rfl⟩ := Option.isSome_iff_exists.mp (hiff.mp hready)
    refine ⟨_, ?_, .resumeFuture hi hready hkept hidle hpoint hfuture⟩
    show some <$> State.awaitResume _ _ _ _ = _
    unfold State.awaitResume
    simp only [hpoint, hfuture]
    rfl

omit [DecidableEq L] in
theorem Linked.busy (h : Linked s) {loop : L} {i : ℕ} {promise : Promise L A V}
    (hcurrent : s.current loop = some i) (hi : s.promises i = some promise) :
    promise.eventBase = loop ∧ promise.point.isBusy = true := by
  rcases h.current loop i hcurrent with hgone | ⟨other, hother, hloop, hbusy⟩
  · have hnone := ((h.tree.gone i).mp hgone).2
    rw [hi] at hnone
    cases hnone
  · cases hi.symm.trans hother
    exact ⟨hloop, hbusy⟩

theorem Linked.coReturn (h : Linked s) {i : ℕ} {promise : Promise L A V} {v : V}
    (hi : s.promises i = some promise) (hpoint : promise.point = .running (.coReturn v)) :
    ∃ s', s.coReturn i promise v = .ok s' ∧ LoopMove s promise.eventBase s' := by
  unfold State.coReturn
  cases hj : promise.suspendingPromise with
  | none => exact ⟨_, rfl, .finish hi hpoint hj⟩
  | some j =>
    obtain ⟨_, hlt, caller, next, hcaller, _, _, hloop⟩ := h.tree.called i promise j hi hj
    have hcaller' : (s.setPoint i promise (.done v)).promises j = some caller := by
      show Function.update s.promises i _ j = _
      rw [Function.update_of_ne (Nat.ne_of_lt hlt), hcaller]
    have hset := setReadyTask_eq (s := { s.setPoint i promise (.done v) with
      promiseValue := Function.update s.promiseValue i (some v) }) caller hcaller'
    rw [hloop] at hset
    exact ⟨_, hset, .coReturn hi hpoint hj⟩

/-- A loop goes on with the coroutine that it has resumed, if that is there. -/
theorem Linked.advance (h : Linked s) {loop : L} {i : ℕ} {promise : Promise L A V}
    (hcurrent : s.current loop = some i) (hi : s.promises i = some promise) :
    ∃ s', s.advance loop = .ok (some s') ∧ LoopMove s loop s' := by
  unfold State.advance
  rw [hcurrent]
  obtain ⟨rfl, hbusy⟩ := h.busy hcurrent hi
  have hmove : ∃ s', s.statement promise.eventBase i promise = .ok s' ∧
      LoopMove s promise.eventBase s' := by
    unfold State.statement
    cases hpoint : promise.point with
    | initial code =>
      rw [hpoint] at hbusy
      cases hbusy
    | onTask task next =>
      rw [hpoint] at hbusy
      cases hbusy
    | onFuture future next =>
      rw [hpoint] at hbusy
      cases hbusy
    | done v =>
      cases hrelease : promise.isTaskRelease with
      | false => exact ⟨_, rfl, .keep hi hcurrent hpoint hrelease⟩
      | true =>
        have hremove := removeFromEventBase_eq (s := { s with
          current := Function.update s.current promise.eventBase none }) promise hi
        exact ⟨_, hremove, .remove hi hcurrent hpoint hrelease⟩
    | running code =>
      cases code with
      | coReturn v => exact h.coReturn hi hpoint
      | act a next => exact ⟨_, rfl, .act hi hpoint⟩
      | startRunningOn l task next => exact ⟨_, rfl, .startTask hi hpoint⟩
      | awaitTask task next => exact ⟨_, rfl, .awaitTask hi hpoint⟩
      | awaitFuture next => exact ⟨_, rfl, .awaitFuture hi hpoint⟩
  obtain ⟨s', hs', hmove⟩ := hmove
  refine ⟨s', ?_, hmove⟩
  show (s.find i >>= fun promise' => some <$> s.statement promise.eventBase i promise') = _
  rw [find_eq hi]
  show some <$> s.statement promise.eventBase i promise = _
  rw [hs']
  rfl

theorem Linked.drop (h : Linked s) (i : ℕ) :
    s.drop i = .ok none ∨ ∃ s', s.drop i = .ok (some s') ∧ Move s s' := by
  unfold State.drop
  cases howner : s.owner i with
  | holds =>
    obtain ⟨promise, hi, _⟩ := h.owned.there i (by rw [howner]; nofun)
    right
    rw [find_eq hi]
    exact ⟨_, rfl, .drop howner hi rfl⟩
  | _ => exact .inl rfl

theorem Linked.finishDrop (h : Linked s) (i : ℕ) :
    s.finishDrop i = .ok none ∨ ∃ s', s.finishDrop i = .ok (some s') ∧ Move s s' := by
  unfold State.finishDrop
  cases howner : s.owner i with
  | marks =>
    obtain ⟨promise, hi, _⟩ := h.owned.there i (by rw [howner]; nofun)
    right
    rw [find_eq hi]
    exact ⟨_, rfl, .mark howner hi⟩
  | removes =>
    obtain ⟨promise, hi, _⟩ := h.owned.there i (by rw [howner]; nofun)
    have hdone := h.owned.removes i promise howner hi
    cases hpoint : promise.point with
    | done v =>
      right
      rw [removeFromEventBase_eq promise hi]
      exact ⟨_, rfl, .release howner hi hpoint⟩
    | _ =>
      rw [hpoint] at hdone
      cases hdone
  | _ => exact .inl rfl

omit [DecidableEq L] in
theorem find_eq_error {i : ℕ} (hi : s.promises i = none) : s.find i = .error .destroyed := by
  unfold State.find
  rw [hi]
  rfl

theorem advance_eq_error {loop : L} {i : ℕ} (hcurrent : s.current loop = some i)
    (hi : s.promises i = none) : s.advance loop = .error .destroyed := by
  unfold State.advance
  rw [hcurrent]
  show (s.find i >>= fun promise => some <$> s.statement loop i promise) = _
  rw [find_eq_error hi]
  rfl

/-- What a step comes to is a move, and only the loop of a coroutine that its owner has destroyed
meanwhile faults. -/
theorem Linked.step (h : Linked s) (a : Action L A V) :
    s.step a = .ok none ∨ (∃ s', s.step a = .ok (some s') ∧ Move s s') ∨
      ∃ loop i, a = .advance loop ∧ s.current loop = some i ∧ s.promises i = none := by
  cases a with
  | startRunningOn loop task => exact .inr (.inl ⟨_, rfl, .start loop task⟩)
  | setValue future v =>
    rcases h.setValue future v with hnone | hmove
    · exact .inl hnone
    · exact .inr (.inl hmove)
  | exhaust exhausted => exact .inr (.inl ⟨_, rfl, .exhaust exhausted⟩)
  | drop i =>
    rcases h.drop i with hnone | hmove
    · exact .inl hnone
    · exact .inr (.inl hmove)
  | finishDrop i =>
    rcases h.finishDrop i with hnone | hmove
    · exact .inl hnone
    · exact .inr (.inl hmove)
  | checkHandle loop i =>
    by_cases hcan : s.current loop = none ∧ i ∈ s.ready loop ∧ i ∉ s.lost
    · obtain ⟨s', hs', hmove⟩ := h.checkHandle hcan.1 hcan.2.1 hcan.2.2
      exact .inr (.inl ⟨s', hs', .loop hmove⟩)
    · exact .inl (if_neg hcan)
  | advance loop =>
    cases hcurrent : s.current loop with
    | none =>
      left
      show s.advance loop = _
      unfold State.advance
      rw [hcurrent]
      rfl
    | some i =>
      cases hi : s.promises i with
      | none => exact .inr (.inr ⟨loop, i, rfl, hcurrent, hi⟩)
      | some promise =>
        obtain ⟨s', hs', hmove⟩ := h.advance hcurrent hi
        exact .inr (.inl ⟨s', hs', .loop hmove⟩)

theorem mem_push {ready : L → List ℕ} {loop loop' : L} {i k : ℕ} :
    k ∈ Function.update ready loop (ready loop ++ [i]) loop' ↔
      k ∈ ready loop' ∨ loop' = loop ∧ k = i := by
  by_cases hloop : loop' = loop
  · subst hloop
    simp
  · simp [hloop]

theorem mem_take {ready : L → List ℕ} {loop loop' : L} {i k : ℕ} (h : (ready loop).Nodup) :
    k ∈ Function.update ready loop ((ready loop).erase i) loop' ↔
      k ∈ ready loop' ∧ ¬ (loop' = loop ∧ k = i) := by
  by_cases hloop : loop' = loop
  · subst hloop
    simp [h.mem_erase_iff, and_comm]
  · simp [hloop]

theorem nodup_push {ready : L → List ℕ} {loop loop' : L} {i : ℕ} (h : (ready loop').Nodup)
    (hi : i ∉ ready loop) :
    (Function.update ready loop (ready loop ++ [i]) loop').Nodup := by
  by_cases hloop : loop' = loop
  · subst hloop
    rw [Function.update_self]
    exact List.nodup_append.mpr ⟨h, List.nodup_singleton i, fun k hk j hj heq =>
      hi (List.mem_singleton.mp hj ▸ heq ▸ hk)⟩
  · rwa [Function.update_of_ne hloop]

theorem nodup_take {ready : L → List ℕ} {loop loop' : L} {i : ℕ} (h : (ready loop').Nodup) :
    (Function.update ready loop ((ready loop).erase i) loop').Nodup := by
  by_cases hloop : loop' = loop
  · subst hloop
    rw [Function.update_self]
    exact h.erase i
  · rwa [Function.update_of_ne hloop]

omit [DecidableEq L] in
theorem mem_lostWith {loop : L} {i k : ℕ} :
    k ∈ s.lostWith loop i ↔ k ∈ s.lost ∨ s.exhausted loop = true ∧ k = i := by
  unfold State.lostWith
  by_cases hfails : s.exhausted loop
  · simp [hfails]
  · simp [hfails]

/-- What is set ready may be lost at once. -/
theorem Linked.lost_push (h : Linked s) (loop : L) (i : ℕ) (k : ℕ)
    (hk : k ∈ s.lostWith loop i) :
    ∃ loop', k ∈ Function.update s.ready loop (s.ready loop ++ [i]) loop' := by
  rcases mem_lostWith.mp hk with hold | ⟨_, rfl⟩
  · obtain ⟨loop', hloop⟩ := h.lost k hold
    exact ⟨loop', mem_push.mpr (.inl hloop)⟩
  · exact ⟨loop, mem_push.mpr (.inr ⟨rfl, rfl⟩)⟩

/-- A loop takes nothing that is lost. -/
theorem Linked.lost_take (h : Linked s) {loop : L} {i : ℕ} (hkept : i ∉ s.lost) (k : ℕ)
    (hk : k ∈ s.lost) :
    ∃ loop', k ∈ Function.update s.ready loop ((s.ready loop).erase i) loop' := by
  obtain ⟨loop', hloop⟩ := h.lost k hk
  refine ⟨loop', (mem_take (h.nodup loop)).mpr ⟨hloop, fun heq => ?_⟩⟩
  exact hkept (heq.2 ▸ hk)

attribute [local grind =] Function.update_apply mem_push mem_take Point.isDone Point.isBusy
attribute [local grind .] nodup_push nodup_take

theorem Linked.start (h : Linked s) (loop : L) (task : Coroutine L A V) :
    Linked (s.startRunningOn loop task) where
  tree := h.tree.start (.initial task) loop
  stands := by
    have hnew := h.tree.fresh
    refine Stands.of_update rfl ?_ fun k other hki hk => ?_
    · constructor <;> simp [State.startRunningOn, State.registerOn]
    · refine (h.stands k other hk).frame ?_ ?_ (fun task awaited ht hc => ?_) fun _ _ hf => hf
      all_goals simp only [State.startRunningOn, State.registerOn]
      all_goals grind
  queued loop' k hk := by
    rcases mem_push.mp hk with hold | ⟨rfl, rfl⟩
    · obtain ⟨promise, hk, hloop⟩ := h.queued loop' k hold
      refine ⟨promise, ?_, hloop⟩
      exact (Function.update_of_ne (Nat.ne_of_lt (h.tree.known k promise hk)) ..).trans hk
    · exact ⟨_, Function.update_self .., rfl⟩
  nodup loop' := nodup_push (h.nodup loop') fun hmem => by
    obtain ⟨promise, hold, _⟩ := h.queued loop _ hmem
    exact Nat.lt_irrefl _ (h.tree.known _ promise hold)
  lost := h.lost_push loop s.nextPromise
  current := by
    have hcurrent := h.current
    have hnew := h.tree.fresh
    simp only [State.startRunningOn, State.registerOn]
    grind
  owned := h.owned.start rfl rfl
  future := by
    have hfuture := h.future
    have hnew := h.tree.fresh
    simp only [State.startRunningOn, State.registerOn]
    grind
  returned := by
    have hreturned := h.returned
    have hfresh := h.fresh
    simp only [State.startRunningOn, State.registerOn]
    grind
  fresh i hi := h.fresh i (Nat.le_of_succ_le hi)

theorem Linked.set (h : Linked s) {future i : ℕ} {promise : Promise L A V} (v : V)
    (hfuture : s.futures future = some ⟨none, i⟩) (hi : s.promises i = some promise) :
    Linked { s with
      futures := Function.update s.futures future (some ⟨some v, i⟩)
      ready := Function.update s.ready promise.eventBase
        (s.ready promise.eventBase ++ [i])
      lost := s.lostWith promise.eventBase i } := by
  obtain ⟨_, other, next, hother, hpoint⟩ := h.future future none i hfuture
  cases hi.symm.trans hother
  obtain ⟨value, hvalue, hiff⟩ := (h.stands i promise hi).onFuture future next hpoint
  cases hfuture.symm.trans hvalue
  have hwaits : i ∉ s.ready promise.eventBase := fun hready => by cases hiff.mp hready
  refine ⟨h.tree, ?_, ?_, fun loop' => nodup_push (h.nodup loop') hwaits, h.lost_push _ i,
    h.current, h.owned, ?_, h.returned, h.fresh⟩
  · intro k other hk
    by_cases hki : k = i
    · subst hki
      cases hi.symm.trans hk
      constructor <;> simp [hpoint]
    · refine (h.stands k other hk).frame ?_ id (fun task awaited ht hc => ⟨awaited, ht, hc, rfl⟩) ?_
      all_goals grind
  · have hqueued := h.queued
    grind
  · have hfut := h.future
    grind

theorem Linked.resume (h : Linked s) {i : ℕ} {promise : Promise L A V} {code : Coroutine L A V}
    (hi : s.promises i = some promise) (hready : i ∈ s.ready promise.eventBase)
    (hkept : i ∉ s.lost) (hidle : s.current promise.eventBase = none)
    (hpoint : promise.point = .initial code) :
    Linked (({ s with
      ready := Function.update s.ready promise.eventBase
        ((s.ready promise.eventBase).erase i) } : State L A V).resume
      promise.eventBase i promise code) where
  tree := h.tree.setPoint hi (fun _ _ hk => h.tree.leaf hi (by simp [hpoint]) hk) _
  stands := by
    have hnodup := h.nodup
    refine Stands.of_update rfl ?_ fun k other hki hk => ?_
    · constructor <;> simp [State.resume, State.setPoint, (h.nodup _).not_mem_erase]
    · refine (h.stands k other hk).frame ?_ ?_ (fun task awaited ht hc => ?_) fun _ _ hf => hf
      all_goals simp only [State.resume, State.setPoint]
      all_goals grind
  queued := by
    have hqueued := h.queued
    have hnodup := h.nodup
    simp only [State.resume, State.setPoint]
    grind
  nodup loop' := nodup_take (h.nodup loop')
  lost := h.lost_take hkept
  current := by
    have hcurrent := h.current
    simp only [State.resume, State.setPoint]
    grind
  owned := h.owned.setPoint hi (by rw [hpoint]; rfl) _
  future := by
    have hfuture := h.future
    simp only [State.resume, State.setPoint]
    grind
  returned := by
    have hreturned := h.returned
    simp only [State.resume, State.setPoint]
    grind
  fresh := h.fresh

theorem Linked.resumeTask (h : Linked s) {i task : ℕ} {promise awaited : Promise L A V}
    {next : V → Coroutine L A V} {v : V} (hi : s.promises i = some promise)
    (hready : i ∈ s.ready promise.eventBase) (hkept : i ∉ s.lost)
    (hidle : s.current promise.eventBase = none) (hpoint : promise.point = .onTask task next)
    (htask : s.promises task = some awaited) (hdone : awaited.point = .done v) :
    Linked (({ s with
      ready := Function.update s.ready promise.eventBase ((s.ready promise.eventBase).erase i)
      promises := Function.update s.promises task none
      destroyed := s.destroyed ++ [task] } : State L A V).resume
      promise.eventBase i promise (next v)) := by
  obtain ⟨_, hawaited, hcalled, _⟩ := (h.stands i promise hi).onTask task next hpoint
  cases htask.symm.trans hawaited
  obtain ⟨_, _, caller, _, hcaller, _, _, hloop⟩ := h.tree.called task awaited i htask hcalled
  cases hi.symm.trans hcaller
  have hit : i ≠ task := by
    rintro rfl
    cases hi.symm.trans htask
    rw [hdone] at hpoint
    cases hpoint
  have hleaf : ∀ k other, s.promises k = some other → other.suspendingPromise ≠ some task :=
    fun _ _ hk => h.tree.leaf htask (by simp [hdone]) hk
  -- Only the awaited task was called by this coroutine, and it is gone.
  have honly : ∀ k other, Function.update s.promises task none k = some other →
      other.suspendingPromise ≠ some i := by
    intro k other hk hcaller
    have hkt : k ≠ task := by
      rintro rfl
      rw [Function.update_self] at hk
      cases hk
    rw [Function.update_of_ne hkt] at hk
    obtain ⟨_, _, _, next', hi', hat, _⟩ := h.tree.called k other i hk hcaller
    cases hi.symm.trans hi'
    rw [hpoint] at hat
    cases hat
    exact hkt rfl
  have htree := (h.tree.drop htask hleaf).setPoint
    (by rw [Function.update_of_ne hit]; exact hi) honly (.running (next v))
  have hnodup := h.nodup
  have hnotReady := (h.stands task awaited htask).done v hdone
  have howned := (h.owned.destroy htask (.inl (by rw [hcalled]; nofun))).setPoint
    (by rw [Function.update_of_ne hit]; exact hi) (by rw [hpoint]; rfl) (.running (next v))
  refine ⟨htree, ?_, ?_, fun loop' => nodup_take (h.nodup loop'), h.lost_take hkept, ?_, howned, ?_,
    ?_, h.fresh⟩
  · refine Stands.of_update rfl ?_ fun k other hki hk => ?_
    · constructor <;> simp [State.resume, State.setPoint, (h.nodup _).not_mem_erase]
    · have hk' : s.promises k = some other := by grind
      refine (h.stands k other hk').frame ?_ ?_ (fun task awaited ht hc => ?_) fun _ _ hf => hf
      all_goals simp only [State.resume, State.setPoint]
      all_goals grind
  · have hqueued := h.queued
    simp only [State.resume, State.setPoint]
    grind
  · have hcurrent := h.current
    simp only [State.resume, State.setPoint]
    grind
  · have hfuture := h.future
    simp only [State.resume, State.setPoint]
    grind
  · have hreturned := h.returned
    simp only [State.resume, State.setPoint]
    grind

theorem Linked.resumeFuture (h : Linked s) {i future : ℕ} {promise : Promise L A V}
    {next : V → Coroutine L A V} {v : V} (hi : s.promises i = some promise)
    (hready : i ∈ s.ready promise.eventBase) (hkept : i ∉ s.lost)
    (hidle : s.current promise.eventBase = none) (hpoint : promise.point = .onFuture future next)
    (hfuture : s.futures future = some ⟨some v, i⟩) :
    Linked (({ s.emit promise.root (.received v) with
      ready := Function.update s.ready promise.eventBase ((s.ready promise.eventBase).erase i)
      futures := Function.update s.futures future none } : State L A V).resume
      promise.eventBase i promise (next v)) where
  tree := h.tree.setPoint hi (fun _ _ hk => h.tree.leaf hi (by simp [hpoint]) hk) _
  stands := by
    have hnodup := h.nodup
    refine Stands.of_update rfl ?_ fun k other hki hk => ?_
    · constructor <;> simp [State.resume, State.setPoint, (h.nodup _).not_mem_erase]
    · refine (h.stands k other hk).frame ?_ ?_ (fun task awaited ht hc => ?_) fun _ _ hf => ?_
      all_goals simp only [State.resume, State.setPoint, State.emit]
      all_goals grind
  queued := by
    have hqueued := h.queued
    have hnodup := h.nodup
    simp only [State.resume, State.setPoint, State.emit]
    grind
  nodup loop' := nodup_take (h.nodup loop')
  lost := h.lost_take hkept
  current := by
    have hcurrent := h.current
    simp only [State.resume, State.setPoint, State.emit]
    grind
  owned := h.owned.setPoint hi (by rw [hpoint]; rfl) _
  future := by
    have hold := h.future
    simp only [State.resume, State.setPoint, State.emit]
    grind
  returned := by
    have hreturned := h.returned
    simp only [State.resume, State.setPoint, State.emit]
    grind
  fresh := h.fresh

omit [DecidableEq L] in
/-- A started task is at its end. -/
theorem Linked.finish (h : Linked s) {i : ℕ} {promise : Promise L A V} {v : V}
    (hi : s.promises i = some promise) (hpoint : promise.point = .running (.coReturn v))
    (hroot : promise.suspendingPromise = none) :
    Linked { s.setPoint i promise (.done v) with
      promiseValue := Function.update s.promiseValue i (some v) } where
  tree := h.tree.setPoint hi (fun _ _ hk => h.tree.leaf hi (by simp [hpoint]) hk) _
  stands := by
    obtain ⟨hcurrent, hready⟩ := (h.stands i promise hi).running _ hpoint
    refine Stands.of_update rfl ?_ fun k other hki hk => ?_
    · constructor <;> simp [State.setPoint, hcurrent, hready]
    · refine (h.stands k other hk).frame ?_ ?_ (fun task awaited ht hc => ?_) fun _ _ hf => hf
      all_goals simp only [State.setPoint]
      all_goals grind
  queued := by
    have hqueued := h.queued
    simp only [State.setPoint]
    grind
  nodup := h.nodup
  lost := h.lost
  current := by
    have hcurrent := h.current
    simp only [State.setPoint]
    grind
  owned := h.owned.setPoint hi (by rw [hpoint]; rfl) _
  future := by
    have hfuture := h.future
    simp only [State.setPoint]
    grind
  returned := by
    have hreturned := h.returned
    simp only [State.setPoint]
    grind
  fresh := by
    have hfresh := h.fresh
    have hknown := h.tree.known
    simp only [State.setPoint]
    grind

/-- A called coroutine is at its end, and its caller is ready. -/
theorem Linked.answer (h : Linked s) {i j : ℕ} {promise : Promise L A V} {v : V}
    (hi : s.promises i = some promise) (hpoint : promise.point = .running (.coReturn v))
    (hj : promise.suspendingPromise = some j) :
    Linked { s.setPoint i promise (.done v) with
      promiseValue := Function.update s.promiseValue i (some v)
      ready := Function.update s.ready promise.eventBase
        (s.ready promise.eventBase ++ [j])
      lost := s.lostWith promise.eventBase j } := by
  obtain ⟨_, hlt, caller, next, hcaller, hat, _, hloop⟩ := h.tree.called i promise j hi hj
  obtain ⟨_, hself, _, hiff⟩ := (h.stands j caller hcaller).onTask i next hat
  cases hi.symm.trans hself
  have hwaits : j ∉ s.ready promise.eventBase := by
    rw [← hloop, hiff]
    simp [hpoint, Point.isDone]
  obtain ⟨hcurrent, hready⟩ := (h.stands i promise hi).running _ hpoint
  have hne : j ≠ i := Nat.ne_of_lt hlt
  refine ⟨h.tree.setPoint hi (fun _ _ hk => h.tree.leaf hi (by simp [hpoint]) hk) _, ?_, ?_,
    fun loop' => nodup_push (h.nodup loop') hwaits, h.lost_push _ j, ?_,
    h.owned.setPoint hi (by rw [hpoint]; rfl) _, ?_, ?_, ?_⟩
  · refine Stands.of_update rfl ?_ fun k other hki hk => ?_
    · constructor <;> simp [State.setPoint, hready, hne.symm]
    · by_cases hkj : k = j
      · subst hkj
        cases hcaller.symm.trans hk
        constructor <;> simp [State.setPoint, hat, hloop, Point.isDone, hj]
      · refine (h.stands k other hk).frame ?_ ?_ (fun task awaited ht hc => ?_) fun _ _ hf => hf
        all_goals simp only [State.setPoint]
        all_goals grind
  · have hqueued := h.queued
    simp only [State.setPoint]
    grind
  · have hcur := h.current
    simp only [State.setPoint]
    grind
  · have hfuture := h.future
    simp only [State.setPoint]
    grind
  · have hreturned := h.returned
    simp only [State.setPoint]
    grind
  · have hfresh := h.fresh
    have hknown := h.tree.known
    simp only [State.setPoint]
    grind

omit [DecidableEq L] in
/-- A running coroutine is at its next statement. -/
theorem Linked.act (h : Linked s) {i : ℕ} {promise : Promise L A V} {code : Coroutine L A V}
    (hi : s.promises i = some promise) (hpoint : promise.point = .running code)
    (event : Event L A V) (next : Coroutine L A V) :
    Linked ((s.emit promise.root event).setPoint i promise (.running next)) where
  tree := h.tree.setPoint hi (fun _ _ hk => h.tree.leaf hi (by simp [hpoint]) hk) _
  stands := by
    obtain ⟨hcurrent, hready⟩ := (h.stands i promise hi).running _ hpoint
    refine Stands.of_update rfl ?_ fun k other hki hk => ?_
    · constructor <;> simp [State.setPoint, State.emit, hcurrent, hready]
    · refine (h.stands k other hk).frame ?_ ?_ (fun task awaited ht hc => ?_) fun _ _ hf => hf
      all_goals simp only [State.setPoint, State.emit]
      all_goals grind
  queued := by
    have hqueued := h.queued
    simp only [State.setPoint, State.emit]
    grind
  nodup := h.nodup
  lost := h.lost
  current := by
    have hcurrent := h.current
    simp only [State.setPoint, State.emit]
    grind
  owned := h.owned.setPoint hi (by rw [hpoint]; rfl) _
  future := by
    have hfuture := h.future
    simp only [State.setPoint, State.emit]
    grind
  returned := by
    have hreturned := h.returned
    simp only [State.setPoint, State.emit]
    grind
  fresh := h.fresh

theorem Linked.awaitTask (h : Linked s) {i : ℕ} {promise : Promise L A V}
    {task : Coroutine L A V} {next : V → Coroutine L A V} (hi : s.promises i = some promise)
    (hpoint : promise.point = .running (.awaitTask task next)) :
    Linked (({ s.setPoint i promise (.onTask s.nextPromise next) with
      current := Function.update s.current promise.eventBase none } : State L A V).registerOn
      promise.eventBase task (some i) promise.root) := by
  have hnew := h.tree.fresh
  have hlt := h.tree.known i promise hi
  have hnotQueued : ∀ loop, s.nextPromise ∉ s.ready loop := by
    intro loop hmem
    obtain ⟨other, hother, _⟩ := h.queued loop _ hmem
    rw [hnew] at hother
    cases hother
  obtain ⟨hcurrent, hready⟩ := (h.stands i promise hi).running _ hpoint
  have hleaf : ∀ k other, s.promises k = some other → other.suspendingPromise ≠ some i :=
    fun _ _ hk => h.tree.leaf hi (by simp [hpoint]) hk
  refine ⟨h.tree.call hi hleaf _ next, ?_, ?_,
    fun loop' => nodup_push (h.nodup loop') (hnotQueued _), h.lost_push _ s.nextPromise, ?_,
    (h.owned.setPoint hi (by rw [hpoint]; rfl) _).create ?_, ?_, ?_, ?_⟩
  · refine Stands.of_update rfl ?_ fun k other hkn hk => ?_
    · constructor <;> simp [State.registerOn]
    · simp only [State.setPoint] at hk hkn
      by_cases hki : k = i
      · subst hki
        rw [Function.update_self] at hk
        cases hk
        constructor <;> simp [State.registerOn, State.setPoint, hready, hkn, Point.isDone]
      · rw [Function.update_of_ne hki] at hk
        refine (h.stands k other hk).frame ?_ ?_ (fun task awaited ht hc => ?_) fun _ _ hf => hf
        all_goals simp only [State.registerOn, State.setPoint]
        all_goals grind
  · have hqueued := h.queued
    simp only [State.registerOn, State.setPoint]
    grind
  · have hcur := h.current
    simp only [State.registerOn, State.setPoint]
    grind
  · exact (Function.update_of_ne (Nat.ne_of_gt hlt) ..).trans hnew
  · have hfuture := h.future
    simp only [State.registerOn, State.setPoint]
    grind
  · have hreturned := h.returned
    have hfresh := h.fresh
    simp only [State.registerOn, State.setPoint]
    grind
  · have hfresh := h.fresh
    simp only [State.registerOn, State.setPoint]
    grind

theorem Linked.awaitFuture (h : Linked s) {i : ℕ} {promise : Promise L A V}
    {next : V → Coroutine L A V} (hi : s.promises i = some promise)
    (hpoint : promise.point = .running (.awaitFuture next)) :
    Linked { s.setPoint i promise (.onFuture s.nextFuture next) with
      futures := Function.update s.futures s.nextFuture (some ⟨none, i⟩)
      nextFuture := s.nextFuture + 1
      current := Function.update s.current promise.eventBase none } := by
  have hnew := h.futures_nextFuture
  obtain ⟨hcurrent, hready⟩ := (h.stands i promise hi).running _ hpoint
  refine ⟨h.tree.setPoint hi (fun _ _ hk => h.tree.leaf hi (by simp [hpoint]) hk) _, ?_, ?_,
    h.nodup, h.lost, ?_, h.owned.setPoint hi (by rw [hpoint]; rfl) _, ?_, ?_, h.fresh⟩
  · refine Stands.of_update rfl ?_ fun k other hki hk => ?_
    · constructor <;> simp [State.setPoint, hready]
    · refine (h.stands k other hk).frame ?_ ?_ (fun task awaited ht hc => ?_) fun _ _ hf => ?_
      all_goals simp only [State.setPoint]
      all_goals grind
  · have hqueued := h.queued
    simp only [State.setPoint]
    grind
  · have hcur := h.current
    simp only [State.setPoint]
    grind
  · intro future value k hf
    simp only [State.setPoint] at hf ⊢
    by_cases hfn : future = s.nextFuture
    · subst hfn
      rw [Function.update_self] at hf
      cases hf
      exact ⟨Nat.lt_succ_self _, _, next, Function.update_self .., rfl⟩
    · rw [Function.update_of_ne hfn] at hf
      have hold := h.future future value k hf
      grind
  · have hreturned := h.returned
    simp only [State.setPoint]
    grind

theorem Linked.keep (h : Linked s) {i : ℕ} {promise : Promise L A V} {v : V}
    (hi : s.promises i = some promise) (hcurrent : s.current promise.eventBase = some i)
    (hpoint : promise.point = .done v) :
    Linked { s with current := Function.update s.current promise.eventBase none } := by
  refine ⟨h.tree, fun k other hk => ?_, h.queued, h.nodup, h.lost, ?_, h.owned, h.future,
    h.returned, h.fresh⟩
  · by_cases hki : k = i
    · subst hki
      cases hi.symm.trans hk
      constructor <;> simp [hpoint, (h.stands k promise hi).done v hpoint]
    · refine (h.stands k other hk).frame Iff.rfl ?_ (fun task awaited ht hc =>
        ⟨awaited, ht, hc, rfl⟩) fun _ _ hf => hf
      grind
  · have hcur := h.current
    grind

omit [DecidableEq L] in
/-- A coroutine that is at its end and that nobody awaits is destroyed. -/
theorem Linked.destroy (h : Linked s) {i : ℕ} {promise : Promise L A V} {v : V}
    {current : L → Option ℕ} {owner : ℕ → Owner} (hi : s.promises i = some promise)
    (hpoint : promise.point = .done v) (hroot : promise.suspendingPromise = none)
    (hcurrent : ∀ loop k, current loop = some k → s.current loop = some k)
    (hothers : ∀ loop k, k ≠ i → s.current loop = some k → current loop = some k)
    (howned : Owned (Function.update s.promises i none) owner) : Linked { s with
      current := current
      promises := Function.update s.promises i none
      destroyed := s.destroyed ++ [i]
      owner := owner } := by
  have hready := (h.stands i promise hi).done v hpoint
  refine ⟨h.tree.drop hi fun _ _ hk => h.tree.leaf hi (by simp [hpoint]) hk, fun k other hk => ?_,
    ?_, h.nodup, h.lost, ?_, howned, ?_, ?_, h.fresh⟩
  · have hki : k ≠ i := by grind
    have hk' : s.promises k = some other := by grind
    refine (h.stands k other hk').frame Iff.rfl (hothers _ k hki) (fun task awaited ht hc => ?_)
      fun _ _ hf => hf
    grind
  · have hqueued := h.queued
    grind
  · have hcur := h.current
    grind
  · have hfuture := h.future
    grind
  · have hreturned := h.returned
    grind

theorem Linked.remove (h : Linked s) {i : ℕ} {promise : Promise L A V} {v : V}
    (hi : s.promises i = some promise) (hcurrent : s.current promise.eventBase = some i)
    (hpoint : promise.point = .done v) (hrelease : promise.isTaskRelease = true) :
    Linked { s with
      current := Function.update s.current promise.eventBase none
      promises := Function.update s.promises i none
      destroyed := s.destroyed ++ [i] } := by
  have hroot : promise.suspendingPromise = none := by
    cases hj : promise.suspendingPromise with
    | none => rfl
    | some j =>
      have hkept := (h.tree.called i promise j hi hj).1
      rw [hrelease] at hkept
      cases hkept
  refine h.destroy hi hpoint hroot ?_ ?_ (h.owned.destroy hi (.inr hrelease))
  · grind
  · grind

omit [DecidableEq L] in
/-- The owner of a started task leaves it to the loop. -/
theorem Linked.mark (h : Linked s) {i : ℕ} {promise : Promise L A V}
    (hmarks : s.owner i = .marks) (hi : s.promises i = some promise) : Linked { s with
      promises := Function.update s.promises i (some { promise with isTaskRelease := true })
      owner := Function.update s.owner i .gone } := by
  obtain ⟨other, hother, hroot, _⟩ := h.owned.there i (by rw [hmarks]; nofun)
  cases hi.symm.trans hother
  refine ⟨h.tree.mark hi hroot, ?_, ?_, h.nodup, h.lost, ?_, h.owned.leave _, ?_, ?_, h.fresh⟩
  · have hself := h.stands i promise hi
    have hmarked : Stands s i { promise with isTaskRelease := true } :=
      ⟨hself.running, hself.initial, hself.onTask, hself.onFuture, hself.done⟩
    refine Stands.of_update rfl ?_ fun k other hki hk => ?_
    · refine hmarked.frame Iff.rfl id (fun task awaited ht hc => ?_) fun _ _ hf => hf
      grind
    · refine (h.stands k other hk).frame Iff.rfl id (fun task awaited ht hc => ?_) fun _ _ hf => hf
      grind
  · have hqueued := h.queued
    grind
  · have hcur := h.current
    grind
  · have hfuture := h.future
    grind
  · have hreturned := h.returned
    grind

theorem Linked.loopMove {loop : L} {s' : State L A V} (h : Linked s)
    (hmove : LoopMove s loop s') : Linked s' := by
  cases hmove with
  | resume hi hready hkept hidle hpoint => exact h.resume hi hready hkept hidle hpoint
  | resumeTask hi hready hkept hidle hpoint htask hdone =>
    exact h.resumeTask hi hready hkept hidle hpoint htask hdone
  | resumeFuture hi hready hkept hidle hpoint hfuture =>
    exact h.resumeFuture hi hready hkept hidle hpoint hfuture
  | finish hi hpoint hroot => exact h.finish hi hpoint hroot
  | coReturn hi hpoint hj => exact h.answer hi hpoint hj
  | act hi hpoint => exact h.act hi hpoint _ _
  | startTask hi hpoint => exact (h.act hi hpoint _ _).start _ _
  | awaitTask hi hpoint => exact h.awaitTask hi hpoint
  | awaitFuture hi hpoint => exact h.awaitFuture hi hpoint
  | keep hi hcurrent hpoint => exact h.keep hi hcurrent hpoint
  | remove hi hcurrent hpoint hrelease => exact h.remove hi hcurrent hpoint hrelease

theorem Linked.move {s' : State L A V} (h : Linked s) (hmove : Move s s') : Linked s' := by
  cases hmove with
  | start loop task => exact h.start loop task
  | set v hfuture hi => exact h.set v hfuture hi
  | isSet => exact h
  | exhaust => exact ⟨h.tree, fun k other hk => (h.stands k other hk).frame Iff.rfl id
      (fun _ awaited ht hc => ⟨awaited, ht, hc, rfl⟩) fun _ _ hf => hf, h.queued, h.nodup, h.lost,
      h.current, h.owned, h.future, h.returned, h.fresh⟩
  | drop hholds hi hfound => exact ⟨h.tree, fun k other hk => (h.stands k other hk).frame Iff.rfl id
      (fun _ awaited ht hc => ⟨awaited, ht, hc, rfl⟩) fun _ _ hf => hf, h.queued, h.nodup, h.lost,
      h.current, h.owned.drop hi hholds hfound, h.future, h.returned, h.fresh⟩
  | mark hmarks hi => exact h.mark hmarks hi
  | @release i promise v hremoves hi hpoint =>
    obtain ⟨other, hother, hroot, _⟩ := h.owned.there i (by rw [hremoves]; nofun)
    cases hi.symm.trans hother
    exact h.destroy hi hpoint hroot (fun _ _ hk => hk) (fun _ _ _ hk => hk) (h.owned.leave none)
  | loop hmove => exact h.loopMove hmove

omit [DecidableEq L] in
theorem linked_init : Linked (init : State L A V) where
  tree := by constructor <;> simp [init]
  stands i promise hi := by cases hi
  queued loop i hi := by cases hi
  nodup loop := List.nodup_nil
  lost i hi := by cases hi
  current loop i hi := by cases hi
  owned := ⟨fun i hi => absurd rfl hi, fun i promise hi => by cases hi⟩
  future f value i hf := by cases hf
  returned i promise v hi := by cases hi
  fresh i hi := rfl

end Moves

end OrderBookServer.EventLoop
