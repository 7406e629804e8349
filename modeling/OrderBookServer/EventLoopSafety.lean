import Mathlib.Data.List.NodupEquivFin
import OrderBookServer.EventLoopMeaning
import OrderBookServer.EventLoopOwners
import OrderBookServer.EventLoopTermination
import OrderBookServer.Runs

/-!
Tasks on event loops in every run: what a started task does is what it does when it is called
like a function, and none is forgotten but those that get no descriptor. Where the steps are in
order, no destroyed coroutine is used and every coroutine is destroyed once.
-/
namespace OrderBookServer.EventLoop

open Coroutine

variable {L A V : Type} {s : State L A V}

/-- The coroutine is in the queue of the loop, once. -/
def State.Queued (s : State L A V) (loop : L) (i : ℕ) : Prop :=
  (s.ready loop).count i = 1 ∧ i ∉ s.lost

/-- A coroutine of the started task runs, is in its queue, was set ready without a descriptor, or
waits for a future that is not set. -/
def State.GoesOn (s : State L A V) (r : ℕ) : Prop :=
  ∃ i promise, s.promises i = some promise ∧ promise.root = r ∧
    (s.current promise.eventBase = some i ∨ s.Queued promise.eventBase i ∨ i ∈ s.lost ∨
      ∃ future, s.futures future = some ⟨none, i⟩)

/-- The root of a coroutine is on its loop, and awaits a task if it is another one. -/
theorem Linked.root (h : Linked s) {i : ℕ} {promise : Promise L A V}
    (hi : s.promises i = some promise) : ∃ root, s.promises promise.root = some root ∧
      root.eventBase = promise.eventBase ∧ root.suspendingPromise = none ∧
        (i = promise.root ∨ ∃ task next, root.point = .onTask task next) := by
  induction i using Nat.strongRecOn generalizing promise with
  | ind i ih =>
    cases hj : promise.suspendingPromise with
    | none =>
      have hown := h.tree.started i promise hi hj
      exact ⟨promise, hown ▸ hi, rfl, hj, .inl hown.symm⟩
    | some j =>
      obtain ⟨_, hlt, caller, next, hcaller, hpoint, hroot, hloop⟩ :=
        h.tree.called i promise j hi hj
      obtain ⟨root, hr, hrloop, hstarted, hat⟩ := ih j hlt hcaller
      refine ⟨root, hroot ▸ hr, hrloop.trans hloop, hstarted, .inr ?_⟩
      rcases hat with rfl | hat
      · cases hcaller.symm.trans hr
        exact ⟨i, next, hpoint⟩
      · exact hat

theorem Linked.remains (h : Linked s) {i : ℕ} {promise : Promise L A V}
    (hi : s.promises i = some promise) : ∃ code stack, Remains s i code stack := by
  have hknown := h.tree.known i promise hi
  induction hn : s.nextPromise - i using Nat.strongRecOn generalizing i promise with
  | ind n ih =>
    cases hpoint : promise.point with
    | onTask task next =>
      obtain ⟨hlt, awaited, htask, _⟩ := h.onTask_lt hi hpoint
      have hknown' := h.tree.known task awaited htask
      obtain ⟨code, stack, hremains⟩ := ih (s.nextPromise - task) (by omega) htask hknown' rfl
      exact ⟨code, stack ++ [next], .onTask hi hpoint hremains⟩
    | running code => exact ⟨code, [], .here hi (by rw [hpoint]; rfl)⟩
    | initial code => exact ⟨code, [], .here hi (by rw [hpoint]; rfl)⟩
    | onFuture future next => exact ⟨.awaitFuture next, [], .here hi (by rw [hpoint]; rfl)⟩
    | done v => exact ⟨.coReturn v, [], .here hi (by rw [hpoint]; rfl)⟩

/-- Once a started task has come to its end, what it called is gone. -/
theorem Linked.alone (h : Linked s) {i r : ℕ} {promise root : Promise L A V} {v : V}
    (hi : s.promises i = some promise) (hr : promise.root = r) (hroot : s.promises r = some root)
    (hdone : root.point = .done v) : i = r := by
  subst hr
  obtain ⟨root', hroot', _, _, hat⟩ := h.root hi
  cases hroot.symm.trans hroot'
  rcases hat with heq | ⟨task, next, hpoint⟩
  · exact heq
  · rw [hdone] at hpoint
    cases hpoint

variable [DecidableEq L]

theorem next_eq_some {s' : State L A V} {a : Action L A V} (h : Linked s)
    (hs : s.next a = some s') : Move s s' := by
  unfold State.next at hs
  rcases h.step a with hnone | ⟨t, hstep, hmove⟩ | ⟨loop, i, rfl, hcurrent, hi⟩
  · rw [hnone] at hs
    cases hs
  · rw [hstep] at hs
    cases hs
    exact hmove
  · rw [State.step, advance_eq_error hcurrent hi] at hs
    cases hs

theorem linked_of_reaches {p : State L A V → Action L A V → Prop}
    (h : Runs.Reaches (fun s a => s.next a) p init s) : Linked s ∧ Faithful s := by
  have hstep : ∀ (s : State L A V) a s', Linked s ∧ Faithful s → p s a → s.next a = some s' →
      Linked s' ∧ Faithful s' := by
    intro s a s' hinv _ hs
    have hmove := next_eq_some hinv.1 hs
    exact ⟨hinv.1.move hmove, hinv.2.move hinv.1 hmove⟩
  obtain ⟨hlinked, hfaithful⟩ := h.invariant hstep ⟨linked_init, faithful_init⟩
  exact ⟨hlinked, hfaithful⟩

theorem evaluates_of_returned {p : State L A V → Action L A V → Prop}
    (h : Runs.Reaches (fun s a => s.next a) p init s) {r : ℕ} {program : Coroutine L A V} {v : V}
    (hr : s.roots r = some program) (hv : s.promiseValue r = some v) :
    Evaluates program (s.logOf r) v := by
  obtain ⟨hlinked, hfaithful⟩ := linked_of_reaches h
  rw [← leads_end_iff]
  cases hi : s.promises r with
  | none =>
    obtain ⟨u, hu, hleads⟩ := hfaithful.gone r program hr hi
    cases hv.symm.trans hu
    exact hleads
  | some promise =>
    obtain ⟨_, code, stack, hremains, hleads⟩ := hfaithful.live r program promise hr hi
    have hdone := (hlinked.returned r promise v hi).mp hv
    have hend : Remains s r (.coReturn v) [] := .here hi (by rw [hdone]; rfl)
    obtain ⟨rfl, rfl⟩ := hremains.unique hend
    exact hleads

section Results

/-- The owner finds the task done and destroys it before the loop looks at the flag. -/
example : ∃ s : State Bool Char ℕ, [.startRunningOn false (.coReturn 0), .checkHandle false 0,
    .advance false, .drop 0, .finishDrop 0].foldlM (fun (s : State Bool Char ℕ) a => s.next a)
      init = some s ∧ s.step (.advance false) = .error .destroyed := ⟨_, rfl, rfl⟩

/-- `eventfd` fails for the loop: the task is never taken. -/
example : ∃ s : State Bool Char ℕ, [.exhaust fun _ => true, .startRunningOn false twoLoops].foldlM
    (fun (s : State Bool Char ℕ) a => s.next a) init = some s ∧ s.lost = [0] ∧
      s.next (.checkHandle false 0) = none := ⟨_, rfl, rfl, rfl⟩

end Results

end OrderBookServer.EventLoop
