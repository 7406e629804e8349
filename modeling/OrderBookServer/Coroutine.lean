import Mathlib.Data.List.Basic

/-!
Programs that await one another, and what they do when each of them is called like a function.
`Leads` runs a program on a stack of continuations and `Evaluates` runs it as one call; at the
end of a program the two agree.
-/
namespace OrderBookServer

/-- `L` are the loops that a program can start a task on, `A` its statements, `V` the values. -/
inductive Coroutine (L A V : Type)
  | coReturn (v : V)
  | act (a : A) (next : Coroutine L A V)
  | startRunningOn (loop : L) (task next : Coroutine L A V)
  | awaitTask (task : Coroutine L A V) (next : V → Coroutine L A V)
  | awaitFuture (next : V → Coroutine L A V)

namespace Coroutine

variable {L A V : Type}

/-- What a program does to the outside, and what it gets from there. -/
inductive Event (L A V : Type)
  | did (a : A)
  | started (loop : L) (task : Coroutine L A V)
  | received (v : V)

/-- The program has done so much and is at `code`, with the continuations of its callers. -/
inductive Leads (program : Coroutine L A V) : List (Event L A V) → Coroutine L A V →
    List (V → Coroutine L A V) → Prop
  | start : Leads program [] program []
  | act {events : List (Event L A V)} {a : A} {next : Coroutine L A V}
      {stack : List (V → Coroutine L A V)} (h : Leads program events (.act a next) stack) :
      Leads program (events ++ [.did a]) next stack
  | startRunningOn {events : List (Event L A V)} {loop : L} {task next : Coroutine L A V}
      {stack : List (V → Coroutine L A V)}
      (h : Leads program events (.startRunningOn loop task next) stack) :
      Leads program (events ++ [.started loop task]) next stack
  | call {events : List (Event L A V)} {task : Coroutine L A V} {next : V → Coroutine L A V}
      {stack : List (V → Coroutine L A V)}
      (h : Leads program events (.awaitTask task next) stack) :
      Leads program events task (next :: stack)
  | back {events : List (Event L A V)} {v : V} {next : V → Coroutine L A V}
      {stack : List (V → Coroutine L A V)}
      (h : Leads program events (.coReturn v) (next :: stack)) :
      Leads program events (next v) stack
  | receive {events : List (Event L A V)} {v : V} {next : V → Coroutine L A V}
      {stack : List (V → Coroutine L A V)}
      (h : Leads program events (.awaitFuture next) stack) :
      Leads program (events ++ [.received v]) (next v) stack

/-- The program, called like a function, does this and returns `v`. -/
inductive Evaluates : Coroutine L A V → List (Event L A V) → V → Prop
  | coReturn (v : V) : Evaluates (.coReturn v) [] v
  | act {a : A} {next : Coroutine L A V} {events : List (Event L A V)} {v : V}
      (h : Evaluates next events v) : Evaluates (.act a next) (.did a :: events) v
  | startRunningOn {loop : L} {task next : Coroutine L A V} {events : List (Event L A V)} {v : V}
      (h : Evaluates next events v) :
      Evaluates (.startRunningOn loop task next) (.started loop task :: events) v
  | awaitTask {task : Coroutine L A V} {next : V → Coroutine L A V}
      {events events' : List (Event L A V)} {u v : V} (htask : Evaluates task events u)
      (hnext : Evaluates (next u) events' v) :
      Evaluates (.awaitTask task next) (events ++ events') v
  | awaitFuture {next : V → Coroutine L A V} {events : List (Event L A V)} {u v : V}
      (h : Evaluates (next u) events v) :
      Evaluates (.awaitFuture next) (.received u :: events) v

/-- `code` and after it the continuations do this and return `v`. -/
inductive Unwinds : Coroutine L A V → List (V → Coroutine L A V) → List (Event L A V) → V → Prop
  | last {code : Coroutine L A V} {events : List (Event L A V)} {v : V}
      (h : Evaluates code events v) : Unwinds code [] events v
  | next {code : Coroutine L A V} {next : V → Coroutine L A V}
      {stack : List (V → Coroutine L A V)} {events events' : List (Event L A V)} {u v : V}
      (h : Evaluates code events u) (hnext : Unwinds (next u) stack events' v) :
      Unwinds code (next :: stack) (events ++ events') v

section Agreement

variable {program code code' task : Coroutine L A V} {next : V → Coroutine L A V}
  {stack stack' : List (V → Coroutine L A V)} {events events' : List (Event L A V)} {v : V}

/-- A statement whose evaluation goes on with `code` and first does `done`. -/
theorem Unwinds.before {done : List (Event L A V)}
    (hbefore : ∀ events u, Evaluates code events u → Evaluates code' (done ++ events) u)
    (h : Unwinds code stack events v) : Unwinds code' stack (done ++ events) v := by
  cases h with
  | last h => exact .last (hbefore _ _ h)
  | next h hnext =>
    rw [← List.append_assoc]
    exact .next (hbefore _ _ h) hnext

theorem Unwinds.awaitTask (h : Unwinds task (next :: stack) events v) :
    Unwinds (.awaitTask task next) stack events v := by
  cases h with
  | next htask hnext =>
    cases hnext with
    | last hrest => exact .last (.awaitTask htask hrest)
    | next hrest hnext =>
      rw [← List.append_assoc]
      exact .next (.awaitTask htask hrest) hnext

/-- What was done so far and what the rest does are what the whole program does. -/
theorem Leads.evaluates (h : Leads program events code stack)
    (hrest : Unwinds code stack events' v) : Evaluates program (events ++ events') v := by
  induction h generalizing events' with
  | start =>
    cases hrest with
    | last h => exact h
  | act _ ih =>
    rw [List.append_assoc]
    exact ih (hrest.before fun _ _ h => .act h)
  | startRunningOn _ ih =>
    rw [List.append_assoc]
    exact ih (hrest.before fun _ _ h => .startRunningOn h)
  | call _ ih => exact ih hrest.awaitTask
  | back _ ih => exact ih (.next (.coReturn _) hrest)
  | receive _ ih =>
    rw [List.append_assoc]
    exact ih (hrest.before fun _ _ h => .awaitFuture h)

/-- A call can be made wherever the program stands. -/
theorem Evaluates.leads (h : Evaluates code events' v) (hled : Leads program events code stack) :
    Leads program (events ++ events') (.coReturn v) stack := by
  induction h generalizing events stack with
  | coReturn v =>
    rw [List.append_nil]
    exact hled
  | act _ ih =>
    have hnext := ih hled.act
    rwa [List.append_assoc] at hnext
  | startRunningOn _ ih =>
    have hnext := ih hled.startRunningOn
    rwa [List.append_assoc] at hnext
  | awaitTask _ _ ihtask ihnext =>
    rw [← List.append_assoc]
    exact ihnext (ihtask hled.call).back
  | awaitFuture _ ih =>
    have hnext := ih hled.receive
    rwa [List.append_assoc] at hnext

theorem leads_end_iff :
    Leads program events (.coReturn v) [] ↔ Evaluates program events v := by
  constructor
  · intro h
    have hall := h.evaluates (.last (.coReturn v))
    rwa [List.append_nil] at hall
  · intro h
    exact h.leads .start

/-- The values that a program got. -/
def received : List (Event L A V) → List V
  | [] => []
  | .received v :: events => v :: received events
  | _ :: events => received events

@[simp] theorem received_append (events events' : List (Event L A V)) :
    received (events ++ events') = received events ++ received events' := by
  induction events with
  | nil => rfl
  | cons event events ih =>
    cases event with
    | did a => exact ih
    | started loop task => exact ih
    | received v => exact congrArg (v :: ·) ih

/-- A program does nothing but what the values tell it that it gets. -/
theorem Evaluates.unique {v' : V} {rest rest' : List V} (h : Evaluates program events v)
    (h' : Evaluates program events' v')
    (hreceived : received events ++ rest = received events' ++ rest') :
    events = events' ∧ v = v' ∧ rest = rest' := by
  induction h generalizing events' v' rest rest' with
  | coReturn v =>
    cases h'
    exact ⟨rfl, rfl, hreceived⟩
  | act _ ih =>
    cases h' with
    | act h' =>
      obtain ⟨rfl, rfl, rfl⟩ := ih h' hreceived
      exact ⟨rfl, rfl, rfl⟩
  | startRunningOn _ ih =>
    cases h' with
    | startRunningOn h' =>
      obtain ⟨rfl, rfl, rfl⟩ := ih h' hreceived
      exact ⟨rfl, rfl, rfl⟩
  | awaitTask _ _ ihtask ihnext =>
    cases h' with
    | awaitTask htask hnext =>
      rw [received_append, received_append, List.append_assoc, List.append_assoc] at hreceived
      obtain ⟨rfl, rfl, hrest⟩ := ihtask htask hreceived
      obtain ⟨rfl, rfl, rfl⟩ := ihnext hnext hrest
      exact ⟨rfl, rfl, rfl⟩
  | awaitFuture _ ih =>
    cases h' with
    | awaitFuture h' =>
      rw [received, received, List.cons_append, List.cons_append, List.cons.injEq] at hreceived
      obtain ⟨rfl, hrest⟩ := hreceived
      obtain ⟨rfl, rfl, rfl⟩ := ih h' hrest
      exact ⟨rfl, rfl, rfl⟩

end Agreement

end Coroutine

end OrderBookServer
