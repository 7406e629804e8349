import Mathlib.Algebra.BigOperators.Intervals
import Mathlib.Logic.Hydra
import Mathlib.Tactic.Abel
import OrderBookServer.EventLoopInvariant

/-!
The loops come to rest. What the coroutines have to do is a multiset of works, and each step of a
loop takes one of them and puts finitely many that precede it in its place, or takes one away.
-/
namespace OrderBookServer

namespace Coroutine

variable {L A V : Type}

/-- What a coroutine has to do: its code from its first statement or from a later one, its code
once it has a value, to be looked at behind its last statement, or nothing. -/
inductive Work (L A V : Type)
  | initial (code : Coroutine L A V)
  | running (code : Coroutine L A V)
  | suspended (next : V → Coroutine L A V)
  | done
  | gone

/-- What may be left of a work after one step. -/
inductive Work.Precedes : Work L A V → Work L A V → Prop
  | resume (code : Coroutine L A V) : Precedes (.running code) (.initial code)
  | receive (next : V → Coroutine L A V) (v : V) : Precedes (.running (next v)) (.suspended next)
  | coReturn (v : V) : Precedes .done (.running (.coReturn v))
  | act (a : A) (next : Coroutine L A V) : Precedes (.running next) (.running (.act a next))
  | goOn (loop : L) (task next : Coroutine L A V) :
      Precedes (.running next) (.running (.startRunningOn loop task next))
  | start (loop : L) (task next : Coroutine L A V) :
      Precedes (.initial task) (.running (.startRunningOn loop task next))
  | suspend (task : Coroutine L A V) (next : V → Coroutine L A V) :
      Precedes (.suspended next) (.running (.awaitTask task next))
  | call (task : Coroutine L A V) (next : V → Coroutine L A V) :
      Precedes (.initial task) (.running (.awaitTask task next))
  | wait (next : V → Coroutine L A V) :
      Precedes (.suspended next) (.running (.awaitFuture next))
  | gone : Precedes .gone .done

end Coroutine

section Sums

variable {α : Type} {r : α → α → Prop} {f f' : ℕ → Multiset α} {n n' i : ℕ} {a : α}

/-- The work at `i` makes place for works that precede it, there and behind the old ones. -/
theorem cutExpand_sum (hi : i < n) (hn : n ≤ n') (ha : f i = {a})
    (hsame : ∀ k < n, k ≠ i → f' k = f k) (hless : ∀ b ∈ f' i, r b a)
    (hnew : ∀ k, n ≤ k → k < n' → ∀ b ∈ f' k, r b a) :
    Relation.CutExpand r (∑ k ∈ Finset.range n', f' k) (∑ k ∈ Finset.range n, f k) := by
  have hmem := Finset.mem_range.mpr hi
  have hold : ∑ k ∈ Finset.range n, f k = {a} + ∑ k ∈ (Finset.range n).erase i, f k := by
    rw [← Finset.add_sum_erase _ _ hmem, ha]
  have hrest : ∑ k ∈ (Finset.range n).erase i, f' k = ∑ k ∈ (Finset.range n).erase i, f k := by
    refine Finset.sum_congr rfl fun k hk => ?_
    exact hsame k (Finset.mem_range.mp (Finset.mem_of_mem_erase hk)) (Finset.ne_of_mem_erase hk)
  have hafter : ∑ k ∈ Finset.range n', f' k =
      (f' i + ∑ k ∈ (Finset.range n).erase i, f k) + ∑ k ∈ Finset.Ico n n', f' k := by
    rw [← Finset.sum_range_add_sum_Ico _ hn, ← Finset.add_sum_erase _ _ hmem, hrest]
  refine ⟨f' i + ∑ k ∈ Finset.Ico n n', f' k, a, fun b hb => ?_, ?_⟩
  · rcases Multiset.mem_add.mp hb with hb | hb
    · exact hless b hb
    · obtain ⟨k, hk, hb⟩ := Multiset.mem_sum.mp hb
      exact hnew k (Finset.mem_Ico.mp hk).1 (Finset.mem_Ico.mp hk).2 b hb
  · rw [hafter, hold]
    abel

theorem cutExpand_sum_drop (hi : i < n) (ha : f i = {a}) :
    Relation.CutExpand r (∑ k ∈ Finset.range n, Function.update f i 0 k)
      (∑ k ∈ Finset.range n, f k) := by
  refine cutExpand_sum hi (Nat.le_refl n) ha (fun k _ hk => Function.update_of_ne hk ..) ?_ ?_
  · intro b hb
    rw [Function.update_self] at hb
    cases hb
  · exact fun k hk hk' => absurd hk' (Nat.not_lt_of_le hk)

end Sums

namespace EventLoop

open Coroutine

variable {L A V : Type} {s s' : State L A V}

/-- At its end a coroutine is still to be looked at if its loop has just resumed it. -/
def State.work (s : State L A V) (i : ℕ) (promise : Promise L A V) : Work L A V :=
  match promise.point with
  | .running code => .running code
  | .initial code => .initial code
  | .onTask _ next => .suspended next
  | .onFuture _ next => .suspended next
  | .done _ => if s.current promise.eventBase = some i then .done else .gone

def State.worksOf (s : State L A V) (i : ℕ) : Multiset (Work L A V) :=
  match s.promises i with
  | some promise => {s.work i promise}
  | none => 0

def State.works (s : State L A V) : Multiset (Work L A V) :=
  ∑ i ∈ Finset.range s.nextPromise, s.worksOf i

@[simp] theorem worksOf_eq {i : ℕ} {promise : Promise L A V}
    (hi : s.promises i = some promise) : s.worksOf i = {s.work i promise} := by
  unfold State.worksOf
  rw [hi]

@[simp] theorem worksOf_none {i : ℕ} (hi : s.promises i = none) : s.worksOf i = 0 := by
  unfold State.worksOf
  rw [hi]

/-- A coroutine has the same to do if it is not the one that its loop has resumed or suspends. -/
theorem worksOf_congr {k : ℕ} (hpromise : s'.promises k = s.promises k)
    (hcurrent : ∀ loop, s'.current loop = some k ↔ s.current loop = some k) :
    s'.worksOf k = s.worksOf k := by
  unfold State.worksOf State.work
  rw [hpromise]
  cases s.promises k with
  | none => rfl
  | some promise => simp only [hcurrent]

/-- A coroutine goes on, and those that it creates have less to do than it had. -/
theorem works_goOn (h : Linked s) {i : ℕ} {promise promise' : Promise L A V}
    (hi : s.promises i = some promise) (hi' : s'.promises i = some promise')
    (hless : (s'.work i promise').Precedes (s.work i promise))
    (hsame : ∀ k < s.nextPromise, k ≠ i → s'.promises k = s.promises k)
    (hcurrent : ∀ k, k ≠ i → ∀ loop, s'.current loop = some k ↔ s.current loop = some k)
    (hnext : s.nextPromise ≤ s'.nextPromise)
    (hnew : ∀ k, s.nextPromise ≤ k → k < s'.nextPromise → ∀ b ∈ s'.worksOf k,
      b.Precedes (s.work i promise)) :
    Relation.TransGen (Relation.CutExpand Work.Precedes) s'.works s.works := by
  refine .single (cutExpand_sum (h.tree.known i promise hi) hnext (worksOf_eq hi) ?_ ?_ hnew)
  · exact fun k hk hki => worksOf_congr (hsame k hk hki) (hcurrent k hki)
  · intro b hb
    rw [worksOf_eq hi', Multiset.mem_singleton] at hb
    exact hb ▸ hless

/-- No coroutine is created. -/
theorem works_goOnAlone (h : Linked s) {i : ℕ} {promise promise' : Promise L A V}
    (hi : s.promises i = some promise) (hi' : s'.promises i = some promise')
    (hless : (s'.work i promise').Precedes (s.work i promise))
    (hsame : ∀ k, k ≠ i → s'.promises k = s.promises k)
    (hcurrent : ∀ k, k ≠ i → ∀ loop, s'.current loop = some k ↔ s.current loop = some k)
    (hnext : s'.nextPromise = s.nextPromise) :
    Relation.TransGen (Relation.CutExpand Work.Precedes) s'.works s.works := by
  refine works_goOn h hi hi' hless (fun k _ hk => hsame k hk) hcurrent (Nat.le_of_eq hnext.symm) ?_
  rw [hnext]
  exact fun k hk hk' => absurd hk' (Nat.not_lt_of_le hk)

variable [DecidableEq L]

/-- A loop that has nothing resumed resumes a coroutine, and is suspended by it. -/
theorem current_resume {current : L → Option ℕ} {loop : L} {i k : ℕ} (hidle : current loop = none)
    (hk : k ≠ i) (loop' : L) :
    Function.update current loop (some i) loop' = some k ↔ current loop' = some k := by
  by_cases hloop : loop' = loop
  · subst hloop
    simp [hidle, hk.symm]
  · rw [Function.update_of_ne hloop]

theorem current_suspend {current : L → Option ℕ} {loop : L} {i k : ℕ}
    (hcurrent : current loop = some i) (hk : k ≠ i) (loop' : L) :
    Function.update current loop none loop' = some k ↔ current loop' = some k := by
  by_cases hloop : loop' = loop
  · subst hloop
    simp [hcurrent, hk.symm]
  · rw [Function.update_of_ne hloop]

/-- Each step of a loop leaves less to do. -/
theorem LoopMove.works {loop : L} (h : Linked s) (hmove : LoopMove s loop s') :
    Relation.TransGen (Relation.CutExpand Work.Precedes) s'.works s.works := by
  cases hmove with
  | @resume i promise code hi _ _ hidle hpoint =>
    refine works_goOnAlone h hi (Function.update_self ..) ?_
      (fun k hk => Function.update_of_ne hk ..) (fun k hk => current_resume hidle hk) rfl
    simp only [State.work, hpoint]
    exact .resume code
  | @resumeTask i task promise awaited next v hi _ _ hidle hpoint htask hdone =>
    obtain ⟨hlt, _⟩ := h.onTask_lt hi hpoint
    have htask' : ∃ work, s.worksOf task = {work} := ⟨_, worksOf_eq htask⟩
    obtain ⟨work, hwork⟩ := htask'
    refine .tail (.single (cutExpand_sum (h.tree.known i promise hi) (Nat.le_refl _)
      (a := .suspended next) ?_ (fun k hk hki => ?_) (fun b hb => ?_) ?_))
      (cutExpand_sum_drop (h.tree.known task awaited htask) hwork)
    · rw [Function.update_of_ne (Nat.ne_of_lt hlt), worksOf_eq hi]
      simp only [State.work, hpoint]
    · by_cases hkt : k = task
      · subst hkt
        rw [Function.update_self]
        exact worksOf_none ((Function.update_of_ne hki ..).trans (Function.update_self ..))
      · rw [Function.update_of_ne hkt]
        refine worksOf_congr ?_ (current_resume hidle hki)
        exact (Function.update_of_ne hki ..).trans (Function.update_of_ne hkt ..)
    · rw [worksOf_eq (Function.update_self ..), Multiset.mem_singleton] at hb
      exact hb ▸ .receive next v
    · exact fun k hk hk' => absurd hk' (Nat.not_lt_of_le hk)
  | @resumeFuture i future promise next v hi _ _ hidle hpoint _ =>
    refine works_goOnAlone h hi (Function.update_self ..) ?_
      (fun k hk => Function.update_of_ne hk ..) (fun k hk => current_resume hidle hk) rfl
    simp only [State.work, hpoint]
    exact .receive next v
  | @finish i promise v hi hpoint _ =>
    have hcurrent := ((h.stands i promise hi).running _ hpoint).1
    refine works_goOnAlone h hi (Function.update_self ..) ?_
      (fun k hk => Function.update_of_ne hk ..) (fun _ _ _ => Iff.rfl) rfl
    simp only [State.work, State.setPoint, hpoint, hcurrent, if_true]
    exact .coReturn v
  | @coReturn i j promise v hi hpoint _ =>
    have hcurrent := ((h.stands i promise hi).running _ hpoint).1
    refine works_goOnAlone h hi (Function.update_self ..) ?_
      (fun k hk => Function.update_of_ne hk ..) (fun _ _ _ => Iff.rfl) rfl
    simp only [State.work, State.setPoint, hpoint, hcurrent, if_true]
    exact .coReturn v
  | @act i promise a next hi hpoint =>
    refine works_goOnAlone h hi (Function.update_self ..) ?_
      (fun k hk => Function.update_of_ne hk ..) (fun _ _ _ => Iff.rfl) rfl
    simp only [State.work, hpoint]
    exact .act a next
  | @startTask i promise loop task next hi hpoint =>
    have hne := Nat.ne_of_lt (h.tree.known i promise hi)
    have hwork : s.work i promise = .running (.startRunningOn loop task next) := by
      simp only [State.work, hpoint]
    refine works_goOn h hi ((Function.update_of_ne hne ..).trans (Function.update_self ..)) ?_
      (fun k hk hki => (Function.update_of_ne (Nat.ne_of_lt hk) ..).trans
        (Function.update_of_ne hki ..)) (fun _ _ _ => Iff.rfl) (Nat.le_succ _) ?_
    · rw [hwork]
      exact .goOn loop task next
    · intro k hk hk' b hb
      cases Nat.le_antisymm (Nat.le_of_lt_succ hk') hk
      rw [worksOf_eq (Function.update_self ..), Multiset.mem_singleton] at hb
      rw [hwork, hb]
      exact .start loop task next
  | @awaitTask i promise task next hi hpoint =>
    have hne := Nat.ne_of_lt (h.tree.known i promise hi)
    have hcurrent := ((h.stands i promise hi).running _ hpoint).1
    have hwork : s.work i promise = .running (.awaitTask task next) := by
      simp only [State.work, hpoint]
    refine works_goOn h hi ((Function.update_of_ne hne ..).trans (Function.update_self ..)) ?_
      (fun k hk hki => (Function.update_of_ne (Nat.ne_of_lt hk) ..).trans
        (Function.update_of_ne hki ..)) (fun k hk => current_suspend hcurrent hk)
      (Nat.le_succ _) ?_
    · rw [hwork]
      exact .suspend task next
    · intro k hk hk' b hb
      cases Nat.le_antisymm (Nat.le_of_lt_succ hk') hk
      rw [worksOf_eq (Function.update_self ..), Multiset.mem_singleton] at hb
      rw [hwork, hb]
      exact .call task next
  | @awaitFuture i promise next hi hpoint =>
    have hcurrent := ((h.stands i promise hi).running _ hpoint).1
    refine works_goOnAlone h hi (Function.update_self ..) ?_
      (fun k hk => Function.update_of_ne hk ..) (fun k hk => current_suspend hcurrent hk) rfl
    simp only [State.work, hpoint]
    exact .wait next
  | @keep i promise v hi hcurrent hpoint _ =>
    refine works_goOnAlone h hi hi ?_ (fun _ _ => rfl)
      (fun k hk => current_suspend hcurrent hk) rfl
    simp only [State.work, hpoint, hcurrent, if_true, Function.update_self]
    exact .gone
  | @remove i promise v hi hcurrent hpoint _ =>
    refine .single (cutExpand_sum (h.tree.known i promise hi) (Nat.le_refl _) (worksOf_eq hi)
      (fun k hk hki => ?_) (fun b hb => ?_) ?_)
    · exact worksOf_congr (Function.update_of_ne hki ..) (current_suspend hcurrent hki)
    · rw [worksOf_none (Function.update_self ..)] at hb
      cases hb
    · exact fun k hk hk' => absurd hk' (Nat.not_lt_of_le hk)

end EventLoop

end OrderBookServer
