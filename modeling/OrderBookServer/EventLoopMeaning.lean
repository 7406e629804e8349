import OrderBookServer.EventLoopInvariant

/-!
What the event loops make of a started task: at any time its log and what remains of it are those
of a run that calls what it awaits.
-/
namespace OrderBookServer.EventLoop

open Coroutine

variable {L A V : Type} {s s' : State L A V}

/-- `r` has called `i`, maybe by way of others. The continuations are those of the callers of `i`,
the innermost first. -/
inductive Below (s : State L A V) (r : ℕ) : ℕ → List (V → Coroutine L A V) → Prop
  | self : Below s r r []
  | call {i j : ℕ} {caller : Promise L A V} {next : V → Coroutine L A V}
      {stack : List (V → Coroutine L A V)} (h : Below s r j stack)
      (hj : s.promises j = some caller) (hpoint : caller.point = .onTask i next) :
      Below s r i (next :: stack)

/-- Every coroutine was called by its root. -/
theorem Linked.below (h : Linked s) {i : ℕ} {promise : Promise L A V}
    (hi : s.promises i = some promise) : ∃ stack, Below s promise.root i stack := by
  induction i using Nat.strongRecOn generalizing promise with
  | ind i ih =>
    cases hj : promise.suspendingPromise with
    | none =>
      rw [h.tree.started i promise hi hj]
      exact ⟨[], .self⟩
    | some j =>
      obtain ⟨_, hlt, caller, next, hcaller, hpoint, hroot, _⟩ := h.tree.called i promise j hi hj
      obtain ⟨stack, hstack⟩ := ih j hlt hcaller
      rw [hroot] at hstack
      exact ⟨next :: stack, hstack.call hcaller hpoint⟩

theorem Below.le (h : Linked s) {r i : ℕ} {stack : List (V → Coroutine L A V)}
    (hbelow : Below s r i stack) : r ≤ i := by
  induction hbelow with
  | self => exact Nat.le_refl r
  | call _ hj hpoint ih => exact Nat.le_trans ih (Nat.le_of_lt (h.onTask_lt hj hpoint).1)

/-- A step that leaves the callers leaves what is to be done after them. -/
theorem Below.frame (h : Linked s) {r i : ℕ} {stack : List (V → Coroutine L A V)}
    (hbelow : Below s r i stack) (hcallers : ∀ k < i, s'.promises k = s.promises k) :
    Below s' r i stack := by
  induction hbelow with
  | self => exact .self
  | call _ hj hpoint ih =>
    have hlt := (h.onTask_lt hj hpoint).1
    refine .call (ih fun k hk => hcallers k (Nat.lt_trans hk hlt)) ?_ hpoint
    rw [hcallers _ hlt, hj]

theorem Below.remains {r i : ℕ} {code : Coroutine L A V}
    {stack stack' : List (V → Coroutine L A V)} (hbelow : Below s r i stack')
    (h : Remains s i code stack) : Remains s r code (stack ++ stack') := by
  induction hbelow generalizing stack with
  | self =>
    rw [List.append_nil]
    exact h
  | call _ hj hpoint ih =>
    have hcaller := ih (.onTask hj hpoint h)
    rwa [List.append_assoc] at hcaller

theorem Remains.there {i : ℕ} {code : Coroutine L A V} {stack : List (V → Coroutine L A V)}
    (h : Remains s i code stack) : ∃ promise, s.promises i = some promise := by
  cases h with
  | here hi _ => exact ⟨_, hi⟩
  | onTask hi _ _ => exact ⟨_, hi⟩

theorem Remains.unique {i : ℕ} {code code' : Coroutine L A V}
    {stack stack' : List (V → Coroutine L A V)} (h : Remains s i code stack)
    (h' : Remains s i code' stack') : code = code' ∧ stack = stack' := by
  induction h generalizing stack' with
  | here hi hcode =>
    cases h' with
    | here hi' hcode' =>
      cases hi.symm.trans hi'
      exact ⟨Option.some.inj (hcode.symm.trans hcode'), rfl⟩
    | onTask hi' hpoint =>
      cases hi.symm.trans hi'
      rw [hpoint] at hcode
      cases hcode
  | onTask hi hpoint _ ih =>
    cases h' with
    | here hi' hcode' =>
      cases hi.symm.trans hi'
      rw [hpoint] at hcode'
      cases hcode'
    | onTask hi' hpoint' h' =>
      cases hi.symm.trans hi'
      cases hpoint.symm.trans hpoint'
      obtain ⟨hcode, hstack⟩ := ih h'
      exact ⟨hcode, by rw [hstack]⟩

/-- A step that leaves the coroutines of a root leaves what remains of it. -/
theorem Remains.frame (h : Linked s) {i : ℕ} {promise : Promise L A V} {code : Coroutine L A V}
    {stack : List (V → Coroutine L A V)} (hremains : Remains s i code stack)
    (hi : s.promises i = some promise)
    (hother : ∀ k other, s.promises k = some other → other.root = promise.root →
      s'.promises k = some other) : Remains s' i code stack := by
  induction hremains generalizing promise with
  | here hi' hcode =>
    cases hi.symm.trans hi'
    exact .here (hother _ _ hi rfl) hcode
  | onTask hi' hpoint _ ih =>
    cases hi.symm.trans hi'
    obtain ⟨_, awaited, htask, hroot⟩ := h.onTask_lt hi hpoint
    refine .onTask (hother _ _ hi rfl) hpoint (ih htask fun k other hk hk' => ?_)
    exact hother k other hk (hk'.trans hroot)

/-- What remains of a coroutine does not depend on the flags. -/
theorem Remains.congr {i : ℕ} {code : Coroutine L A V} {stack : List (V → Coroutine L A V)}
    (hremains : Remains s i code stack)
    (hpoint : ∀ k promise, s.promises k = some promise → ∃ promise',
      s'.promises k = some promise' ∧ promise'.point = promise.point) :
    Remains s' i code stack := by
  induction hremains with
  | here hi hcode =>
    obtain ⟨promise', hi', hsame⟩ := hpoint _ _ hi
    exact .here hi' (by rw [hsame, hcode])
  | onTask hi hawaits _ ih =>
    obtain ⟨promise', hi', hsame⟩ := hpoint _ _ hi
    exact .onTask hi' (hsame.trans hawaits) ih

/-- A started task that is there has got as far as its log says, and one that is destroyed was at
its end. -/
structure Faithful (s : State L A V) : Prop where
  live : ∀ r program promise, s.roots r = some program → s.promises r = some promise →
    promise.suspendingPromise = none ∧
      ∃ code stack, Remains s r code stack ∧ Leads program (s.logOf r) code stack
  gone : ∀ r program, s.roots r = some program → s.promises r = none →
    ∃ v, s.promiseValue r = some v ∧ Leads program (s.logOf r) (.coReturn v) []
  known : ∀ r program, s.roots r = some program → r < s.nextPromise
  logged : ∀ entry ∈ s.log, entry.1 < s.nextPromise

theorem faithful_init : Faithful (init : State L A V) where
  live r program promise hr := by cases hr
  gone r program hr := by cases hr
  known r program hr := by cases hr
  logged entry hentry := by cases hentry

/-- A step that only concerns the loops. -/
theorem Faithful.frame (h : Faithful s) (hlinked : Linked s) (hpromises : s'.promises = s.promises)
    (hroots : s'.roots = s.roots) (hvalue : s'.promiseValue = s.promiseValue)
    (hlog : s'.log = s.log) (hnext : s'.nextPromise = s.nextPromise) : Faithful s' where
  live r program promise hr hi := by
    rw [hroots] at hr
    rw [hpromises] at hi
    obtain ⟨hstarted, code, stack, hremains, hleads⟩ := h.live r program promise hr hi
    refine ⟨hstarted, code, stack, hremains.frame hlinked hi fun k other hk _ => ?_, ?_⟩
    · rw [hpromises, hk]
    · rwa [State.logOf, hlog]
  gone r program hr hi := by
    rw [hroots] at hr
    rw [hpromises] at hi
    rw [hvalue, State.logOf, hlog]
    exact h.gone r program hr hi
  known := by
    rw [hroots, hnext]
    exact h.known
  logged := by
    rw [hlog, hnext]
    exact h.logged

theorem logOf_append (root r : ℕ) (events : List (Event L A V))
    (hlog : s'.log = s.log ++ events.map fun event => (root, event)) :
    s'.logOf r = s.logOf r ++ if root = r then events else [] := by
  unfold State.logOf
  rw [hlog, List.filter_append, List.map_append]
  congr 1
  by_cases hr : root = r
  · simp [hr, List.filter_map, Function.comp_def]
  · simp [hr, List.filter_map, Function.comp_def]

/-- A coroutine goes on with what remains of it. The step may create and destroy what it awaits. -/
theorem Faithful.goOn (h : Faithful s) (hlinked : Linked s) {i : ℕ} {promise : Promise L A V}
    (hi : s.promises i = some promise) {code code' : Coroutine L A V}
    {stack stack' : List (V → Coroutine L A V)} (events : List (Event L A V))
    (hbefore : Remains s i code stack) (hafter : Remains s' i code' stack')
    (hleads : ∀ program done rest, Leads program done code (stack ++ rest) →
      Leads program (done ++ events) code' (stack' ++ rest))
    (hcallers : ∀ k < i, s'.promises k = s.promises k)
    (hself : ∃ promise', s'.promises i = some promise' ∧
      promise'.suspendingPromise = promise.suspendingPromise)
    (hother : ∀ k other, s.promises k = some other → other.root ≠ promise.root →
      s'.promises k = some other)
    (hnone : ∀ k, k < s.nextPromise → s.promises k = none → s'.promises k = none)
    (hvalue : ∀ k, s.promises k = none → s'.promiseValue k = s.promiseValue k)
    (hroots : s'.roots = s.roots) (hnext : s.nextPromise ≤ s'.nextPromise)
    (hlog : s'.log = s.log ++ events.map fun event => (promise.root, event)) : Faithful s' where
  live r program promise' hr hi' := by
    rw [hroots] at hr
    have hlt := h.known r program hr
    cases hold : s.promises r with
    | none =>
      rw [hnone r hlt hold] at hi'
      cases hi'
    | some root =>
      obtain ⟨hstarted, code₀, stack₀, hremains, hled⟩ := h.live r program root hr hold
      have hown := hlinked.tree.started r root hold hstarted
      by_cases hroot : promise.root = r
      · subst hroot
        obtain ⟨rest, hbelow⟩ := hlinked.below hi
        obtain ⟨rfl, rfl⟩ := hremains.unique (hbelow.remains hbefore)
        refine ⟨?_, code', stack' ++ rest, (hbelow.frame hlinked hcallers).remains hafter, ?_⟩
        · -- The root is this coroutine or one of its callers.
          rcases Nat.lt_or_eq_of_le (hbelow.le hlinked) with hlt | heq
          · rw [hcallers _ hlt, hold] at hi'
            cases hi'
            exact hstarted
          · obtain ⟨after, hset, hsame⟩ := hself
            rw [heq, hset] at hi'
            cases hi'
            rw [heq, hi] at hold
            cases hold
            rw [hsame, hstarted]
        · rw [logOf_append _ _ _ hlog, if_pos rfl]
          exact hleads program _ rest hled
      · have hkept : ∀ k other, s.promises k = some other → other.root = root.root →
            s'.promises k = some other := fun k other hk hk' =>
          hother k other hk (hk'.trans hown ▸ Ne.symm hroot)
        rw [hkept r root hold rfl] at hi'
        cases hi'
        refine ⟨hstarted, code₀, stack₀, hremains.frame hlinked hold hkept, ?_⟩
        rw [logOf_append _ _ _ hlog, if_neg hroot, List.append_nil]
        exact hled
  gone r program hr hi' := by
    rw [hroots] at hr
    cases hold : s.promises r with
    | none =>
      obtain ⟨v, hv, hled⟩ := h.gone r program hr hold
      refine ⟨v, by rw [hvalue r hold, hv], ?_⟩
      have hroot : promise.root ≠ r := by
        rintro rfl
        obtain ⟨rest, hbelow⟩ := hlinked.below hi
        obtain ⟨root, hroot⟩ := (hbelow.remains hbefore).there
        rw [hold] at hroot
        cases hroot
      rw [logOf_append _ _ _ hlog, if_neg hroot, List.append_nil]
      exact hled
    | some root =>
      -- No coroutine that awaits is destroyed by a step of what it awaits.
      by_cases hroot : root.root = promise.root
      · have hown := hlinked.tree.started r root hold (h.live r program root hr hold).1
        obtain ⟨rest, hbelow⟩ := hlinked.below hi
        rw [← hroot, hown] at hbelow
        rcases Nat.lt_or_eq_of_le (hbelow.le hlinked) with hlt | heq
        · rw [hcallers _ hlt, hold] at hi'
          cases hi'
        · obtain ⟨after, hset, _⟩ := hself
          rw [heq, hset] at hi'
          cases hi'
      · rw [hother r root hold hroot] at hi'
        cases hi'
  known r program hr := by
    rw [hroots] at hr
    exact Nat.lt_of_lt_of_le (h.known r program hr) hnext
  logged entry hentry := by
    rw [hlog] at hentry
    rcases List.mem_append.mp hentry with hold | hnew
    · exact Nat.lt_of_lt_of_le (h.logged entry hold) hnext
    · obtain ⟨event, _, rfl⟩ := List.mem_map.mp hnew
      obtain ⟨rest, hbelow⟩ := hlinked.below hi
      exact Nat.lt_of_le_of_lt (hbelow.le hlinked)
        (Nat.lt_of_lt_of_le (hlinked.tree.known i promise hi) hnext)

/-- A coroutine that does not await a task goes on and is all that changes. -/
theorem Faithful.goOnAlone (h : Faithful s) (hlinked : Linked s) {i : ℕ}
    {promise : Promise L A V} (hi : s.promises i = some promise) (point : Point L A V)
    (events : List (Event L A V)) {code code' : Coroutine L A V}
    (hcode : promise.point.code = some code) (hcode' : point.code = some code')
    (hleads : ∀ program done rest, Leads program done code rest →
      Leads program (done ++ events) code' rest)
    (hpromises : s'.promises =
      Function.update s.promises i (some { promise with point := point }))
    (hvalue : ∀ k, k ≠ i → s'.promiseValue k = s.promiseValue k)
    (hroots : s'.roots = s.roots) (hnext : s'.nextPromise = s.nextPromise)
    (hlog : s'.log = s.log ++ events.map fun event => (promise.root, event)) : Faithful s' := by
  have hset : s'.promises i = some { promise with point := point } := by
    rw [hpromises, Function.update_self]
  have hkeep : ∀ k, k ≠ i → s'.promises k = s.promises k := by
    intro k hk
    rw [hpromises, Function.update_of_ne hk]
  refine h.goOn hlinked hi events (.here hi hcode) (.here hset hcode') (fun program done rest => ?_)
    (fun k hk => hkeep k (Nat.ne_of_lt hk)) ⟨_, hset, rfl⟩ (fun k other hk hroot => ?_)
    (fun k _ hk => ?_) (fun k hk => hvalue k ?_) hroots (Nat.le_of_eq hnext.symm) hlog
  · exact hleads program done rest
  · rw [hkeep k (by rintro rfl; cases hi.symm.trans hk; exact hroot rfl), hk]
  · rw [hkeep k (by rintro rfl; cases hi.symm.trans hk), hk]
  · rintro rfl
    cases hi.symm.trans hk

section Moves

variable [DecidableEq L]

theorem Faithful.start (h : Faithful s) (hlinked : Linked s) (loop : L) (task : Coroutine L A V) :
    Faithful (s.startRunningOn loop task) := by
  have hfresh := hlinked.tree.fresh
  have hkeep : ∀ k, k ≠ s.nextPromise →
      (s.startRunningOn loop task).promises k = s.promises k := fun k hk =>
    Function.update_of_ne hk ..
  have hrootsKeep : ∀ k, k ≠ s.nextPromise →
      (s.startRunningOn loop task).roots k = s.roots k := fun k hk =>
    Function.update_of_ne hk ..
  constructor
  · intro r program promise hr hi
    by_cases hnew : r = s.nextPromise
    · subst hnew
      have hset : (s.startRunningOn loop task).promises s.nextPromise =
          some ⟨.initial task, none, loop, false, s.nextPromise⟩ := Function.update_self ..
      have hroot : (s.startRunningOn loop task).roots s.nextPromise = some task :=
        Function.update_self ..
      cases hr.symm.trans hroot
      cases hi.symm.trans hset
      have hlog : s.logOf s.nextPromise = [] := by
        unfold State.logOf
        rw [List.filter_eq_nil_iff.mpr, List.map_nil]
        intro entry hentry
        simp [Nat.ne_of_lt (h.logged entry hentry)]
      have hled : Leads task (s.logOf s.nextPromise) task [] := by
        rw [hlog]
        exact .start
      exact ⟨rfl, task, [], .here hset rfl, hled⟩
    · rw [hrootsKeep r hnew] at hr
      rw [hkeep r hnew] at hi
      obtain ⟨hstarted, code, stack, hremains, hled⟩ := h.live r program promise hr hi
      refine ⟨hstarted, code, stack, hremains.frame hlinked hi fun k other hk _ => ?_, hled⟩
      rw [hkeep k (Nat.ne_of_lt (hlinked.tree.known k other hk)), hk]
  · intro r program hr hi
    by_cases hnew : r = s.nextPromise
    · subst hnew
      have hset : (s.startRunningOn loop task).promises s.nextPromise =
          some ⟨.initial task, none, loop, false, s.nextPromise⟩ := Function.update_self ..
      rw [hset] at hi
      cases hi
    · rw [hrootsKeep r hnew] at hr
      rw [hkeep r hnew] at hi
      exact h.gone r program hr hi
  · intro r program hr
    by_cases hnew : r = s.nextPromise
    · exact hnew ▸ Nat.lt_succ_self _
    · rw [hrootsKeep r hnew] at hr
      exact Nat.lt_succ_of_lt (h.known r program hr)
  · exact fun entry hentry => Nat.lt_succ_of_lt (h.logged entry hentry)

theorem Faithful.resumeTask (h : Faithful s) (hlinked : Linked s) {i task : ℕ}
    {promise awaited : Promise L A V} {next : V → Coroutine L A V} {v : V}
    (hi : s.promises i = some promise) (hpoint : promise.point = .onTask task next)
    (htask : s.promises task = some awaited) (hdone : awaited.point = .done v) :
    Faithful (({ s with
      ready := Function.update s.ready promise.eventBase ((s.ready promise.eventBase).erase i)
      promises := Function.update s.promises task none
      destroyed := s.destroyed ++ [task] } : State L A V).resume
      promise.eventBase i promise (next v)) := by
  obtain ⟨hlt, _, htask', hroot⟩ := hlinked.onTask_lt hi hpoint
  cases htask.symm.trans htask'
  have hbefore : Remains s i (.coReturn v) ([] ++ [next]) :=
    .onTask hi hpoint (.here htask (by rw [hdone]; rfl))
  have hkeep : ∀ k, k ≠ i → k ≠ task → Function.update (Function.update s.promises task none) i
      (some { promise with point := .running (next v) }) k = s.promises k := by
    intro k hki hkt
    rw [Function.update_of_ne hki, Function.update_of_ne hkt]
  refine h.goOn hlinked hi [] hbefore
    (.here (Function.update_self ..) rfl : Remains _ i (next v) []) ?_
    (fun k hk => hkeep k (Nat.ne_of_lt hk) (Nat.ne_of_lt (Nat.lt_trans hk hlt)))
    ⟨_, Function.update_self .., rfl⟩ (fun k other hk hne => ?_) (fun k _ hk => ?_)
    (fun _ _ => rfl) rfl (Nat.le_refl _) (List.append_nil _).symm
  · intro program done rest hled
    rw [List.append_nil]
    exact hled.back
  · refine (hkeep k ?_ ?_).trans hk
    · rintro rfl
      cases hi.symm.trans hk
      exact hne rfl
    · rintro rfl
      cases htask.symm.trans hk
      exact hne hroot
  · by_cases hkt : k = task
    · subst hkt
      exact (Function.update_of_ne (Nat.ne_of_gt hlt) ..).trans (Function.update_self ..)
    · refine (hkeep k ?_ hkt).trans hk
      rintro rfl
      cases hi.symm.trans hk

theorem Faithful.awaitTask (h : Faithful s) (hlinked : Linked s) {i : ℕ} {promise : Promise L A V}
    {task : Coroutine L A V} {next : V → Coroutine L A V} (hi : s.promises i = some promise)
    (hpoint : promise.point = .running (.awaitTask task next)) :
    Faithful (({ s.setPoint i promise (.onTask s.nextPromise next) with
      current := Function.update s.current promise.eventBase none } : State L A V).registerOn
      promise.eventBase task (some i) promise.root) := by
  have hlt := hlinked.tree.known i promise hi
  have hne := Nat.ne_of_lt hlt
  have hset : Function.update (Function.update s.promises i
      (some { promise with point := .onTask s.nextPromise next })) s.nextPromise
      (some ⟨.initial task, some i, promise.eventBase, false, promise.root⟩) i =
        some { promise with point := .onTask s.nextPromise next } := by
    rw [Function.update_of_ne hne, Function.update_self]
  have hkeep : ∀ k, k < s.nextPromise → k ≠ i → Function.update (Function.update s.promises i
      (some { promise with point := .onTask s.nextPromise next })) s.nextPromise
      (some ⟨.initial task, some i, promise.eventBase, false, promise.root⟩) k =
        s.promises k := by
    intro k hk hki
    rw [Function.update_of_ne (Nat.ne_of_lt hk), Function.update_of_ne hki]
  have hafter : Remains (({ s.setPoint i promise (.onTask s.nextPromise next) with
      current := Function.update s.current promise.eventBase none } : State L A V).registerOn
      promise.eventBase task (some i) promise.root) i task ([] ++ [next]) :=
    .onTask hset rfl (.here (Function.update_self ..) rfl)
  refine h.goOn hlinked hi [] (.here hi (by rw [hpoint]; rfl)) hafter ?_
    (fun k hk => hkeep k (Nat.lt_trans hk hlt) (Nat.ne_of_lt hk)) ⟨_, hset, rfl⟩
    (fun k other hk hroot => ?_) (fun k hk hnone => ?_) (fun _ _ => rfl) rfl (Nat.le_succ _)
    (List.append_nil _).symm
  · intro program done rest hled
    rw [List.append_nil]
    exact hled.call
  · refine (hkeep k (hlinked.tree.known k other hk) ?_).trans hk
    rintro rfl
    cases hi.symm.trans hk
    exact hroot rfl
  · refine (hkeep k hk ?_).trans hnone
    rintro rfl
    cases hi.symm.trans hnone

omit [DecidableEq L] in
/-- A started task that is at its end is destroyed. -/
theorem Faithful.destroy (h : Faithful s) (hlinked : Linked s) {i : ℕ} {promise : Promise L A V}
    {v : V} {current : L → Option ℕ} {owner : ℕ → Owner} (hi : s.promises i = some promise)
    (hpoint : promise.point = .done v) (hstart : promise.suspendingPromise = none) :
    Faithful { s with
      current := current
      promises := Function.update s.promises i none
      destroyed := s.destroyed ++ [i]
      owner := owner } := by
  have hkeep : ∀ k, k ≠ i → Function.update s.promises i none k = s.promises k :=
    fun k hk => Function.update_of_ne hk ..
  have hremains : Remains s i (.coReturn v) [] := .here hi (by rw [hpoint]; rfl)
  have hroot : promise.root = i := hlinked.tree.started i promise hi hstart
  refine ⟨fun r program root hr hlive => ?_, fun r program hr hgone => ?_, h.known, h.logged⟩
  · have hri : r ≠ i := by
      rintro rfl
      simp only [Function.update_self] at hlive
      cases hlive
    have hold : s.promises r = some root := (hkeep r hri).symm.trans hlive
    obtain ⟨hstarted, code, stack, hleft, hled⟩ := h.live r program root hr hold
    have hown := hlinked.tree.started r root hold hstarted
    refine ⟨hstarted, code, stack, hleft.frame hlinked hold fun k other hk hsame => ?_, hled⟩
    refine (hkeep k ?_).trans hk
    rintro rfl
    cases hi.symm.trans hk
    exact hri (hown.symm.trans (hsame.symm.trans hroot))
  · by_cases hri : r = i
    · subst hri
      obtain ⟨_, code, stack, hleft, hled⟩ := h.live r program promise hr hi
      obtain ⟨rfl, rfl⟩ := hleft.unique hremains
      exact ⟨v, (hlinked.returned r promise v hi).mpr hpoint, hled⟩
    · exact h.gone r program hr ((hkeep r hri).symm.trans hgone)

/-- The loop destroys a started task that is at its end. -/
theorem Faithful.remove (h : Faithful s) (hlinked : Linked s) {i : ℕ} {promise : Promise L A V}
    {v : V} (hi : s.promises i = some promise) (hpoint : promise.point = .done v)
    (hrelease : promise.isTaskRelease = true) :
    Faithful { s with
      current := Function.update s.current promise.eventBase none
      promises := Function.update s.promises i none
      destroyed := s.destroyed ++ [i] } := by
  refine h.destroy hlinked hi hpoint ?_
  cases hj : promise.suspendingPromise with
  | none => rfl
  | some j =>
    have hkept := (hlinked.tree.called i promise j hi hj).1
    rw [hrelease] at hkept
    cases hkept

omit [DecidableEq L] in
/-- The owner of a started task leaves it to the loop. -/
theorem Faithful.mark (h : Faithful s) {i : ℕ} {promise : Promise L A V} {owner : ℕ → Owner}
    (hi : s.promises i = some promise) : Faithful { s with
      promises := Function.update s.promises i (some { promise with isTaskRelease := true })
      owner := owner } := by
  refine ⟨fun r program root hr hlive => ?_, fun r program hr hgone => ?_, h.known, h.logged⟩
  · have hold : ∃ old, s.promises r = some old ∧
        root.suspendingPromise = old.suspendingPromise := by
      grind [Function.update_apply]
    obtain ⟨old, hr', hsame⟩ := hold
    obtain ⟨hstarted, code, stack, hleft, hled⟩ := h.live r program old hr hr'
    refine ⟨hsame.trans hstarted, code, stack, hleft.congr fun k other hk => ?_, hled⟩
    by_cases hki : k = i
    · subst hki
      cases hi.symm.trans hk
      exact ⟨_, Function.update_self .., rfl⟩
    · exact ⟨other, (Function.update_of_ne hki ..).trans hk, rfl⟩
  · have hri : r ≠ i := by
      rintro rfl
      simp only [Function.update_self] at hgone
      cases hgone
    exact h.gone r program hr ((Function.update_of_ne hri ..).symm.trans hgone)

theorem Faithful.loopMove {loop : L} (h : Faithful s) (hlinked : Linked s)
    (hmove : LoopMove s loop s') : Faithful s' := by
  cases hmove with
  | keep => exact h.frame hlinked rfl rfl rfl rfl rfl
  | remove hi _ hpoint hrelease => exact h.remove hlinked hi hpoint hrelease
  | resumeTask hi _ _ _ hpoint htask hdone => exact h.resumeTask hlinked hi hpoint htask hdone
  | awaitTask hi hpoint => exact h.awaitTask hlinked hi hpoint
  | @resume i promise code hi _ _ _ hpoint =>
    exact h.goOnAlone hlinked hi (.running code) [] (by rw [hpoint]; rfl) rfl
      (fun _ _ _ hled => by rwa [List.append_nil]) rfl (fun _ _ => rfl) rfl rfl
      (List.append_nil _).symm
  | @resumeFuture i future promise next v hi _ _ _ hpoint hfuture =>
    exact h.goOnAlone hlinked hi (.running (next v)) [.received v]
      (by rw [hpoint]; rfl) rfl (fun _ _ _ hled => hled.receive) rfl (fun _ _ => rfl) rfl rfl rfl
  | @finish i promise v hi hpoint =>
    exact h.goOnAlone hlinked hi (.done v) [] (by rw [hpoint]; rfl) rfl
      (fun _ _ _ hled => by rwa [List.append_nil]) rfl (fun _ hk => Function.update_of_ne hk ..)
      rfl rfl (List.append_nil _).symm
  | @coReturn i j promise v hi hpoint =>
    exact h.goOnAlone hlinked hi (.done v) [] (by rw [hpoint]; rfl) rfl
      (fun _ _ _ hled => by rwa [List.append_nil]) rfl (fun _ hk => Function.update_of_ne hk ..)
      rfl rfl (List.append_nil _).symm
  | @act i promise a next hi hpoint =>
    exact h.goOnAlone hlinked hi (.running next) [.did a]
      (by rw [hpoint]; rfl) rfl (fun _ _ _ hled => hled.act) rfl (fun _ _ => rfl) rfl rfl rfl
  | @startTask i promise loop task next hi hpoint =>
    refine Faithful.start ?_ (hlinked.act hi hpoint (.started loop task) next) loop task
    exact h.goOnAlone hlinked hi (.running next) [.started loop task]
      (by rw [hpoint]; rfl) rfl (fun _ _ _ hled => hled.startRunningOn) rfl (fun _ _ => rfl) rfl
      rfl rfl
  | @awaitFuture i promise next hi hpoint =>
    exact h.goOnAlone hlinked hi (.onFuture s.nextFuture next) []
      (by rw [hpoint]; rfl) rfl (fun _ _ _ hled => by rwa [List.append_nil]) rfl (fun _ _ => rfl)
      rfl rfl (List.append_nil _).symm

theorem Faithful.move (h : Faithful s) (hlinked : Linked s) (hmove : Move s s') :
    Faithful s' := by
  cases hmove with
  | start loop task => exact h.start hlinked loop task
  | set => exact h.frame hlinked rfl rfl rfl rfl rfl
  | isSet => exact h
  | exhaust => exact h.frame hlinked rfl rfl rfl rfl rfl
  | drop => exact h.frame hlinked rfl rfl rfl rfl rfl
  | mark _ hi => exact h.mark hi
  | @release i promise v hremoves hi hpoint =>
    obtain ⟨other, hother, hroot, _⟩ := hlinked.owned.there i (by rw [hremoves]; nofun)
    cases hi.symm.trans hother
    exact h.destroy hlinked hi hpoint hroot
  | loop hmove => exact h.loopMove hlinked hmove

end Moves

end OrderBookServer.EventLoop
