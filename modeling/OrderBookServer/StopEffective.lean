import OrderBookServer.Streaming

/-!
A stop request that is answered has stopped the stream: the runs in which each stop request makes
its check where no start is under way, and no start request is received before it is answered.
-/
namespace OrderBookServer.Streaming

variable {M : Type} {file : DbnFile M} {s t : State M} {a : Action} {g n : ℕ}

def IoTask.request : IoTask → Request
  | .handle r => r
  | .stopStreaming r => r
  | .stopped r => r
  | .goOn r => r

def IoTask.isStopCheck : IoTask → Bool
  | .stopStreaming .stop => true
  | _ => false

/-- A stop request that is past its check and is no longer suspended. -/
def IoTask.isStopping : IoTask → Bool
  | .stopped .stop => true
  | .goOn .stop => true
  | _ => false

namespace State

def NoStart (s : State M) : Prop := ∀ task ∈ s.io, task.request = .stop

/-- A stop request is past its check and has not been answered. -/
def isStopping (s : State M) : Bool :=
  s.io.any IoTask.isStopping ||
    match s.count with
    | 0 => false
    | g + 1 => decide ((s.wrapper g).stopFutureValue = some ⟨.stop, false⟩)

/-- A stop request makes its check where no start request is under way, nor a task that came of
one, and no stream but the one that it stops; and a start request is received where no stop
request waits for its answer. -/
def Settled (s : State M) : Action → Prop
  | .io => s.io.head?.any IoTask.isStopCheck = true →
    s.NoStart ∧ s.gateway.length + s.sleeping.length ≤ s.getIsStreaming.toNat
  | .receive (.start _) => s.isStopping = false
  | _ => True

instance (s : State M) (a : Action) : Decidable (s.Settled a) :=
  match a with
  | .io =>
    have : Decidable s.NoStart := inferInstanceAs (Decidable (∀ task ∈ s.io, _))
    inferInstanceAs (Decidable (_ → _ ∧ _))
  | .receive (.start _) => inferInstanceAs (Decidable (_ = _))
  | .receive .stop => instDecidableTrue
  | .gateway => instDecidableTrue
  | .fire _ => instDecidableTrue

/-- A stream over the wrapper has begun and is not over. -/
def Reads (s : State M) (g : ℕ) : Prop := ∃ n, .resume g n ∈ s.gateway ∨ (g, n) ∈ s.sleeping

/-- A stream that is all there is. -/
theorem Reads.only (h : s.Reads g) (hlength : s.gateway.length + s.sleeping.length ≤ 1) :
    ∃ n, s.gateway = [.resume g n] ∧ s.sleeping = [] ∨ s.gateway = [] ∧ s.sleeping = [(g, n)] := by
  obtain ⟨n, hn⟩ := h
  refine ⟨n, ?_⟩
  rcases hn with hn | hn
  · left
    have hpos := List.length_pos_of_mem hn
    obtain ⟨task, htask⟩ := List.length_eq_one_iff.mp (by omega : s.gateway.length = 1)
    rw [htask] at hn
    rw [htask, List.mem_singleton.mp hn]
    exact ⟨rfl, List.eq_nil_of_length_eq_zero (by omega)⟩
  · right
    have hpos := List.length_pos_of_mem hn
    obtain ⟨x, hx⟩ := List.length_eq_one_iff.mp (by omega : s.sleeping.length = 1)
    rw [hx] at hn
    rw [hx, List.mem_singleton.mp hn]
    exact ⟨List.eq_nil_of_length_eq_zero (by omega), rfl⟩

/-- Nothing is under way that applies a message or could. -/
structure Still (s : State M) : Prop where
  noStart : s.NoStart
  gateway : s.gateway = []
  sleeping : s.sleeping = []

/-- Nothing is under way but the stream over the wrapper, if it is not over. -/
structure OnlyReads (s : State M) (g : ℕ) : Prop where
  noStart : s.NoStart
  count_eq : s.count = g + 1
  stream : s.gateway = [] ∧ s.sleeping = [] ∨
    ∃ n, s.gateway = [.resume g n] ∧ s.sleeping = [] ∨ s.gateway = [] ∧ s.sleeping = [(g, n)]

end State

/-- What the wrappers and the stop requests say of what is under way. -/
structure Settling (s : State M) : Prop where
  reads : ∀ g, (s.wrapper g).isStreaming = true → s.Reads g
  waits : ∀ g, (s.wrapper g).stopFutureValue = some ⟨.stop, false⟩ → s.OnlyReads g
  still : (∃ task ∈ s.io, task.isStopping = true) ∨ s.isQuiet = true → s.Still

theorem settling_init : Settling (init : State M) := by
  refine ⟨fun g hflag => ?_, fun g hslot => ?_, fun hquiet => ?_⟩
  · cases hflag
  · cases hslot
  · rcases hquiet with ⟨task, hmem, _⟩ | hquiet
    · cases hmem
    · cases hquiet

section Requests

variable {task task' : IoTask} {rest tasks : List IoTask} {r : Request}

theorem request_append (hno : ∀ k ∈ tasks, k.request = .stop) (htask : task.request = .stop) :
    ∀ k ∈ tasks ++ [task], k.request = .stop :=
  List.forall_mem_append.mpr ⟨hno, List.forall_mem_singleton.mpr htask⟩

/-- A stop request past its check was there before. -/
theorem stopping_append (htask : task.isStopping = true → ∃ k ∈ tasks, k.isStopping = true) :
    ∀ k ∈ tasks ++ [task], k.isStopping = true → ∃ k ∈ tasks, k.isStopping = true :=
  List.forall_mem_append.mpr
    ⟨fun k hmem hk => ⟨k, hmem, hk⟩, List.forall_mem_singleton.mpr htask⟩

/-- Nothing changes but the I/O queue, which gets no start request and no stop request past its
check. -/
theorem Settling.io (h : Settling s) (hstart : s.NoStart → ∀ task ∈ tasks, task.request = .stop)
    (hstop : ∀ task ∈ tasks, task.isStopping = true → ∃ task ∈ s.io, task.isStopping = true) :
    Settling { s with io := tasks } := by
  refine ⟨h.reads, fun g hslot => ?_, fun hquiet => ?_⟩
  · obtain ⟨hno, hcount, hstream⟩ := h.waits g hslot
    exact ⟨hstart hno, hcount, hstream⟩
  · have hstill : s.Still := by
      apply h.still
      rcases hquiet with ⟨task, hmem, htask⟩ | hquiet
      · exact Or.inl (hstop task hmem htask)
      · exact Or.inr hquiet
    exact ⟨hstart hstill.noStart, hstill.gateway, hstill.sleeping⟩

theorem Settling.receive (h : Settling s) (hsettled : s.Settled (.receive r)) :
    Settling (s.receive r) := by
  cases r with
  | stop =>
    have hstep : Settling { s with io := s.io ++ [.handle .stop] } := by
      refine h.io (fun hno => request_append hno rfl) (stopping_append fun htask => ?_)
      cases htask
    have hquiet : s.receive .stop = { s with io := s.io ++ [.handle .stop] } := by
      unfold State.receive
      rw [decide_eq_true rfl, Bool.and_true]
    rw [hquiet]
    exact hstep
  | start hasSpeed =>
    have hnot : s.isStopping = false := hsettled
    unfold State.isStopping at hnot
    obtain ⟨hio, hslot⟩ := Bool.or_eq_false_iff.mp hnot
    refine ⟨h.reads, fun g hunset => ?_, fun hquiet => ?_⟩
    · have hcount := (h.waits g hunset).count_eq
      rw [hcount] at hslot
      exact absurd hunset (of_decide_eq_false hslot)
    · rcases hquiet with ⟨task, hmem, htask⟩ | hquiet
      · obtain ⟨k, hk, hstop⟩ := stopping_append (fun hhandle => by cases hhandle) task hmem htask
        rw [List.any_eq_false] at hio
        exact absurd hstop (hio k hk)
      · change (s.isQuiet && false) = true at hquiet
        rw [Bool.and_false] at hquiet
        cases hquiet

/-- A request goes on to its next step. -/
theorem Settling.next (h : Settling s) (hio : s.io = task :: rest)
    (hrequest : task'.request = task.request)
    (hstopping : task'.isStopping = true → task.isStopping = true) :
    Settling { s with io := rest ++ [task'] } := by
  refine h.io (fun hno => ?_) (fun k hmem hk => ?_)
  · unfold State.NoStart at hno
    rw [hio] at hno
    obtain ⟨htask, hrest⟩ := List.forall_mem_cons.mp hno
    exact request_append hrest (hrequest.trans htask)
  · rcases List.mem_append.mp hmem with hmem | hmem
    · exact ⟨k, hio ▸ List.mem_cons_of_mem _ hmem, hk⟩
    · rw [List.mem_singleton.mp hmem] at hk
      exact ⟨task, hio ▸ List.mem_cons_self, hstopping hk⟩

/-- A request leaves the queue. -/
theorem Settling.drop (h : Settling s) (hio : s.io = task :: rest) :
    Settling { s with io := rest } :=
  h.io (fun hno k hmem => hno k (hio ▸ List.mem_cons_of_mem _ hmem))
    (fun k hmem hk => ⟨k, hio ▸ List.mem_cons_of_mem _ hmem, hk⟩)

/-- While a start request is under way, no stop request waits for its answer. -/
theorem Settling.not_still_of_start (h : Settling s) (hmem : task ∈ s.io)
    (htask : task.request ≠ .stop) :
    (∀ g, (s.wrapper g).stopFutureValue ≠ some ⟨.stop, false⟩) ∧
      ¬ ((∃ task ∈ s.io, task.isStopping = true) ∨ s.isQuiet = true) :=
  ⟨fun g hslot => htask ((h.waits g hslot).noStart task hmem),
    fun hquiet => htask ((h.still hquiet).noStart task hmem)⟩

/-- The stream that is there is told to stop. -/
theorem Settling.stop (h : Settling s) (hflag : s.getIsStreaming = true)
    (hreads : ∀ g, s.count = g + 1 → r = .stop → s.OnlyReads g)
    (hother : ∀ g, (s.wrapper g).stopFutureValue = some ⟨.stop, false⟩ → s.count = g + 1) :
    Settling (s.stop r) := by
  unfold State.getIsStreaming at hflag
  unfold State.stop
  cases hcount : s.count with
  | zero =>
    rw [hcount] at hflag
    cases hflag
  | succ g =>
    simp only [hcount] at hflag
    refine ⟨fun k hk => ?_, fun k hk => ?_, fun hquiet => ?_⟩
    · change (Function.update s.wrapper g _ k).isStreaming = true at hk
      by_cases heq : k = g
      · rw [heq, Function.update_self] at hk
        cases hk
      · rw [Function.update_of_ne heq] at hk
        exact h.reads k hk
    · change (Function.update s.wrapper g _ k).stopFutureValue = _ at hk
      by_cases heq : k = g
      · rw [heq, Function.update_self] at hk
        cases hk
        rw [heq]
        obtain ⟨hno, hcount', hstream⟩ := hreads g hcount rfl
        exact ⟨hno, hcount', hstream⟩
      · rw [Function.update_of_ne heq] at hk
        have hcount' := hother k hk
        rw [hcount] at hcount'
        exact absurd (Nat.succ.inj hcount').symm heq
    · have hstill := h.still hquiet
      obtain ⟨n, hn⟩ := h.reads g hflag
      rw [hstill.gateway, hstill.sleeping] at hn
      rcases hn with hn | hn
      · cases hn
      · cases hn

/-- The check of a stop request. It finds the one stream that it stops, or nothing. -/
theorem Settling.checkStop (h : Settling s) (hio : s.io = .stopStreaming .stop :: rest)
    (hno : s.NoStart)
    (hlength : s.gateway.length + s.sleeping.length ≤ s.getIsStreaming.toNat) :
    Settling (({ s with io := rest } : State M).runIo (.stopStreaming .stop)) := by
  have hrest : ∀ task ∈ rest, task.request = .stop :=
    fun task hmem => hno task (hio ▸ List.mem_cons_of_mem _ hmem)
  by_cases hflag : s.getIsStreaming = true
  · rw [State.runIo_stopStreaming_of_streaming (by exact hflag)]
    refine (h.drop hio).stop hflag (fun g hcount _ => ⟨hrest, hcount, ?_⟩)
      (fun g hslot => (h.waits g hslot).count_eq)
    rw [hflag] at hlength
    rw [State.getIsStreaming_of_count (s := s) hcount] at hflag
    exact Or.inr (State.Reads.only (h.reads g hflag) hlength)
  · rw [State.runIo_stopStreaming_of_not (by exact hflag)]
    rw [Bool.eq_false_iff.mpr hflag] at hlength
    change s.gateway.length + s.sleeping.length ≤ 0 at hlength
    have hgateway : s.gateway = [] := List.eq_nil_of_length_eq_zero (by omega)
    have hsleeping : s.sleeping = [] := List.eq_nil_of_length_eq_zero (by omega)
    have hall : ∀ task ∈ rest ++ [.goOn .stop], task.request = .stop := request_append hrest rfl
    refine ⟨h.reads, fun g hslot => ?_, fun _ => ⟨hall, hgateway, hsleeping⟩⟩
    exact ⟨hall, (h.waits g hslot).count_eq, Or.inl ⟨hgateway, hsleeping⟩⟩

/-- The check of a start request, before which no stop request waits. -/
theorem Settling.checkStart (h : Settling s) {hasSpeed : Bool}
    (hio : s.io = .stopStreaming (.start hasSpeed) :: rest) :
    Settling (({ s with io := rest } : State M).runIo (.stopStreaming (.start hasSpeed))) := by
  have hmem : IoTask.stopStreaming (.start hasSpeed) ∈ s.io := hio ▸ List.mem_cons_self
  obtain ⟨hfree, _⟩ := h.not_still_of_start hmem (fun heq => by cases heq)
  by_cases hflag : s.getIsStreaming = true
  · rw [State.runIo_stopStreaming_of_streaming (by exact hflag)]
    refine (h.drop hio).stop hflag (fun g _ heq => ?_) (fun g hslot => absurd hslot (hfree g))
    cases heq
  · rw [State.runIo_stopStreaming_of_not (by exact hflag)]
    exact h.next hio rfl (fun hstop => hstop)

theorem Settling.initializeController (h : Settling s) {hasSpeed : Bool}
    (hio : s.io = .goOn (.start hasSpeed) :: rest) :
    Settling { ({ s with io := rest } : State M).initializeController with
      gateway := s.gateway ++ [.startStreaming hasSpeed] } := by
  have hmem : IoTask.goOn (.start hasSpeed) ∈ s.io := hio ▸ List.mem_cons_self
  obtain ⟨hfree, hbusy⟩ := h.not_still_of_start hmem (fun heq => by cases heq)
  refine ⟨fun k hk => ?_, fun k hk => ?_, fun hquiet => ?_⟩
  · change (Function.update s.wrapper s.count DbnWrapper.new k).isStreaming = true at hk
    by_cases heq : k = s.count
    · rw [heq, Function.update_self] at hk
      cases hk
    · rw [Function.update_of_ne heq] at hk
      obtain ⟨n, hn⟩ := h.reads k hk
      rcases hn with hn | hn
      · exact ⟨n, Or.inl (List.mem_append_left _ hn)⟩
      · exact ⟨n, Or.inr hn⟩
  · change (Function.update s.wrapper s.count DbnWrapper.new k).stopFutureValue = _ at hk
    by_cases heq : k = s.count
    · rw [heq, Function.update_self] at hk
      cases hk
    · rw [Function.update_of_ne heq] at hk
      exact absurd hk (hfree k)
  · refine absurd ?_ hbusy
    rcases hquiet with ⟨task, htask, hstop⟩ | hquiet
    · exact Or.inl ⟨task, hio ▸ List.mem_cons_of_mem _ htask, hstop⟩
    · exact Or.inr hquiet

/-- The answer of a stop request. -/
theorem Settling.answer (h : Settling s) (hio : s.io = .goOn .stop :: rest) :
    Settling { s with io := rest, isQuiet := true } := by
  have hstill := h.still (Or.inl ⟨_, hio ▸ List.mem_cons_self, rfl⟩)
  have hdrop := h.drop hio
  have hno : ∀ task ∈ rest, task.request = .stop :=
    fun task hmem => hstill.noStart task (hio ▸ List.mem_cons_of_mem _ hmem)
  refine ⟨h.reads, fun g hslot => ?_, fun _ => ⟨hno, hstill.gateway, hstill.sleeping⟩⟩
  obtain ⟨_, hcount, hstream⟩ := h.waits g hslot
  exact ⟨hno, hcount, hstream⟩

/-- What a step of the I/O loop preserves. -/
theorem Settling.runIo (h : Settling s) (hio : s.io = task :: rest)
    (hsettled : task.isStopCheck = true →
      s.NoStart ∧ s.gateway.length + s.sleeping.length ≤ s.getIsStreaming.toNat) :
    Settling (({ s with io := rest } : State M).runIo task) := by
  cases task with
  | handle r => exact h.next hio rfl (fun hstop => by cases hstop)
  | stopStreaming r =>
    cases r with
    | start hasSpeed => exact h.checkStart hio
    | stop =>
      obtain ⟨hno, hlength⟩ := hsettled rfl
      exact h.checkStop hio hno hlength
  | stopped r =>
    cases r with
    | start hasSpeed => exact h.next hio rfl (fun hstop => hstop)
    | stop => exact h.next hio rfl (fun hstop => hstop)
  | goOn r =>
    cases r with
    | start hasSpeed => exact h.initializeController hio
    | stop => exact h.answer hio

end Requests

section Streams

variable {task : GatewayTask} {rest : List GatewayTask} {r : Request}

/-- The stream over the wrapper runs, and its task has left the queue. A stop request that waits
then waits for this stream. -/
structure Running (s : State M) (g : ℕ) : Prop where
  reads : ∀ k, k ≠ g → (s.wrapper k).isStreaming = true → s.Reads k
  waits : ∀ k, (s.wrapper k).stopFutureValue = some ⟨.stop, false⟩ →
    k = g ∧ s.count = g + 1 ∧ s.Still
  busy : ¬ ((∃ task ∈ s.io, task.isStopping = true) ∨ s.isQuiet = true)

theorem Running.setWrapper (h : Running s g) {w : DbnWrapper}
    (hslot : w.stopFutureValue = some ⟨.stop, false⟩ →
      (s.wrapper g).stopFutureValue = some ⟨.stop, false⟩) : Running (s.setWrapper g w) g := by
  refine ⟨fun k hne hk => ?_, fun k hk => ?_, h.busy⟩
  · change (Function.update s.wrapper g w k).isStreaming = true at hk
    rw [Function.update_of_ne hne] at hk
    exact h.reads k hne hk
  · change (Function.update s.wrapper g w k).stopFutureValue = _ at hk
    have hsame : (s.wrapper k).stopFutureValue = some ⟨.stop, false⟩ := by
      by_cases heq : k = g
      · rw [heq, Function.update_self] at hk
        rw [heq]
        exact hslot hk
      · rw [Function.update_of_ne heq] at hk
        exact hk
    obtain ⟨heq, hcount, hstill⟩ := h.waits k hsame
    exact ⟨heq, hcount, hstill.noStart, hstill.gateway, hstill.sleeping⟩

theorem Running.books (h : Running s g) {book : ℕ → List (Option M)} {begun : ℕ → ℕ} :
    Running { s with book := book, begun := begun } g := by
  refine ⟨h.reads, fun k hk => ?_, h.busy⟩
  obtain ⟨heq, hcount, hstill⟩ := h.waits k hk
  exact ⟨heq, hcount, hstill.noStart, hstill.gateway, hstill.sleeping⟩

/-- A stream that is over, once its future is set if there is one. -/
theorem Running.over (h : Running s g) (slot : Option StopFuture)
    (hslot : slot ≠ some ⟨.stop, false⟩) {tasks : List IoTask}
    (hstopping : (∃ task ∈ tasks, task.isStopping = true) → s.Still ∧
      ∀ task ∈ tasks, task.request = .stop) :
    Settling { s.setWrapper g
      { s.wrapper g with isStreaming := false, stopFutureValue := slot } with io := tasks } := by
  have hwrapper : ∀ k, ((s.setWrapper g { s.wrapper g with
      isStreaming := false, stopFutureValue := slot }).wrapper k).stopFutureValue =
        some ⟨.stop, false⟩ → False := by
    intro k hk
    change (Function.update s.wrapper g _ k).stopFutureValue = _ at hk
    by_cases heq : k = g
    · rw [heq, Function.update_self] at hk
      exact hslot hk
    · rw [Function.update_of_ne heq] at hk
      exact heq (h.waits k hk).1
  refine ⟨fun k hk => ?_, fun k hk => (hwrapper k hk).elim, fun hquiet => ?_⟩
  · change (Function.update s.wrapper g _ k).isStreaming = true at hk
    by_cases heq : k = g
    · rw [heq, Function.update_self] at hk
      cases hk
    · rw [Function.update_of_ne heq] at hk
      exact h.reads k heq hk
  · rcases hquiet with hstop | hquiet
    · obtain ⟨hstill, hno⟩ := hstopping hstop
      exact ⟨hno, hstill.gateway, hstill.sleeping⟩
    · exact absurd (Or.inr hquiet) h.busy

/-- The end of the stream lets the request go on that waits for it. -/
theorem Running.finish (h : Running s g) : Settling (s.finish g) := by
  have hbusy : (∃ task ∈ s.io, task.isStopping = true) → s.Still ∧
      ∀ task ∈ s.io, task.request = .stop :=
    fun hstop => absurd (Or.inl hstop) h.busy
  unfold State.finish
  cases hslot : (s.wrapper g).stopFutureValue with
  | none =>
    have hover := h.over none (fun heq => by cases heq) hbusy
    rw [← hslot] at hover
    exact hover
  | some future =>
    obtain ⟨r, isSet⟩ := future
    cases isSet with
    | true =>
      have hover := h.over (some ⟨r, true⟩) (fun heq => by cases heq) hbusy
      rw [← hslot] at hover
      exact hover
    | false =>
      apply h.over (some ⟨r, true⟩) (fun heq => by cases heq)
      intro hstop
      cases r with
      | start hasSpeed =>
        obtain ⟨task, hmem, htask⟩ := hstop
        have hbefore := stopping_append (fun hresumed => by cases hresumed) task hmem htask
        exact absurd (Or.inl hbefore) h.busy
      | stop =>
        obtain ⟨_, _, hstill⟩ := h.waits g hslot
        exact ⟨hstill, request_append hstill.noStart rfl⟩

/-- The stream sleeps. -/
theorem Running.sleep (h : Running s g) :
    Settling { s with sleeping := s.sleeping ++ [(g, n)] } := by
  refine ⟨fun k hk => ?_, fun k hk => ?_, fun hquiet => absurd hquiet h.busy⟩
  · by_cases heq : k = g
    · rw [heq]
      exact ⟨n, Or.inr (List.mem_append_right _ (List.mem_singleton_self _))⟩
    · obtain ⟨m, hm⟩ := h.reads k heq hk
      rcases hm with hm | hm
      · exact ⟨m, Or.inl hm⟩
      · exact ⟨m, Or.inr (List.mem_append_left _ hm)⟩
  · obtain ⟨heq, hcount, hstill⟩ := h.waits k hk
    rw [heq]
    refine ⟨hstill.noStart, hcount, Or.inr ⟨n, Or.inr ⟨hstill.gateway, ?_⟩⟩⟩
    show s.sleeping ++ [(g, n)] = [(g, n)]
    rw [hstill.sleeping]
    rfl

/-- What one pass of the loop preserves. -/
theorem Running.loop (h : Running s g) : Settling (s.loop file g) := by
  have htake : Running (s.take g (s.pass file g)) g :=
    (h.setWrapper (w := { s.wrapper g with position := (s.pass file g).position })
      fun heq => heq).books
  unfold State.loop
  by_cases hflag : (s.wrapper g).isStreaming = true
  · rw [if_pos hflag]
    by_cases hsleep : (s.pass file g).isAsleep = true
    · rw [if_pos hsleep]
      exact htake.sleep
    · rw [if_neg hsleep]
      exact htake.finish
  · rw [if_neg hflag]
    exact h.finish

/-- While the GATEWAY loop has a task, no stop request is about to be answered. -/
theorem Settling.not_still (h : Settling s) (hgateway : s.gateway = task :: rest) :
    ¬ ((∃ task ∈ s.io, task.isStopping = true) ∨ s.isQuiet = true) := by
  intro hquiet
  rw [(h.still hquiet).gateway] at hgateway
  cases hgateway

/-- A stop request waits only for the stream whose step is next. -/
theorem Settling.waits_task (h : Settling s) (hgateway : s.gateway = task :: rest) {k : ℕ}
    (hk : (s.wrapper k).stopFutureValue = some ⟨.stop, false⟩) :
    ∃ n, task = .resume k n ∧ rest = [] ∧ s.sleeping = [] ∧ s.count = k + 1 ∧ s.NoStart := by
  obtain ⟨hno, hcount, hstream⟩ := h.waits k hk
  rw [hgateway] at hstream
  rcases hstream with ⟨hnil, _⟩ | ⟨n, ⟨htask, hsleeping⟩ | ⟨hnil, _⟩⟩
  · cases hnil
  · cases htask
    exact ⟨n, rfl, rfl, hsleeping, hcount, hno⟩
  · cases hnil

theorem Settling.startStreaming (h : Settling s) {hasSpeed : Bool}
    (hgateway : s.gateway = .startStreaming hasSpeed :: rest) :
    Settling (({ s with gateway := rest } : State M).startStreaming hasSpeed) := by
  have hfree : ∀ k, (s.wrapper k).stopFutureValue ≠ some ⟨.stop, false⟩ := by
    intro k hk
    obtain ⟨n, htask, _⟩ := h.waits_task hgateway hk
    cases htask
  have hreads : ∀ k, (s.wrapper k).isStreaming = true →
      ∃ n, .resume k n ∈ rest ∨ (k, n) ∈ s.sleeping := by
    intro k hk
    obtain ⟨n, hn⟩ := h.reads k hk
    rw [hgateway, List.mem_cons] at hn
    rcases hn with (htask | hn) | hn
    · cases htask
    · exact ⟨n, Or.inl hn⟩
    · exact ⟨n, Or.inr hn⟩
  by_cases hzero : s.count = 0
  · rw [State.startStreaming_of_zero (by exact hzero)]
    exact ⟨hreads, fun k hk => absurd hk (hfree k),
      fun hquiet => absurd hquiet (h.not_still hgateway)⟩
  · obtain ⟨g, hcount⟩ := Nat.exists_eq_succ_of_ne_zero hzero
    rw [State.startStreaming_of_count (by exact hcount)]
    refine ⟨fun k hk => ?_, fun k hk => ?_, fun hquiet => absurd hquiet (h.not_still hgateway)⟩
    · have hflag : (s.wrapper k).isStreaming = true := by
        change (Function.update s.wrapper g _ k).isStreaming = true at hk
        by_cases heq : k = g
        · rw [heq, Function.update_self] at hk
          rw [heq]
          exact hk
        · rw [Function.update_of_ne heq] at hk
          exact hk
      obtain ⟨n, hn⟩ := hreads k hflag
      rcases hn with hn | hn
      · exact ⟨n, Or.inl (List.mem_append_left _ hn)⟩
      · exact ⟨n, Or.inr hn⟩
    · change (Function.update s.wrapper g _ k).stopFutureValue = _ at hk
      by_cases heq : k = g
      · rw [heq, Function.update_self] at hk
        exact absurd hk (hfree g)
      · rw [Function.update_of_ne heq] at hk
        exact absurd hk (hfree k)

/-- The step of a stream begins. -/
theorem Settling.running (h : Settling s) (hgateway : s.gateway = task :: rest)
    (htask : task = .startStreamData g ∨ ∃ n, task = .resume g n) :
    Running { s with gateway := rest } g := by
  refine ⟨fun k hne hk => ?_, fun k hk => ?_, h.not_still hgateway⟩
  · obtain ⟨n, hn⟩ := h.reads k hk
    rw [hgateway, List.mem_cons] at hn
    rcases hn with (heq | hn) | hn
    · rcases htask with htask | ⟨m, htask⟩
      · rw [htask] at heq
        cases heq
      · rw [htask] at heq
        cases heq
        exact absurd rfl hne
    · exact ⟨n, Or.inl hn⟩
    · exact ⟨n, Or.inr hn⟩
  · obtain ⟨n, heq, hrest, hsleeping, hcount, hno⟩ := h.waits_task hgateway hk
    rcases htask with htask | ⟨m, htask⟩
    · rw [htask] at heq
      cases heq
    · rw [htask] at heq
      cases heq
      exact ⟨rfl, hcount, hno, hrest, hsleeping⟩

theorem Settling.runGateway (h : Settling s) (hgateway : s.gateway = task :: rest) :
    Settling (({ s with gateway := rest } : State M).runGateway file task) := by
  cases task with
  | startStreaming hasSpeed => exact h.startStreaming hgateway
  | startStreamData g =>
    have hrunning := (h.running hgateway (Or.inl rfl)).setWrapper
      (w := { s.wrapper g with isStreaming := true, stopFutureValue := none })
      (fun heq => by cases heq)
    exact hrunning.books.loop
  | resume g n =>
    exact (h.running hgateway (Or.inr ⟨n, rfl⟩)).books.loop

/-- The timer of a stream fires. -/
theorem Settling.fire (h : Settling s) {i : ℕ} (hi : s.sleeping[i]? = some (g, n)) :
    Settling { s with
      sleeping := s.sleeping.eraseIdx i
      gateway := s.gateway ++ [.resume g n] } := by
  have hmem : (g, n) ∈ s.sleeping := List.mem_of_getElem? hi
  refine ⟨fun k hk => ?_, fun k hk => ?_, fun hquiet => ?_⟩
  · obtain ⟨m, hm⟩ := h.reads k hk
    rcases hm with hm | hm
    · exact ⟨m, Or.inl (List.mem_append_left _ hm)⟩
    · obtain ⟨j, hj⟩ := List.mem_iff_getElem?.mp hm
      by_cases hij : j = i
      · rw [hij, hi] at hj
        cases hj
        exact ⟨n, Or.inl (List.mem_append_right _ (List.mem_singleton_self _))⟩
      · exact ⟨m, Or.inr (List.mem_eraseIdx_iff_getElem?.mpr ⟨j, hij, hj⟩)⟩
  · obtain ⟨hno, hcount, hstream⟩ := h.waits k hk
    refine ⟨hno, hcount, ?_⟩
    rcases hstream with ⟨_, hnil⟩ | ⟨m, ⟨_, hnil⟩ | ⟨hgateway, hsleeping⟩⟩
    · rw [hnil] at hmem
      cases hmem
    · rw [hnil] at hmem
      cases hmem
    · rw [hsleeping] at hmem hi
      cases List.mem_singleton.mp hmem
      refine Or.inr ⟨n, Or.inl ⟨?_, ?_⟩⟩
      · show s.gateway ++ [.resume g n] = [.resume g n]
        rw [hgateway]
        rfl
      · have hlt := (List.getElem?_eq_some_iff.mp hi).1
        show s.sleeping.eraseIdx i = []
        rw [hsleeping]
        cases i with
        | zero => rfl
        | succ i => exact absurd hlt (Nat.not_lt.mpr (Nat.succ_le_succ (Nat.zero_le i)))
  · rw [(h.still hquiet).sleeping] at hmem
    cases hmem

/-- What a step preserves. -/
theorem Settling.move (h : Settling s) (hsettled : s.Settled a) (hmove : Move file s a t) :
    Settling t := by
  cases hmove with
  | receive => exact h.receive hsettled
  | io hio =>
    refine h.runIo hio fun hcheck => hsettled ?_
    rw [hio]
    exact hcheck
  | gateway hgateway => exact h.runGateway hgateway
  | fire hi => exact h.fire hi

/-- Where nothing is under way, no step touches a book. -/
theorem State.Still.book_eq (h : s.Still) (hmove : Move file s a t) : t.book = s.book := by
  cases hmove with
  | receive => rfl
  | gateway hgateway =>
    rw [h.gateway] at hgateway
    cases hgateway
  | fire _ => rfl
  | @io task rest hio =>
    have hrequest := h.noStart task (hio ▸ List.mem_cons_self)
    cases task with
    | handle r => rfl
    | stopped r => rfl
    | stopStreaming r =>
      by_cases hflag : s.getIsStreaming = true
      · rw [State.runIo_stopStreaming_of_streaming (by exact hflag)]
        obtain ⟨wrapper, hstop, _⟩ := State.exists_stop_eq { s with io := rest } r
        rw [hstop]
      · rw [State.runIo_stopStreaming_of_not (by exact hflag)]
    | goOn r =>
      cases hrequest
      rfl

end Streams

section Stopping

/-- From the answer of a stop request until a start request is received, no message is applied
to any book. -/
theorem book_eq_of_settled
    (h : Runs.Reaches (fun s a => s.step file a) (fun s a => s.Settled a) init s)
    (hquiet : s.isQuiet = true) (hstep : s.step file a = some t) : t.book = s.book := by
  have hsettling : Settling s := h.invariant
    (fun _ _ _ hs hsettled hstep => hs.move hsettled (move_of_step hstep)) settling_init
  exact (hsettling.still (Or.inr hquiet)).book_eq (move_of_step hstep)

/-- A stop while the stream sleeps, and its answer. -/
theorem book_eq_of_settled_answered : ∃ s t : State Char,
    Runs.Reaches (fun s a => s.step twoMbos a) (fun s a => s.Settled a) init s ∧
      s.book 0 = [some 'a'] ∧ s.isQuiet = true ∧
      s.step twoMbos (.receive .stop) = some t ∧ t.book = s.book := by
  have hrun := Runs.Reaches.follow [.receive (.start true), .io, .io, .io, .gateway, .gateway,
    .receive .stop, .io, .io, .fire 0, .gateway, .io, .io]
    (.start : Runs.Reaches (fun s a => s.step twoMbos a) (fun s a => s.Settled a) init init) rfl
  exact ⟨_, _, hrun, rfl, rfl, rfl, book_eq_of_settled (a := .receive .stop) hrun rfl rfl⟩

/-- The stop is answered before the task that streams has run. -/
theorem not_book_eq_started : ¬ ∀ (s t : State Char) (a : Action),
    Runs.Reaches (fun s a => s.step twoMbos a) (fun _ _ => True) init s →
      s.isQuiet = true → s.step twoMbos a = some t → t.book = s.book := by
  intro hall
  have hrun := Runs.Reaches.follow [.receive (.start false), .io, .io, .io, .receive .stop, .io,
    .io, .io, .gateway]
    (.start : Runs.Reaches (fun s a => s.step twoMbos a) (fun _ _ => True) init init) rfl
  have hbook := congrFun (hall _ _ .gateway hrun rfl rfl) 0
  have hbad : ([some 'a', some 'b'] : List (Option Char)) ≠ [] := by decide
  exact hbad hbook

end Stopping

end OrderBookServer.Streaming
