import OrderBookServer.Streaming

/-!
One start at a time. As long as a start request that finds nothing streaming is alone, at most one
stream is under way, over the wrapper and the book that are there.
-/
namespace OrderBookServer.Streaming

variable {M : Type} {file : DbnFile M} {s t : State M} {a : Action} {g n : ℕ}

/-- A start request between its check and its call of `initialize`. -/
def IoTask.isStarting : IoTask → Bool
  | .stopped (.start _) => true
  | .goOn (.start _) => true
  | _ => false

def IoTask.isStartCheck : IoTask → Bool
  | .stopStreaming (.start _) => true
  | _ => false

namespace State

/-- The start requests that are past their check, and the tasks and streams that came of those
before. -/
def underWay (s : State M) : ℕ :=
  s.io.countP IoTask.isStarting + s.gateway.length + s.sleeping.length

/-- A start request that finds nothing streaming finds nothing under way. -/
def Alone (s : State M) : Action → Prop
  | .io => s.io.head?.any IoTask.isStartCheck = true → s.getIsStreaming = false → s.underWay = 0
  | _ => True

instance (s : State M) (a : Action) : Decidable (s.Alone a) :=
  match a with
  | .io => inferInstanceAs (Decidable (_ → _))
  | .receive _ => instDecidableTrue
  | .gateway => instDecidableTrue
  | .fire _ => instDecidableTrue

/-- The wrapper and the book as `initialize` has made them. -/
structure Untouched (s : State M) (g : ℕ) : Prop where
  count_eq : s.count = g + 1
  position_eq : (s.wrapper g).position = 0
  book_eq : s.book g = []
  begun_eq : s.begun g = 0

/-- The book has what came before the record that the stream has in hand. -/
structure Holding (file : DbnFile M) (s : State M) (g n : ℕ) : Prop where
  count_eq : s.count = g + 1
  position_eq : (s.wrapper g).position = n + 1
  inHand : file.InHand n
  book_eq : s.book g = (file.mbosBefore n).map some

end State

/-- How far the start that is under way has come. -/
inductive Stage
  | idle
  | starting
  | started (hasSpeed : Bool)
  | created (g : ℕ)
  | asleep (g n : ℕ)
  | awake (g n : ℕ)

namespace Stage

def starts : Stage → ℕ
  | .starting => 1
  | _ => 0

def gateway : Stage → List GatewayTask
  | .started hasSpeed => [.startStreaming hasSpeed]
  | .created g => [.startStreamData g]
  | .awake g n => [.resume g n]
  | _ => []

/-- The stage in which the GATEWAY loop has the task to run. -/
def ofTask : GatewayTask → Stage
  | .startStreaming hasSpeed => .started hasSpeed
  | .startStreamData g => .created g
  | .resume g n => .awake g n

def sleeping : Stage → List (ℕ × ℕ)
  | .asleep g n => [(g, n)]
  | _ => []

def isReading : Stage → Bool
  | .asleep _ _ => true
  | .awake _ _ => true
  | _ => false

def Holds (file : DbnFile M) (s : State M) : Stage → Prop
  | .idle => True
  | .starting => True
  | .started _ => ∃ g, s.Untouched g
  | .created g => s.Untouched g
  | .asleep g n => s.Holding file g n
  | .awake g n => s.Holding file g n

theorem eq_ofTask {stage : Stage} {task : GatewayTask} {rest : List GatewayTask}
    (h : stage.gateway = task :: rest) : stage = ofTask task ∧ rest = [] := by
  cases stage with
  | idle => cases h
  | starting => cases h
  | asleep g n => cases h
  | started hasSpeed =>
    cases h
    exact ⟨rfl, rfl⟩
  | created g =>
    cases h
    exact ⟨rfl, rfl⟩
  | awake g n =>
    cases h
    exact ⟨rfl, rfl⟩

theorem eq_asleep {stage : Stage} {g n i : ℕ} (h : stage.sleeping[i]? = some (g, n)) :
    stage = .asleep g n ∧ i = 0 := by
  cases stage with
  | idle => cases h
  | starting => cases h
  | started hasSpeed => cases h
  | created g => cases h
  | awake g n => cases h
  | asleep g n =>
    cases i with
    | zero =>
      cases h
      exact ⟨rfl, rfl⟩
    | succ i => cases h

end Stage

/-- What holds of all the books that there were. -/
structure Books (file : DbnFile M) (s : State M) : Prop where
  replayed : ∀ g, s.book g <+: file.mbos.map some
  once : ∀ g, s.begun g ≤ 1
  unused : ∀ g, s.count ≤ g → s.begun g = 0

structure Inv (file : DbnFile M) (s : State M) (stage : Stage) : Prop where
  starts : s.io.countP IoTask.isStarting = stage.starts
  gateway : s.gateway = stage.gateway
  sleeping : s.sleeping = stage.sleeping
  flagged : s.getIsStreaming = true → stage.isReading = true
  holds : stage.Holds file s
  books : Books file s

theorem inv_init : Inv file (init : State M) .idle := by
  refine ⟨rfl, rfl, rfl, fun hflag => ?_, trivial,
    fun g => ?_, fun _ => Nat.zero_le _, fun _ _ => rfl⟩
  · cases hflag
  · exact List.nil_prefix

/-- Nothing changes but the I/O queue. -/
theorem Inv.io {stage : Stage} (h : Inv file s stage) {io : List IoTask} {b : Bool}
    (hio : io.countP IoTask.isStarting = stage.starts) :
    Inv file { s with io := io, isQuiet := b } stage := by
  refine ⟨hio, h.gateway, h.sleeping, h.flagged, ?_,
    ⟨h.books.replayed, h.books.once, h.books.unused⟩⟩
  cases stage with
  | idle => trivial
  | starting => trivial
  | started hasSpeed =>
    obtain ⟨g, hg⟩ := h.holds
    exact ⟨g, hg.count_eq, hg.position_eq, hg.book_eq, hg.begun_eq⟩
  | created g => exact ⟨h.holds.count_eq, h.holds.position_eq, h.holds.book_eq, h.holds.begun_eq⟩
  | asleep g n => exact ⟨h.holds.count_eq, h.holds.position_eq, h.holds.inHand, h.holds.book_eq⟩
  | awake g n => exact ⟨h.holds.count_eq, h.holds.position_eq, h.holds.inHand, h.holds.book_eq⟩

section Requests

variable {stage : Stage} {task task' : IoTask} {rest : List IoTask} {r : Request}

theorem countP_rest (hio : s.io = task :: rest) :
    s.io.countP IoTask.isStarting = rest.countP IoTask.isStarting + task.isStarting.toNat := by
  rw [hio, List.countP_cons]
  cases task.isStarting with
  | true => rfl
  | false => rfl

theorem countP_append_singleton (rest : List IoTask) (task : IoTask) :
    (rest ++ [task]).countP IoTask.isStarting =
      rest.countP IoTask.isStarting + task.isStarting.toNat := by
  rw [List.countP_append, List.countP_singleton]
  cases task.isStarting with
  | true => rfl
  | false => rfl

theorem Inv.receive (h : Inv file s stage) (r : Request) : Inv file (s.receive r) stage := by
  apply h.io
  rw [countP_append_singleton, h.starts]
  rfl

/-- A request goes on to its next step, and is past its check only if it was. -/
theorem Inv.next (h : Inv file s stage) (hio : s.io = task :: rest)
    (hsame : task'.isStarting = task.isStarting) :
    Inv file { s with io := rest ++ [task'] } stage := by
  apply h.io
  rw [countP_append_singleton, hsame, ← countP_rest hio, h.starts]

/-- A request that is not past its check leaves the queue. -/
theorem Inv.drop (h : Inv file s stage) (hio : s.io = task :: rest)
    (hnot : task.isStarting = false) {b : Bool} :
    Inv file { s with io := rest, isQuiet := b } stage := by
  apply h.io
  have hcount := countP_rest hio
  rw [hnot, h.starts] at hcount
  exact hcount.symm

/-- The stream that is told to stop stays where it is. -/
theorem Inv.stop (h : Inv file s stage) (hflag : s.getIsStreaming = true) (r : Request) :
    Inv file (s.stop r) stage := by
  have hreading := h.flagged hflag
  obtain ⟨wrapper, hstop, hposition⟩ := State.exists_stop_eq s r
  rw [hstop]
  refine ⟨h.starts, h.gateway, h.sleeping, fun _ => hreading, ?_,
    ⟨h.books.replayed, h.books.once, h.books.unused⟩⟩
  have hholds := h.holds
  cases stage with
  | idle => cases hreading
  | starting => cases hreading
  | started hasSpeed => cases hreading
  | created g => cases hreading
  | asleep k n =>
    exact ⟨hholds.count_eq, by rw [hposition, hholds.position_eq], hholds.inHand,
      hholds.book_eq⟩
  | awake k n =>
    exact ⟨hholds.count_eq, by rw [hposition, hholds.position_eq], hholds.inHand,
      hholds.book_eq⟩

/-- A start request that is alone goes on. -/
theorem Inv.check (h : Inv file s stage) {hasSpeed : Bool}
    (hio : s.io = .stopStreaming (.start hasSpeed) :: rest) (hflag : s.getIsStreaming = false)
    (halone : s.underWay = 0) :
    Inv file { s with io := rest ++ [.goOn (.start hasSpeed)] } .starting := by
  unfold State.underWay at halone
  have hstarts : s.io.countP IoTask.isStarting = 0 := by omega
  have hgateway : s.gateway = [] := List.eq_nil_of_length_eq_zero (by omega)
  have hsleeping : s.sleeping = [] := List.eq_nil_of_length_eq_zero (by omega)
  refine ⟨?_, hgateway, hsleeping, fun hstreaming => ?_, trivial,
    ⟨h.books.replayed, h.books.once, h.books.unused⟩⟩
  · have hcount := countP_rest hio
    rw [hstarts] at hcount
    rw [countP_append_singleton]
    change 0 = _ + 0 at hcount
    show _ + 1 = 1
    omega
  · change s.getIsStreaming = true at hstreaming
    rw [hflag] at hstreaming
    cases hstreaming

/-- Where some request is past its check, nothing came of the starts before. -/
theorem Inv.starting_of_mem (h : Inv file s stage) (hmem : task ∈ s.io)
    (htask : task.isStarting = true) : stage = .starting := by
  have hpos : 0 < s.io.countP IoTask.isStarting := List.countP_pos_iff.mpr ⟨task, hmem, htask⟩
  rw [h.starts] at hpos
  cases stage with
  | starting => rfl
  | idle => exact absurd hpos (Nat.lt_irrefl 0)
  | started hasSpeed => exact absurd hpos (Nat.lt_irrefl 0)
  | created g => exact absurd hpos (Nat.lt_irrefl 0)
  | asleep g n => exact absurd hpos (Nat.lt_irrefl 0)
  | awake g n => exact absurd hpos (Nat.lt_irrefl 0)

/-- `initialize` makes a new wrapper and a new book, and the task that streams. -/
theorem Inv.initializeController (h : Inv file s stage) {hasSpeed : Bool}
    (hio : s.io = .goOn (.start hasSpeed) :: rest) :
    Inv file { ({ s with io := rest } : State M).initializeController with
      gateway := s.gateway ++ [.startStreaming hasSpeed] } (.started hasSpeed) := by
  have hstage := h.starting_of_mem (hio ▸ List.mem_cons_self) rfl
  subst hstage
  refine ⟨?_, ?_, h.sleeping, fun hflag => ?_, ⟨s.count, rfl, ?_, ?_, ?_⟩,
    ⟨fun g => ?_, h.books.once, fun g hg => ?_⟩⟩
  · have hcount := countP_rest hio
    rw [h.starts] at hcount
    change 1 = _ + 1 at hcount
    show rest.countP IoTask.isStarting = 0
    omega
  · rw [h.gateway]
    rfl
  · change (Function.update s.wrapper s.count DbnWrapper.new s.count).isStreaming = true at hflag
    rw [Function.update_self] at hflag
    cases hflag
  · show (Function.update s.wrapper s.count DbnWrapper.new s.count).position = 0
    rw [Function.update_self]
    rfl
  · exact Function.update_self _ _ _
  · exact h.books.unused _ (Nat.le_refl _)
  · show Function.update s.book s.count [] g <+: _
    by_cases hg : g = s.count
    · rw [hg, Function.update_self]
      exact List.nil_prefix
    · rw [Function.update_of_ne hg]
      exact h.books.replayed g
  · exact h.books.unused g (Nat.le_of_succ_le hg)

/-- What a step of the I/O loop preserves. -/
theorem Inv.runIo (h : Inv file s stage) (hio : s.io = task :: rest)
    (halone : task.isStartCheck = true → s.getIsStreaming = false → s.underWay = 0) :
    ∃ stage', Inv file (({ s with io := rest } : State M).runIo task) stage' := by
  cases task with
  | handle r => exact ⟨stage, h.next hio rfl⟩
  | stopStreaming r =>
    by_cases hflag : s.getIsStreaming = true
    · rw [State.runIo_stopStreaming_of_streaming (by exact hflag)]
      have hdrop : Inv file { s with io := rest } stage := h.drop hio rfl
      exact ⟨stage, hdrop.stop hflag r⟩
    · rw [State.runIo_stopStreaming_of_not (by exact hflag)]
      cases r with
      | stop => exact ⟨stage, h.next hio rfl⟩
      | start hasSpeed =>
        have hfalse : s.getIsStreaming = false := Bool.eq_false_iff.mpr hflag
        exact ⟨.starting, h.check hio hfalse (halone rfl hfalse)⟩
  | stopped r =>
    cases r with
    | start hasSpeed => exact ⟨stage, h.next hio rfl⟩
    | stop => exact ⟨stage, h.next hio rfl⟩
  | goOn r =>
    cases r with
    | start hasSpeed => exact ⟨.started hasSpeed, h.initializeController hio⟩
    | stop => exact ⟨stage, h.drop hio rfl⟩

end Requests

section Streams

variable {stage : Stage} {task : GatewayTask} {rest : List GatewayTask}

/-- Nothing is under way but the step of a stream over the wrapper and the book that are there. -/
structure Lone (file : DbnFile M) (s : State M) (g n : ℕ) : Prop where
  starts : s.io.countP IoTask.isStarting = 0
  gateway : s.gateway = []
  sleeping : s.sleeping = []
  books : Books file s
  count_eq : s.count = g + 1
  position_eq : (s.wrapper g).position = n
  book_eq : s.book g = (file.mbosBefore n).map some

/-- A stream that is over lets the request go on that waits for it. -/
theorem exists_inv_finish (hstarts : s.io.countP IoTask.isStarting = 0) (hgateway : s.gateway = [])
    (hsleeping : s.sleeping = []) (hbooks : Books file s) (hcount : s.count = g + 1) :
    ∃ stage, Inv file (s.finish g) stage := by
  have hflag : ∀ {w : DbnWrapper}, w.isStreaming = false →
      (s.setWrapper g w).getIsStreaming = true → False := by
    intro w hw hstreaming
    rw [State.getIsStreaming_of_count (by exact hcount)] at hstreaming
    change (Function.update s.wrapper g w g).isStreaming = true at hstreaming
    rw [Function.update_self, hw] at hstreaming
    cases hstreaming
  have hidle : ∀ {w : DbnWrapper}, w.isStreaming = false → Inv file (s.setWrapper g w) .idle := by
    intro w hw
    exact ⟨hstarts, hgateway, hsleeping, fun hstreaming => (hflag hw hstreaming).elim, trivial,
      ⟨hbooks.replayed, hbooks.once, hbooks.unused⟩⟩
  unfold State.finish
  cases hslot : (s.wrapper g).stopFutureValue with
  | none => exact ⟨.idle, hidle rfl⟩
  | some future =>
    obtain ⟨r, isSet⟩ := future
    cases isSet with
    | true => exact ⟨.idle, hidle rfl⟩
    | false =>
      cases r with
      | stop =>
        refine ⟨.idle, (hidle rfl).io ?_⟩
        rw [countP_append_singleton, hstarts]
        rfl
      | start hasSpeed =>
        refine ⟨.starting, ?_, hgateway, hsleeping, fun hstreaming => (hflag rfl hstreaming).elim,
          trivial, ⟨hbooks.replayed, hbooks.once, hbooks.unused⟩⟩
        show (s.io ++ [IoTask.stopped (.start hasSpeed)]).countP IoTask.isStarting = 1
        rw [countP_append_singleton, hstarts]
        rfl

/-- What the stream takes from the store comes after what the book has. -/
theorem Lone.take_book (h : Lone file s g n) (pass : Pass M) : (s.take g pass).book =
    Function.update s.book g ((file.mbosBefore n ++ pass.applied).map some) := by
  unfold State.take
  simp only [h.count_eq, if_true, h.book_eq, List.map_append]

theorem Lone.books_take (h : Lone file s g n) {pass : Pass M}
    (hpre : file.mbosBefore n ++ pass.applied <+: file.mbos) : Books file (s.take g pass) := by
  refine ⟨fun k => ?_, h.books.once, h.books.unused⟩
  rw [h.take_book]
  by_cases hk : k = g
  · rw [hk, Function.update_self]
    exact hpre.map some
  · rw [Function.update_of_ne hk]
    exact h.books.replayed k

/-- A stream that goes on sleeps with the next record in hand, or comes to its end. -/
theorem Lone.exists_inv_loop (h : Lone file s g n) : ∃ stage, Inv file (s.loop file g) stage := by
  unfold State.loop
  by_cases hflag : (s.wrapper g).isStreaming = true
  · rw [if_pos hflag]
    have hpass : file.Continues n (s.pass file g) := by
      unfold State.pass
      rw [h.position_eq]
      exact DbnFile.continues_readOn _ _ _ rfl
    cases hsleep : (s.pass file g).isAsleep with
    | true =>
      rw [if_pos rfl]
      obtain ⟨k, hposition, hhand, happlied⟩ := hpass.asleep hsleep
      have hbooks := h.books_take (by rw [happlied]; exact DbnFile.mbosBefore_prefix k)
      refine ⟨.asleep g k, h.starts, h.gateway, ?_, fun _ => rfl, ⟨h.count_eq, ?_, hhand, ?_⟩,
        ⟨hbooks.replayed, hbooks.once, hbooks.unused⟩⟩
      · show s.sleeping ++ [(g, (s.pass file g).position - 1)] = [(g, k)]
        rw [h.sleeping, hposition]
        rfl
      · show (Function.update s.wrapper g _ g).position = k + 1
        rw [Function.update_self]
        exact hposition
      · show (s.take g (s.pass file g)).book g = _
        rw [h.take_book, Function.update_self, happlied]
    | false =>
      rw [if_neg Bool.false_ne_true]
      have hbooks := h.books_take (by rw [hpass.ended hsleep])
      exact exists_inv_finish h.starts h.gateway h.sleeping hbooks h.count_eq
  · rw [if_neg hflag]
    exact exists_inv_finish h.starts h.gateway h.sleeping h.books h.count_eq

/-- The task that streams makes the stream over the wrapper that is there. -/
theorem Inv.startStreaming (h : Inv file s stage) {hasSpeed : Bool}
    (hgateway : s.gateway = .startStreaming hasSpeed :: rest) :
    ∃ stage', Inv file (({ s with gateway := rest } : State M).startStreaming hasSpeed) stage' := by
  obtain ⟨hstage, hrest⟩ := Stage.eq_ofTask (h.gateway ▸ hgateway)
  subst hstage hrest
  obtain ⟨g, hg⟩ := h.holds
  have hcount : ({ s with gateway := [] } : State M).count = g + 1 := hg.count_eq
  rw [State.startStreaming_of_count hcount]
  refine ⟨.created g, h.starts, rfl, h.sleeping, fun hstreaming => ?_,
    ⟨hg.count_eq, ?_, hg.book_eq, hg.begun_eq⟩,
    ⟨h.books.replayed, h.books.once, h.books.unused⟩⟩
  · rw [State.getIsStreaming_of_count (by exact hg.count_eq)] at hstreaming
    change (Function.update s.wrapper g _ g).isStreaming = true at hstreaming
    rw [Function.update_self] at hstreaming
    have hreading := h.flagged (by rw [State.getIsStreaming_of_count hg.count_eq, hstreaming])
    cases hreading
  · show (Function.update s.wrapper g _ g).position = 0
    rw [Function.update_self]
    exact hg.position_eq

/-- The stream begins at the first record of the file. -/
theorem Inv.startStreamData (h : Inv file s stage)
    (hgateway : s.gateway = .startStreamData g :: rest) :
    ∃ stage', Inv file
      (({ s with gateway := rest } : State M).runGateway file (.startStreamData g)) stage' := by
  obtain ⟨hstage, hrest⟩ := Stage.eq_ofTask (h.gateway ▸ hgateway)
  subst hstage hrest
  have hg : s.Untouched g := h.holds
  refine Lone.exists_inv_loop (n := 0) ⟨h.starts, rfl, h.sleeping,
    ⟨h.books.replayed, fun k => ?_, fun k hk => ?_⟩, hg.count_eq, ?_, hg.book_eq⟩
  · show Function.update s.begun g (s.begun g + 1) k ≤ 1
    by_cases hk : k = g
    · rw [hk, Function.update_self, hg.begun_eq]
    · rw [Function.update_of_ne hk]
      exact h.books.once k
  · have hne : k ≠ g := by
      intro heq
      change s.count ≤ k at hk
      rw [hg.count_eq] at hk
      omega
    show Function.update s.begun g (s.begun g + 1) k = 0
    rw [Function.update_of_ne hne]
    exact h.books.unused k hk
  · show (Function.update s.wrapper g _ g).position = 0
    rw [Function.update_self]
    exact hg.position_eq

/-- The stream that has slept applies the record that it has in hand, and goes on. -/
theorem Inv.resume (h : Inv file s stage) (hgateway : s.gateway = .resume g n :: rest) :
    ∃ stage', Inv file
      (({ s with gateway := rest } : State M).runGateway file (.resume g n)) stage' := by
  obtain ⟨hstage, hrest⟩ := Stage.eq_ofTask (h.gateway ▸ hgateway)
  subst hstage hrest
  have hg : s.Holding file g n := h.holds
  obtain ⟨mbo, hmbo⟩ := hg.inHand
  have hrecord : ({ s with gateway := [] } : State M).record file g n = some mbo := by
    unfold State.record
    rw [if_pos ⟨hg.count_eq, hg.position_eq⟩, hmbo]
    rfl
  have hbook : s.book g ++ [({ s with gateway := [] } : State M).record file g n] =
      (file.mbosBefore (n + 1)).map some := by
    rw [hrecord, hg.book_eq, DbnFile.mbosBefore_succ_of_some hmbo, List.map_append]
    rfl
  refine Lone.exists_inv_loop ⟨h.starts, rfl, h.sleeping,
    ⟨fun k => ?_, h.books.once, h.books.unused⟩, hg.count_eq, hg.position_eq, ?_⟩
  · show Function.update s.book g (s.book g ++ [_]) k <+: _
    rw [hbook]
    by_cases hk : k = g
    · rw [hk, Function.update_self]
      exact (DbnFile.mbosBefore_prefix _).map some
    · rw [Function.update_of_ne hk]
      exact h.books.replayed k
  · show Function.update s.book g (s.book g ++ [_]) g = _
    rw [hbook, Function.update_self]

/-- The timer of the stream fires. -/
theorem Inv.fire (h : Inv file s stage) {i : ℕ} (hi : s.sleeping[i]? = some (g, n)) :
    Inv file { s with sleeping := s.sleeping.eraseIdx i, gateway := s.gateway ++ [.resume g n] }
      (.awake g n) := by
  obtain ⟨hstage, hi⟩ := Stage.eq_asleep (h.sleeping ▸ hi)
  subst hstage hi
  have hg : s.Holding file g n := h.holds
  refine ⟨h.starts, ?_, ?_, fun _ => rfl,
    ⟨hg.count_eq, hg.position_eq, hg.inHand, hg.book_eq⟩,
    ⟨h.books.replayed, h.books.once, h.books.unused⟩⟩
  · show s.gateway ++ [.resume g n] = [.resume g n]
    rw [h.gateway]
    rfl
  · show s.sleeping.eraseIdx 0 = []
    rw [h.sleeping]
    rfl

/-- What a step preserves. -/
theorem Inv.move (h : Inv file s stage) (halone : s.Alone a) (hmove : Move file s a t) :
    ∃ stage', Inv file t stage' := by
  cases hmove with
  | receive => exact ⟨stage, h.receive _⟩
  | io hio =>
    refine h.runIo hio fun hcheck => halone ?_
    rw [hio]
    exact hcheck
  | @gateway task rest hgateway =>
    cases task with
    | startStreaming hasSpeed => exact h.startStreaming hgateway
    | startStreamData g => exact h.startStreamData hgateway
    | resume g n => exact h.resume hgateway
  | @fire i g n hi => exact ⟨.awake g n, h.fire hi⟩

/-- One start at a time is under way. -/
def Orderly (file : DbnFile M) (s : State M) : Prop := ∃ stage, Inv file s stage

theorem orderly_of_alone
    (h : Runs.Reaches (fun s a => s.step file a) (fun s a => s.Alone a) init s) :
    Orderly file s := by
  have hstep : ∀ (s : State M) a t, Orderly file s → s.Alone a → s.step file a = some t →
      Orderly file t := by
    intro s a t hs halone hstep
    obtain ⟨stage, hinv⟩ := hs
    exact hinv.move halone (move_of_step hstep)
  exact h.invariant hstep ⟨.idle, inv_init⟩

/-- A stream that is not over is over the wrapper and the book that are there. -/
theorem Inv.count_of_streams (h : Inv file s stage) (hg : s.Streams g) : s.count = g + 1 := by
  have hholds := h.holds
  unfold State.Streams at hg
  rw [h.gateway, h.sleeping] at hg
  cases stage with
  | idle => simp [Stage.gateway, Stage.sleeping] at hg
  | starting => simp [Stage.gateway, Stage.sleeping] at hg
  | started hasSpeed => simp [Stage.gateway, Stage.sleeping] at hg
  | created k =>
    have hk : g = k := by simpa [Stage.gateway, Stage.sleeping] using hg
    rw [hk]
    exact hholds.count_eq
  | asleep k m =>
    have hk : g = k := by simpa [Stage.gateway, Stage.sleeping] using hg
    rw [hk]
    exact hholds.count_eq
  | awake k m =>
    have hk : g = k := by simpa [Stage.gateway, Stage.sleeping] using hg
    rw [hk]
    exact hholds.count_eq

/-- Where a request is past its check, no stream is left. -/
theorem Inv.not_streams_of_starting (h : Inv file s .starting) : ¬ s.Streams g := by
  intro hg
  unfold State.Streams at hg
  rw [h.gateway, h.sleeping] at hg
  simp [Stage.gateway, Stage.sleeping] at hg

end Streams

end OrderBookServer.Streaming
