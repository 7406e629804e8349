import OrderBookServer.StreamInvariant

/-!
What may follow once a start request that finds nothing streaming is not alone: a stream that
outlives its book, and a book that does not get the messages of the file.
-/
namespace OrderBookServer.Streaming

variable {M : Type} {file : DbnFile M} {s t : State M} {a : Action} {g : ℕ}

/-- Every book has the MBO messages from the start of the file, each of them once, and at most
one stream has read its store. -/
structure Replayed (file : DbnFile M) (s : State M) : Prop where
  inOrder : ∀ g, s.book g <+: file.mbos.map some
  once : ∀ g, s.begun g ≤ 1

/-- Where `initialize` is next, no stream is left over the wrapper and the book that it destroys,
and no stream is over any that it has destroyed. -/
structure NoneOutlives (s : State M) : Prop where
  none_left : ∀ hasSpeed, s.io.head? = some (.goOn (.start hasSpeed)) → ∀ g, ¬ s.Streams g
  alive : ∀ g, s.Streams g → s.count = g + 1

section Late

variable {stage : Stage} {task : IoTask} {rest : List IoTask}

/-- How many steps of the I/O loop a task and those that follow it may still take. -/
def IoTask.left : IoTask → ℕ
  | .handle _ => 3
  | .stopStreaming _ => 2
  | .stopped _ => 2
  | .goOn _ => 1

theorem IoTask.left_pos (task : IoTask) : 0 < task.left := by
  cases task with
  | handle r => exact Nat.succ_pos 2
  | stopStreaming r => exact Nat.succ_pos 1
  | stopped r => exact Nat.succ_pos 1
  | goOn r => exact Nat.succ_pos 0

def stepsLeft : List IoTask → ℕ
  | [] => 0
  | task :: rest => task.left + stepsLeft rest

/-- The second state comes of the first one by steps of the I/O loop that make no wrapper. -/
structure Drained (s t : State M) : Prop where
  starts : s.io.countP IoTask.isStarting ≤ t.io.countP IoTask.isStarting
  gateway : t.gateway = s.gateway
  sleeping : t.sleeping = s.sleeping
  count_eq : t.count = s.count
  position_eq : ∀ k, (t.wrapper k).position = (s.wrapper k).position

theorem Drained.trans {u : State M} (h : Drained s t) (h' : Drained t u) : Drained s u :=
  ⟨Nat.le_trans h.starts h'.starts, h'.gateway.trans h.gateway, h'.sleeping.trans h.sleeping,
    h'.count_eq.trans h.count_eq, fun k => (h'.position_eq k).trans (h.position_eq k)⟩

theorem stepsLeft_append (rest : List IoTask) (task : IoTask) :
    stepsLeft (rest ++ [task]) = stepsLeft rest + task.left := by
  induction rest with
  | nil => exact Nat.add_comm _ _
  | cons first rest ih =>
    show first.left + stepsLeft (rest ++ [task]) = first.left + stepsLeft rest + task.left
    omega

/-- A request that goes on has less left, and is past its check if it was. -/
theorem drained_next {task' : IoTask} (hio : s.io = task :: rest)
    (hstarting : task.isStarting.toNat ≤ task'.isStarting.toNat) (hleft : task'.left < task.left) :
    Drained s { s with io := rest ++ [task'] } ∧
      stepsLeft (rest ++ [task']) < stepsLeft s.io := by
  refine ⟨⟨?_, rfl, rfl, rfl, fun _ => rfl⟩, ?_⟩
  · have hcount := countP_rest hio
    rw [countP_append_singleton]
    omega
  · rw [stepsLeft_append, hio, stepsLeft]
    omega

theorem drained_drop {b : Bool} (hio : s.io = task :: rest) (hstarting : task.isStarting = false) :
    Drained s { s with io := rest, isQuiet := b } ∧
      stepsLeft rest < stepsLeft s.io := by
  refine ⟨⟨?_, rfl, rfl, rfl, fun _ => rfl⟩, ?_⟩
  · have hcount := countP_rest hio
    rw [hstarting] at hcount
    exact Nat.le_of_eq hcount
  · have hpos := task.left_pos
    rw [hio, stepsLeft]
    omega

/-- A step of the I/O loop that makes no wrapper. -/
theorem drained_runIo (hio : s.io = task :: rest)
    (hnot : ∀ hasSpeed, task ≠ .goOn (.start hasSpeed)) :
    Drained s (({ s with io := rest } : State M).runIo task) ∧
      stepsLeft (({ s with io := rest } : State M).runIo task).io < stepsLeft s.io := by
  cases task with
  | handle r => exact drained_next hio (Nat.zero_le _) (Nat.lt_succ_self 2)
  | stopStreaming r =>
    by_cases hflag : s.getIsStreaming = true
    · rw [State.runIo_stopStreaming_of_streaming (by exact hflag)]
      obtain ⟨wrapper, hstop, hposition⟩ := State.exists_stop_eq { s with io := rest } r
      obtain ⟨hdrained, hlt⟩ := drained_drop (b := s.isQuiet) hio rfl
      rw [hstop]
      exact ⟨⟨hdrained.starts, rfl, rfl, rfl, hposition⟩, hlt⟩
    · rw [State.runIo_stopStreaming_of_not (by exact hflag)]
      exact drained_next hio (Nat.zero_le _) (Nat.lt_succ_self 1)
  | stopped r =>
    refine drained_next hio ?_ (Nat.lt_succ_self 1)
    cases r with
    | start hasSpeed => exact Nat.le_refl _
    | stop => exact Nat.le_refl _
  | goOn r =>
    cases r with
    | start hasSpeed => exact absurd rfl (hnot hasSpeed)
    | stop => exact drained_drop hio rfl

/-- Where a start request is past its check, the I/O loop comes to one that makes a wrapper. -/
theorem exists_drained (file : DbnFile M) (s : State M)
    (hstarts : 0 < s.io.countP IoTask.isStarting) :
    ∃ t hasSpeed, Runs.Reaches (fun s a => s.step file a) (fun _ _ => True) s t ∧ Drained s t ∧
      t.io.head? = some (.goOn (.start hasSpeed)) := by
  induction hleft : stepsLeft s.io using Nat.strong_induction_on generalizing s with
  | _ left ih =>
    cases hio : s.io with
    | nil =>
      rw [hio] at hstarts
      cases hstarts
    | cons task rest =>
      by_cases hnext : ∃ hasSpeed, task = .goOn (.start hasSpeed)
      · obtain ⟨hasSpeed, rfl⟩ := hnext
        exact ⟨s, hasSpeed, .start, ⟨Nat.le_refl _, rfl, rfl, rfl, fun _ => rfl⟩, by rw [hio]; rfl⟩
      · have hstep : s.step file .io = some (({ s with io := rest } : State M).runIo task) := by
          unfold State.step
          simp only [hio]
        obtain ⟨hdrained, hlt⟩ := drained_runIo hio fun hasSpeed heq => hnext ⟨hasSpeed, heq⟩
        obtain ⟨t, hasSpeed, hrun, hdrained', hhead⟩ := ih _ (hleft ▸ hlt) _
          (Nat.lt_of_lt_of_le hstarts hdrained.starts) rfl
        have hfirst : Runs.Reaches (fun s a => s.step file a) (fun _ _ => True) s
            (({ s with io := rest } : State M).runIo task) := .step .start trivial hstep
        exact ⟨t, hasSpeed, hfirst.trans hrun, hdrained.trans hdrained', hhead⟩

/-- The second state comes of the first one by steps of the I/O loop of which the last one makes
a wrapper. -/
structure Made (s t : State M) : Prop where
  starts : s.io.countP IoTask.isStarting ≤ t.io.countP IoTask.isStarting + 1
  gateway : ∃ hasSpeed, t.gateway = s.gateway ++ [.startStreaming hasSpeed]
  sleeping : t.sleeping = s.sleeping
  count_eq : t.count = s.count + 1
  position_eq : ∀ k, k ≠ s.count → (t.wrapper k).position = (s.wrapper k).position

theorem exists_made (file : DbnFile M) (s : State M) (hstarts : 0 < s.io.countP IoTask.isStarting) :
    ∃ t, Runs.Reaches (fun s a => s.step file a) (fun _ _ => True) s t ∧ Made s t := by
  obtain ⟨u, hasSpeed, hrun, hdrained, hhead⟩ := exists_drained file s hstarts
  have hcount := hdrained.starts
  cases hio : u.io with
  | nil =>
    rw [hio] at hhead
    cases hhead
  | cons task rest =>
    rw [hio] at hhead
    cases hhead
    have hrest := countP_rest hio
    change _ = _ + 1 at hrest
    have hstep : u.step file .io =
        some (({ u with io := rest } : State M).runIo (.goOn (.start hasSpeed))) := by
      unfold State.step
      simp only [hio]
    refine ⟨_, .step hrun trivial hstep, ?_, ⟨hasSpeed, ?_⟩, hdrained.sleeping, ?_, fun k hk => ?_⟩
    · show _ ≤ rest.countP IoTask.isStarting + 1
      omega
    · show u.gateway ++ [.startStreaming hasSpeed] = _
      rw [hdrained.gateway]
    · show u.count + 1 = s.count + 1
      rw [hdrained.count_eq]
    · rw [← hdrained.count_eq] at hk
      show (Function.update u.wrapper u.count DbnWrapper.new k).position = _
      rw [Function.update_of_ne hk]
      exact hdrained.position_eq k

/-- A start request that is not alone goes on, though something is under way. -/
theorem Inv.late (h : Inv file s stage) (hnot : ¬ s.Alone a) (hstep : s.step file a = some t) :
    stage ≠ .idle ∧ ∃ tasks, t = { s with io := tasks } ∧
      tasks.countP IoTask.isStarting = stage.starts + 1 := by
  cases move_of_step hstep with
  | receive => exact absurd trivial hnot
  | gateway _ => exact absurd trivial hnot
  | fire _ => exact absurd trivial hnot
  | @io task rest hio =>
    obtain ⟨hcheck, hnot⟩ := Classical.not_imp.mp hnot
    obtain ⟨hflag, hbusy⟩ := Classical.not_imp.mp hnot
    rw [hio] at hcheck
    cases task with
    | handle r => cases hcheck
    | stopped r => cases hcheck
    | goOn r => cases hcheck
    | stopStreaming r =>
      cases r with
      | stop => cases hcheck
      | start hasSpeed =>
        rw [State.runIo_stopStreaming_of_not (by exact Bool.eq_false_iff.mp hflag)]
        refine ⟨fun hidle => hbusy ?_, rest ++ [.goOn (.start hasSpeed)], rfl, ?_⟩
        · subst hidle
          unfold State.underWay
          rw [h.starts, h.gateway, h.sleeping]
          rfl
        · have hrest := countP_rest hio
          rw [h.starts] at hrest
          rw [countP_append_singleton]
          change stage.starts = _ + 0 at hrest
          show _ + 1 = stage.starts + 1
          omega

end Late

section Outlived

variable {stage : Stage} {task : GatewayTask} {rest : List GatewayTask}

/-- A stream that is not over is left where a start request comes to make a wrapper. -/
theorem exists_outlived_of_streams (hg : s.Streams g)
    (hstarts : 0 < s.io.countP IoTask.isStarting) :
    ∃ t, Runs.Reaches (fun s a => s.step file a) (fun _ _ => True) s t ∧ ¬ NoneOutlives t := by
  obtain ⟨t, hasSpeed, hrun, hdrained, hhead⟩ := exists_drained file s hstarts
  refine ⟨t, hrun, fun hnone => hnone.none_left hasSpeed hhead g ?_⟩
  unfold State.Streams
  rw [hdrained.gateway, hdrained.sleeping]
  exact hg

theorem step_gateway (file : DbnFile M) (hgateway : s.gateway = task :: rest) :
    s.step file .gateway = some (({ s with gateway := rest } : State M).runGateway file task) := by
  unfold State.step
  simp only [hgateway]

/-- The task that streams makes a stream over the wrapper that is there. -/
theorem exists_created (file : DbnFile M) {hasSpeed : Bool}
    (hgateway : s.gateway = .startStreaming hasSpeed :: rest) (hcount : s.count = g + 1) :
    ∃ t, s.step file .gateway = some t ∧ t.gateway = rest ++ [.startStreamData g] ∧
      t.count = g + 1 ∧ t.io = s.io := by
  refine ⟨({ s with gateway := rest } : State M).startStreaming hasSpeed,
    step_gateway file hgateway, ?_⟩
  rw [State.startStreaming_of_count (by exact hcount)]
  exact ⟨rfl, hcount, rfl⟩

/-- The task that streams may run first. -/
theorem exists_outlived_of_started {hasSpeed : Bool}
    (hgateway : s.gateway = [.startStreaming hasSpeed]) (hcount : s.count = g + 1)
    (hstarts : 0 < s.io.countP IoTask.isStarting) :
    ∃ t, Runs.Reaches (fun s a => s.step file a) (fun _ _ => True) s t ∧ ¬ NoneOutlives t := by
  obtain ⟨t, hstep, hcreated, _, hio⟩ := exists_created file hgateway hcount
  have hstreams : t.Streams g := Or.inl (hcreated ▸ List.mem_singleton_self _)
  obtain ⟨u, hrun, hnot⟩ := exists_outlived_of_streams hstreams (by rw [hio]; exact hstarts)
  exact ⟨u, Runs.Reaches.trans (.step .start trivial hstep) hrun, hnot⟩

/-- A start request that is not alone may destroy what a stream still needs. -/
theorem Inv.exists_outlived (h : Inv file s stage) (hnot : ¬ s.Alone a)
    (hstep : s.step file a = some t) :
    ∃ u, Runs.Reaches (fun s a => s.step file a) (fun _ _ => True) t u ∧ ¬ NoneOutlives u := by
  obtain ⟨hidle, tasks, rfl, hcount⟩ := h.late hnot hstep
  have hpos : 0 < tasks.countP IoTask.isStarting := by
    rw [hcount]
    exact Nat.succ_pos _
  have hholds := h.holds
  have hgateway := h.gateway
  have hsleeping := h.sleeping
  cases stage with
  | idle => exact absurd rfl hidle
  | starting =>
    -- The other request makes a wrapper first.
    obtain ⟨u, hrun, hmade⟩ := exists_made file { s with io := tasks } hpos
    obtain ⟨hasSpeed, htask⟩ := hmade.gateway
    have hfirst : u.gateway = [.startStreaming hasSpeed] := by
      rw [htask]
      show s.gateway ++ _ = _
      rw [hgateway]
      rfl
    have hother : 0 < u.io.countP IoTask.isStarting := by
      have hstarts := hmade.starts
      change tasks.countP IoTask.isStarting ≤ _ at hstarts
      change _ = 1 + 1 at hcount
      omega
    obtain ⟨v, hrun', hbad⟩ := exists_outlived_of_started hfirst hmade.count_eq hother
    exact ⟨v, hrun.trans hrun', hbad⟩
  | started hasSpeed =>
    obtain ⟨g, hg⟩ := hholds
    exact exists_outlived_of_started hgateway hg.count_eq hpos
  | created g =>
    have hg : s.Streams g := Or.inl (hgateway ▸ List.mem_singleton_self _)
    exact exists_outlived_of_streams hg hpos
  | asleep g n =>
    have hg : s.Streams g := Or.inr ⟨n, Or.inr (hsleeping ▸ List.mem_singleton_self _)⟩
    exact exists_outlived_of_streams hg hpos
  | awake g n =>
    have hg : s.Streams g := Or.inr ⟨n, Or.inl (hgateway ▸ List.mem_singleton_self _)⟩
    exact exists_outlived_of_streams hg hpos

end Outlived

section Unreplayed

variable {stage : Stage} {task : GatewayTask} {tasks rest : List GatewayTask} {n : ℕ}

/-- The second state comes of the first one by steps of streams, which add to the books. -/
structure Grown (s t : State M) : Prop where
  gateway : s.gateway <+: t.gateway
  count_eq : t.count = s.count
  begun : ∀ k, s.begun k ≤ t.begun k
  book : ∀ k, s.book k <+: t.book k

theorem Grown.refl (s : State M) : Grown s s :=
  ⟨List.prefix_rfl, rfl, fun _ => Nat.le_refl _, fun _ => List.prefix_rfl⟩

theorem Grown.trans {u : State M} (h : Grown s t) (h' : Grown t u) : Grown s u :=
  ⟨h.gateway.trans h'.gateway, h'.count_eq.trans h.count_eq,
    fun k => Nat.le_trans (h.begun k) (h'.begun k), fun k => (h.book k).trans (h'.book k)⟩

theorem prefix_update (book : ℕ → List (Option M)) (g : ℕ) (more : List (Option M)) (k : ℕ) :
    book k <+: Function.update book g (book g ++ more) k := by
  by_cases hk : k = g
  · rw [hk, Function.update_self]
    exact List.prefix_append _ _
  · rw [Function.update_of_ne hk]

theorem grown_finish (s : State M) (g : ℕ) : Grown s (s.finish g) := by
  unfold State.finish
  split
  · exact ⟨List.prefix_rfl, rfl, fun _ => Nat.le_refl _, fun _ => List.prefix_rfl⟩
  · exact ⟨List.prefix_rfl, rfl, fun _ => Nat.le_refl _, fun _ => List.prefix_rfl⟩

theorem grown_take (s : State M) (g : ℕ) (pass : Pass M) : Grown s (s.take g pass) :=
  ⟨List.prefix_rfl, rfl, fun _ => Nat.le_refl _, prefix_update s.book g _⟩

theorem grown_loop (file : DbnFile M) (s : State M) (g : ℕ) : Grown s (s.loop file g) := by
  have htake := grown_take s g (s.pass file g)
  unfold State.loop
  split
  · split
    · exact ⟨htake.gateway, htake.count_eq, htake.begun, htake.book⟩
    · exact htake.trans (grown_finish _ g)
  · exact grown_finish s g

/-- The first task of the GATEWAY loop runs. -/
theorem grown_runGateway (file : DbnFile M) (s : State M) (task : GatewayTask) :
    Grown s (s.runGateway file task) := by
  cases task with
  | startStreaming hasSpeed =>
    show Grown s (s.startStreaming hasSpeed)
    unfold State.startStreaming
    split
    · exact .refl s
    · exact ⟨List.prefix_append _ _, rfl, fun _ => Nat.le_refl _, fun _ => List.prefix_rfl⟩
  | startStreamData g =>
    have hbegin : Grown s { s.setWrapper g { s.wrapper g with
        isStreaming := true, stopFutureValue := none } with
        begun := Function.update s.begun g (s.begun g + 1) } := by
      refine ⟨List.prefix_rfl, rfl, fun k => ?_, fun _ => List.prefix_rfl⟩
      show s.begun k ≤ Function.update s.begun g (s.begun g + 1) k
      by_cases hk : k = g
      · rw [hk, Function.update_self]
        exact Nat.le_succ _
      · rw [Function.update_of_ne hk]
    exact hbegin.trans (grown_loop file _ g)
  | resume g n =>
    have hrecord : Grown s { s with
        book := Function.update s.book g (s.book g ++ [s.record file g n]) } :=
      ⟨List.prefix_rfl, rfl, fun _ => Nat.le_refl _, prefix_update s.book g _⟩
    exact hrecord.trans (grown_loop file _ g)

/-- Each task of the GATEWAY loop comes first at some time. -/
theorem exists_first (file : DbnFile M) (hgateway : tasks ++ task :: rest <+: s.gateway) :
    ∃ t, Runs.Reaches (fun s a => s.step file a) (fun _ _ => True) s t ∧ t.count = s.count ∧
      task :: rest <+: t.gateway := by
  induction tasks generalizing s with
  | nil => exact ⟨s, .start, rfl, hgateway⟩
  | cons first tasks ih =>
    obtain ⟨more, hmore⟩ := hgateway
    have hstep := step_gateway file hmore.symm
    have hgrown := grown_runGateway file { s with gateway := tasks ++ task :: rest ++ more } first
    obtain ⟨t, hrun, hcount, hfirst⟩ := ih ((List.prefix_append _ more).trans hgrown.gateway)
    exact ⟨t, Runs.Reaches.trans (.step .start trivial hstep) hrun,
      hcount.trans hgrown.count_eq, hfirst⟩

theorem not_replayed_of_none_mem (h : none ∈ s.book g) : ¬ Replayed file s := by
  intro hreplayed
  obtain ⟨mbo, _, hmbo⟩ := List.mem_map.mp ((hreplayed.inOrder g).mem h)
  cases hmbo

/-- A stream over a store that was destroyed wakes up. -/
theorem exists_unreplayed_of_awake (file : DbnFile M) (hmem : .resume g n ∈ s.gateway)
    (hcount : s.count ≠ g + 1) :
    ∃ t, Runs.Reaches (fun s a => s.step file a) (fun _ _ => True) s t ∧ ¬ Replayed file t := by
  obtain ⟨tasks, rest, hgateway⟩ := List.append_of_mem hmem
  have htasks : tasks ++ .resume g n :: rest <+: s.gateway :=
    ⟨[], by rw [List.append_nil, hgateway]⟩
  obtain ⟨u, hrun, hsame, more, hfirst⟩ := exists_first file htasks
  have hstep := step_gateway file hfirst.symm
  refine ⟨_, .step hrun trivial hstep, not_replayed_of_none_mem (g := g) ?_⟩
  have hgrown := grown_loop file { u with
    gateway := rest ++ more
    book := Function.update u.book g (u.book g ++ [u.record file g n]) } g
  apply (hgrown.book g).mem
  show none ∈ Function.update u.book g (u.book g ++ [u.record file g n]) g
  have hnone : u.record file g n = none := if_neg fun h => hcount (hsame ▸ h.1)
  rw [Function.update_self, hnone]
  exact List.mem_append_right _ (List.mem_singleton_self _)

/-- A stream over a store that was destroyed sleeps. -/
theorem exists_unreplayed_of_asleep (file : DbnFile M) (hmem : (g, n) ∈ s.sleeping)
    (hcount : s.count ≠ g + 1) :
    ∃ t, Runs.Reaches (fun s a => s.step file a) (fun _ _ => True) s t ∧ ¬ Replayed file t := by
  obtain ⟨i, hi⟩ := List.mem_iff_getElem?.mp hmem
  have hstep : s.step file (.fire i) = some { s with
      sleeping := s.sleeping.eraseIdx i, gateway := s.gateway ++ [.resume g n] } := by
    unfold State.step
    simp only [hi]
  obtain ⟨t, hrun, hbad⟩ := exists_unreplayed_of_awake file (g := g) (n := n)
    (s := { s with sleeping := s.sleeping.eraseIdx i, gateway := s.gateway ++ [.resume g n] })
    (List.mem_append_right _ (List.mem_singleton_self _)) hcount
  exact ⟨t, Runs.Reaches.trans (.step .start trivial hstep) hrun, hbad⟩

/-- A stream over a store that was destroyed applies what it reads, or sleeps. -/
theorem none_mem_or_asleep_of_loop (hflag : (s.wrapper g).isStreaming = true)
    (hposition : (s.wrapper g).position = 0) (hcount : s.count ≠ g + 1) (hmbos : file.mbos ≠ []) :
    none ∈ (s.loop file g).book g ∨ ∃ n, (g, n) ∈ (s.loop file g).sleeping := by
  have hpass : file.Continues 0 (s.pass file g) := by
    unfold State.pass
    rw [hposition]
    exact DbnFile.continues_readOn _ _ _ rfl
  unfold State.loop
  rw [if_pos hflag]
  cases hsleep : (s.pass file g).isAsleep with
  | true =>
    rw [if_pos rfl]
    exact Or.inr ⟨_, List.mem_append_right _ (List.mem_singleton_self _)⟩
  | false =>
    rw [if_neg Bool.false_ne_true]
    have happlied : (s.pass file g).applied = file.mbos := hpass.ended hsleep
    obtain ⟨mbo, hmbo⟩ := List.exists_mem_of_ne_nil _ hmbos
    have htake : none ∈ (s.take g (s.pass file g)).book g := by
      show none ∈ Function.update s.book g _ g
      rw [Function.update_self, happlied]
      exact List.mem_append_right _ (List.mem_map.mpr ⟨mbo, hmbo, if_neg hcount⟩)
    exact Or.inl (((grown_finish _ g).book g).mem htake)

/-- A stream over a store that was destroyed begins. -/
theorem exists_unreplayed_of_created (hgateway : s.gateway = .startStreamData g :: rest)
    (hcount : s.count ≠ g + 1) (hposition : (s.wrapper g).position = 0) (hmbos : file.mbos ≠ []) :
    ∃ t, Runs.Reaches (fun s a => s.step file a) (fun _ _ => True) s t ∧ ¬ Replayed file t := by
  have hfirst : Runs.Reaches (fun s a => s.step file a) (fun _ _ => True) s _ :=
    .step .start trivial (step_gateway file hgateway)
  have hgrown := grown_runGateway file { s with gateway := rest } (.startStreamData g)
  have hread :
      none ∈ (({ s with gateway := rest } : State M).runGateway file (.startStreamData g)).book g ∨
      ∃ n, (g, n) ∈ (({ s with gateway := rest } : State M).runGateway file
        (.startStreamData g)).sleeping := by
    refine none_mem_or_asleep_of_loop ?_ ?_ hcount hmbos
    · show (Function.update s.wrapper g _ g).isStreaming = true
      rw [Function.update_self]
    · show (Function.update s.wrapper g _ g).position = 0
      rw [Function.update_self]
      exact hposition
  rcases hread with hnone | ⟨n, hasleep⟩
  · exact ⟨_, hfirst, not_replayed_of_none_mem hnone⟩
  · obtain ⟨t, hrun, hbad⟩ := exists_unreplayed_of_asleep file hasleep
      (fun hsame => hcount (hgrown.count_eq.symm.trans hsame))
    exact ⟨t, hfirst.trans hrun, hbad⟩

/-- One more stream begins to read the store. -/
theorem exists_begun (file : DbnFile M) (hfirst : .startStreamData g :: rest <+: s.gateway) :
    ∃ t, s.step file .gateway = some t ∧ rest <+: t.gateway ∧ s.begun g + 1 ≤ t.begun g := by
  obtain ⟨more, hmore⟩ := hfirst
  refine ⟨_, step_gateway file hmore.symm, ?_⟩
  have hgrown := grown_loop file { ({ s with gateway := rest ++ more } : State M).setWrapper g
    { s.wrapper g with isStreaming := true, stopFutureValue := none } with
    begun := Function.update s.begun g (s.begun g + 1) } g
  have hbegun := hgrown.begun g
  change Function.update s.begun g (s.begun g + 1) g ≤ _ at hbegun
  rw [Function.update_self] at hbegun
  exact ⟨(List.prefix_append _ more).trans hgrown.gateway, hbegun⟩

/-- Two tasks that stream both make their stream over the wrapper that is there, and both streams
read its store. -/
theorem exists_unreplayed_of_started (file : DbnFile M) {hasSpeed hasSpeed' : Bool}
    (hgateway : s.gateway = [.startStreaming hasSpeed, .startStreaming hasSpeed'])
    (hcount : s.count = g + 1) :
    ∃ t, Runs.Reaches (fun s a => s.step file a) (fun _ _ => True) s t ∧ ¬ Replayed file t := by
  obtain ⟨t₁, hstep₁, hgateway₁, hcount₁, _⟩ := exists_created file hgateway hcount
  obtain ⟨t₂, hstep₂, hgateway₂, _, _⟩ := exists_created file hgateway₁ hcount₁
  have hboth : [.startStreamData g, .startStreamData g] <+: t₂.gateway := ⟨[], hgateway₂.symm⟩
  obtain ⟨t₃, hstep₃, hfirst, hbegun₃⟩ := exists_begun file hboth
  obtain ⟨t₄, hstep₄, _, hbegun₄⟩ := exists_begun file hfirst
  refine ⟨t₄, .step (.step (.step (.step .start trivial hstep₁) trivial hstep₂) trivial hstep₃)
    trivial hstep₄, fun hreplayed => ?_⟩
  have honce := hreplayed.once g
  omega

/-- A start request that is not alone may spoil a book. -/
theorem Inv.exists_unreplayed (h : Inv file s stage) (hmbos : file.mbos ≠ [])
    (hnot : ¬ s.Alone a) (hstep : s.step file a = some t) :
    ∃ u, Runs.Reaches (fun s a => s.step file a) (fun _ _ => True) t u ∧ ¬ Replayed file u := by
  obtain ⟨hidle, tasks, rfl, hcount⟩ := h.late hnot hstep
  obtain ⟨u, hrun, hmade⟩ := exists_made file { s with io := tasks } (by
    show 0 < tasks.countP IoTask.isStarting
    rw [hcount]
    exact Nat.succ_pos _)
  obtain ⟨hasSpeed', htask⟩ := hmade.gateway
  change u.gateway = s.gateway ++ _ at htask
  have hdestroyed : ∀ g, s.count = g + 1 → u.count ≠ g + 1 := by
    intro g hg hsame
    rw [← hg, hmade.count_eq] at hsame
    exact Nat.succ_ne_self _ hsame
  have hsleeping : u.sleeping = stage.sleeping := hmade.sleeping.trans h.sleeping
  have hholds := h.holds
  rw [h.gateway] at htask
  cases stage with
  | idle => exact absurd rfl hidle
  | starting =>
    -- The other request makes a second wrapper, before any task has run.
    have hstarts := hmade.starts
    change tasks.countP IoTask.isStarting ≤ _ at hstarts
    change _ = 1 + 1 at hcount
    obtain ⟨v, hrun', hmade'⟩ := exists_made file u (by omega)
    obtain ⟨hasSpeed, htask'⟩ := hmade'.gateway
    rw [htask] at htask'
    obtain ⟨w, hrun'', hbad⟩ := exists_unreplayed_of_started file htask' hmade'.count_eq
    exact ⟨w, (hrun.trans hrun').trans hrun'', hbad⟩
  | started hasSpeed =>
    obtain ⟨v, hrun', hbad⟩ := exists_unreplayed_of_started file htask hmade.count_eq
    exact ⟨v, hrun.trans hrun', hbad⟩
  | created g =>
    have hg : s.Untouched g := hholds
    have hposition : (u.wrapper g).position = 0 := by
      have hne : g ≠ s.count := by
        rw [hg.count_eq]
        exact (Nat.succ_ne_self g).symm
      exact (hmade.position_eq g hne).trans hg.position_eq
    obtain ⟨v, hrun', hbad⟩ := exists_unreplayed_of_created htask (hdestroyed g hg.count_eq)
      hposition hmbos
    exact ⟨v, hrun.trans hrun', hbad⟩
  | asleep g n =>
    have hg : s.Holding file g n := hholds
    have hmem : (g, n) ∈ u.sleeping := hsleeping ▸ List.mem_singleton_self _
    obtain ⟨v, hrun', hbad⟩ := exists_unreplayed_of_asleep file hmem
      (hdestroyed g hg.count_eq)
    exact ⟨v, hrun.trans hrun', hbad⟩
  | awake g n =>
    have hg : s.Holding file g n := hholds
    have hmem : .resume g n ∈ u.gateway := htask ▸ List.mem_cons_self
    obtain ⟨v, hrun', hbad⟩ := exists_unreplayed_of_awake file hmem
      (hdestroyed g hg.count_eq)
    exact ⟨v, hrun.trans hrun', hbad⟩

end Unreplayed

end OrderBookServer.Streaming
