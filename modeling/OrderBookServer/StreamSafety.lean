import OrderBookServer.StreamLate

/-!
Exactly-once replay, and no stream that outlives its book, in the runs in which each start
request that finds nothing streaming is alone.
-/
namespace OrderBookServer.Streaming

variable {M : Type} {file : DbnFile M} {s t : State M} {a : Action} {g : ℕ}

section Replaying

/-- As long as each start is alone every book has what it should; and once one is not, some book
may not have it. -/
theorem replayed_of_alone
    (h : Runs.Reaches (fun s a => s.step file a) (fun s a => s.Alone a) init s) :
    Replayed file s ∧ (file.mbos ≠ [] → ∀ a t, ¬ s.Alone a → s.step file a = some t → ∃ u,
      Runs.Reaches (fun s a => s.step file a) (fun _ _ => True) t u ∧ ¬ Replayed file u) := by
  obtain ⟨stage, hinv⟩ := orderly_of_alone h
  refine ⟨⟨hinv.books.replayed, hinv.books.once⟩, fun hmbos a t hnot hstep => ?_⟩
  exact hinv.exists_unreplayed hmbos hnot hstep

/-- As long as each start is alone no stream outlives its book; and once one is not, some stream
may. -/
theorem noneOutlives_of_alone
    (h : Runs.Reaches (fun s a => s.step file a) (fun s a => s.Alone a) init s) :
    NoneOutlives s ∧ ∀ a t, ¬ s.Alone a → s.step file a = some t → ∃ u,
      Runs.Reaches (fun s a => s.step file a) (fun _ _ => True) t u ∧ ¬ NoneOutlives u := by
  obtain ⟨stage, hinv⟩ := orderly_of_alone h
  refine ⟨⟨fun hasSpeed hnext g => ?_, fun g hg => hinv.count_of_streams hg⟩, fun a t => ?_⟩
  · have hstage := hinv.starting_of_mem (List.mem_of_mem_head? hnext) rfl
    subst hstage
    exact hinv.not_streams_of_starting
  · exact hinv.exists_outlived

/-- A start, the first message, a second start that stops the stream, and its first message. -/
theorem replayed_of_alone_restarted : ∃ s : State Char,
    Runs.Reaches (fun s a => s.step twoMbos a) (fun s a => s.Alone a) init s ∧
      s.book 0 = [some 'a', some 'b'] ∧ s.book 1 = [some 'a'] ∧ Replayed twoMbos s := by
  have hrun := Runs.Reaches.follow [.receive (.start true), .io, .io, .io, .gateway, .gateway,
    .fire 0, .gateway, .receive (.start true), .io, .io, .fire 0, .gateway, .io, .io, .gateway,
    .gateway, .fire 0, .gateway]
    (.start : Runs.Reaches (fun s a => s.step twoMbos a) (fun s a => s.Alone a) init init) rfl
  exact ⟨_, hrun, rfl, rfl, (replayed_of_alone hrun).1⟩

/-- Two starts before the first task that streams has run: both tasks stream from the second
wrapper. -/
theorem not_replayed_twice : ¬ ∀ s : State Char,
    Runs.Reaches (fun s a => s.step twoMbos a) (fun _ _ => True) init s → Replayed twoMbos s := by
  intro hall
  have hrun := Runs.Reaches.follow [.receive (.start true), .io, .io, .io, .receive (.start true),
    .io, .io, .io, .gateway, .gateway, .gateway, .gateway, .fire 1, .gateway]
    (.start : Runs.Reaches (fun s a => s.step twoMbos a) (fun _ _ => True) init init) rfl
  have horder := (hall _ hrun).inOrder 1
  have hbad : ¬ [some 'b'] <+: twoMbos.mbos.map some := by decide
  exact hbad horder

/-- A start, and a second start that waits for the end of the first stream. -/
theorem noneOutlives_of_alone_restarted : ∃ s : State Char,
    Runs.Reaches (fun s a => s.step twoMbos a) (fun s a => s.Alone a) init s ∧
      s.io.head? = some (.goOn (.start true)) ∧ s.count = 1 ∧ NoneOutlives s := by
  have hrun := Runs.Reaches.follow [.receive (.start true), .io, .io, .io, .gateway, .gateway,
    .receive (.start true), .io, .io, .fire 0, .gateway, .io]
    (.start : Runs.Reaches (fun s a => s.step twoMbos a) (fun s a => s.Alone a) init init) rfl
  exact ⟨_, hrun, rfl, rfl, (noneOutlives_of_alone hrun).1⟩

/-- A start while the stream that a stop request has told to stop still sleeps. -/
theorem not_noneOutlives_stopping : ¬ ∀ s : State Char,
    Runs.Reaches (fun s a => s.step twoMbos a) (fun _ _ => True) init s → NoneOutlives s := by
  intro hall
  have hrun := Runs.Reaches.follow [.receive (.start true), .io, .io, .io, .gateway, .gateway,
    .receive .stop, .io, .io, .receive (.start true), .io, .io]
    (.start : Runs.Reaches (fun s a => s.step twoMbos a) (fun _ _ => True) init init) rfl
  exact (hall _ hrun).none_left true rfl 0 (Or.inr ⟨0, Or.inr List.mem_cons_self⟩)

end Replaying

end OrderBookServer.Streaming
