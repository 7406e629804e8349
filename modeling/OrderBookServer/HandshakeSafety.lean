import OrderBookServer.Handshake

/-!
A request that stops the stream is never stranded as long as each stores its future while the
stream still looks for it. Where one does not, a request is lost: the stream does not seek its
future any more.
-/
namespace OrderBookServer.Handshake

section Futures

variable {s s' : State} {a : Action} {i j : ℕ}

theorem State.stopper_goOn_of_ne (s : State) (state : StopState) (hne : j ≠ i) :
    (s.goOn i state).stopper j = s.stopper j :=
  Function.update_of_ne hne _ _

theorem State.stopper_goOn_self (s : State) (i : ℕ) (state : StopState) :
    (s.goOn i state).stopper i = state :=
  Function.update_self _ _ _

theorem StopState.isFresh_of_isWaiting {state : StopState} (h : state.isWaiting = true) :
    state.isFresh = false := by
  cases state with
  | readFlag => cases h
  | storeFuture => cases h
  | lowerFlag => rfl
  | suspended => rfl
  | answered => rfl

theorem State.sought_of_isListening (h : s.stream.isListening = true) :
    s.sought = s.stopFutureValue := by
  unfold State.sought
  cases hs : s.stream with
  | raiseFlag =>
    rw [hs] at h
    cases h
  | resetSlot =>
    rw [hs] at h
    cases h
  | setFuture found =>
    rw [hs] at h
    cases h
  | finished =>
    rw [hs] at h
    cases h
  | readFlag => rfl
  | readRecord => rfl
  | lowerFlag => rfl
  | readSlot => rfl

/-- Where the stream does not listen, the slot does not matter. -/
theorem State.sought_congr {t : State} (h : ¬ s.stream.isListening = true)
    (hs : t.stream = s.stream) : t.sought = s.sought := by
  unfold State.sought
  rw [hs]
  cases hstream : s.stream with
  | raiseFlag => rfl
  | resetSlot => rfl
  | setFuture found => rfl
  | finished => rfl
  | readFlag => exact absurd (by rw [hstream]; rfl) h
  | readRecord => exact absurd (by rw [hstream]; rfl) h
  | lowerFlag => exact absurd (by rw [hstream]; rfl) h
  | readSlot => exact absurd (by rw [hstream]; rfl) h

theorem State.setFound_apply (s : State) (found : Option ℕ) (i : ℕ) :
    s.setFound found i = (s.isSet i || decide (found = some i)) := by
  cases found with
  | none => simp [setFound]
  | some j =>
    show (if s.isSet j then s.isSet else Function.update s.isSet j true) i = _
    by_cases hij : j = i
    · subst hij
      by_cases hj : s.isSet j = true
      · simp [hj]
      · simp [hj]
    · by_cases hj : s.isSet j = true
      · simp [hj, hij]
      · simp [hj, hij, Function.update_of_ne (Ne.symm hij)]

/-- What the requests, the slot and the futures say of each other while every future is stored
in time. -/
structure Sound (s : State) : Prop where
  sought : ∀ i, (s.stopper i).isWaiting = true → s.isSet i = true ∨ s.sought = some i
  waits : ∀ i, s.stopFutureValue = some i ∨ s.sought = some i →
    (s.stopper i).isWaiting = true ∨ s.isSet i = true
  unset : s.stream ≠ .finished → ∀ i, s.isSet i = false
  fresh : ∀ i, (s.stopper i).isFresh = true → s.isSet i = false

theorem sound_init : Sound init := by
  refine ⟨fun i hi => ?_, fun i hi => ?_, fun _ _ => rfl, fun _ _ => rfl⟩
  · cases hi
  · rcases hi with hi | hi
    · cases hi
    · cases hi

/-- A request that goes on waits as it did, unless it was answered. -/
theorem Sound.goOn (h : Sound s) {state : StopState}
    (hwaits : state.isWaiting = true → (s.stopper i).isWaiting = true)
    (hanswered : (s.stopper i).isWaiting = true → state.isWaiting = true ∨ s.isSet i = true)
    (hfresh : state.isFresh = true → s.isSet i = false) : Sound (s.goOn i state) := by
  refine ⟨fun j hj => ?_, fun j hj => ?_, h.unset, fun j hj => ?_⟩
  · by_cases hij : j = i
    · subst hij
      rw [s.stopper_goOn_self] at hj
      exact h.sought j (hwaits hj)
    · rw [s.stopper_goOn_of_ne state hij] at hj
      exact h.sought j hj
  · by_cases hij : j = i
    · subst hij
      rw [s.stopper_goOn_self]
      rcases h.waits j hj with hw | hset
      · exact hanswered hw
      · exact Or.inr hset
    · rw [s.stopper_goOn_of_ne state hij]
      exact h.waits j hj
  · by_cases hij : j = i
    · subst hij
      rw [s.stopper_goOn_self] at hj
      exact hfresh hj
    · rw [s.stopper_goOn_of_ne state hij] at hj
      exact h.fresh j hj

/-- The stream finds the future that was stored in time. -/
theorem Sound.storeFuture (h : Sound s) (hi : s.stopper i = .storeFuture)
    (hlisten : s.stream.isListening = true) (hfree : s.stopFutureValue = none) :
    Sound { s.goOn i .lowerFlag with stopFutureValue := some i } := by
  have hnobody : s.sought = none := by rw [State.sought_of_isListening hlisten, hfree]
  have hsought : State.sought { s.goOn i .lowerFlag with stopFutureValue := some i } = some i :=
    State.sought_of_isListening (by exact hlisten)
  refine ⟨fun j hj => ?_, fun j hj => ?_, h.unset, fun j hj => ?_⟩
  · by_cases hij : j = i
    · rw [hij]
      exact Or.inr hsought
    · change ((s.goOn i .lowerFlag).stopper j).isWaiting = true at hj
      rw [s.stopper_goOn_of_ne _ hij] at hj
      rcases h.sought j hj with hset | hslot
      · exact Or.inl hset
      · rw [hnobody] at hslot
        cases hslot
  · have hij : some i = some j := by
      rcases hj with hj | hj
      · exact hj
      · rw [← hj, hsought]
    cases hij
    left
    show ((s.goOn i .lowerFlag).stopper i).isWaiting = true
    rw [s.stopper_goOn_self]
    rfl
  · by_cases hij : j = i
    · subst hij
      exact h.fresh j (by rw [hi]; rfl)
    · change ((s.goOn i .lowerFlag).stopper j).isFresh = true at hj
      rw [s.stopper_goOn_of_ne _ hij] at hj
      exact h.fresh j hj

/-- A stream that goes on to what it already sought serves the requests as before. -/
theorem Sound.stream (h : Sound s) {t : State} (hstopper : t.stopper = s.stopper)
    (hset : t.isSet = s.isSet) (hrunning : s.stream ≠ .finished) (hsought : t.sought = s.sought)
    (hslot : t.stopFutureValue = none ∨ t.stopFutureValue = s.stopFutureValue) : Sound t := by
  refine ⟨fun i hi => ?_, fun i hi => ?_, fun _ i => ?_, fun i hi => ?_⟩
  · rw [hstopper] at hi
    rw [hset, hsought]
    exact h.sought i hi
  · rw [hstopper, hset]
    refine h.waits i ?_
    rcases hi with hi | hi
    · rcases hslot with hnone | hsame
      · rw [hnone] at hi
        cases hi
      · exact Or.inl (hsame ▸ hi)
    · exact Or.inr (hsought ▸ hi)
  · rw [hset]
    exact h.unset hrunning i
  · rw [hstopper] at hi
    rw [hset]
    exact h.fresh i hi

theorem Sound.setFuture {found : Option ℕ} (h : Sound s) (hs : s.stream = .setFuture found) :
    Sound { s with isSet := s.setFound found, stream := .finished } := by
  have hfound : s.sought = found := by rw [State.sought, hs]
  refine ⟨fun i hi => ?_, fun i hi => ?_, fun hne => absurd rfl hne, fun i hi => ?_⟩
  · left
    show s.setFound found i = true
    rw [s.setFound_apply, ← hfound]
    rcases h.sought i hi with hset | hsought
    · rw [hset, Bool.true_or]
    · rw [decide_eq_true hsought, Bool.or_true]
  · rcases hi with hi | hi
    · rcases h.waits i (Or.inl hi) with hw | hset
      · exact Or.inl hw
      · right
        show s.setFound found i = true
        rw [s.setFound_apply, hset, Bool.true_or]
    · cases hi
  · show s.setFound found i = false
    rw [s.setFound_apply, h.fresh i hi, Bool.false_or, ← hfound, decide_eq_false]
    intro hsought
    rcases h.waits i (Or.inr hsought) with hw | hset
    · change (s.stopper i).isFresh = true at hi
      rw [StopState.isFresh_of_isWaiting hw] at hi
      cases hi
    · change (s.stopper i).isFresh = true at hi
      rw [h.fresh i hi] at hset
      cases hset

theorem StreamState.ne_finished_of_isListening {state : StreamState}
    (h : state.isListening = true) : state ≠ .finished := by
  intro heq
  rw [heq] at h
  cases h

theorem Sound.move (h : Sound s) (hmove : Move s s') : Sound s' := by
  cases hmove with
  | refuse hi =>
    refine h.goOn (fun hw => ?_) (fun hw => ?_) (fun hfresh => ?_)
    · cases hw
    · rw [hi] at hw
      cases hw
    · cases hfresh
  | @check i hi =>
    refine h.goOn (fun hw => ?_) (fun hw => ?_) (fun _ => h.fresh i (by rw [hi]; rfl))
    · cases hw
    · rw [hi] at hw
      cases hw
  | storeFuture hi hlisten hfree => exact h.storeFuture hi hlisten hfree
  | @suspend i hi =>
    have hstep : Sound (s.goOn i .suspended) := by
      refine h.goOn (fun _ => by rw [hi]; rfl) (fun _ => Or.inl rfl) (fun hfresh => ?_)
      cases hfresh
    exact ⟨hstep.sought, hstep.waits, hstep.unset, hstep.fresh⟩
  | answer hi hset =>
    refine h.goOn (fun hw => ?_) (fun _ => Or.inr hset) (fun hfresh => ?_)
    · cases hw
    · cases hfresh
  | raiseFlag hs =>
    refine h.stream rfl rfl ?_ ?_ (Or.inr rfl)
    · rw [hs]
      intro heq
      cases heq
    · simp only [State.sought, hs]
  | resetSlot hs =>
    refine h.stream rfl rfl ?_ ?_ (Or.inl rfl)
    · rw [hs]
      intro heq
      cases heq
    · simp only [State.sought, hs]
  | listen hs hstate =>
    refine h.stream rfl rfl (StreamState.ne_finished_of_isListening hs) ?_ (Or.inr rfl)
    rw [State.sought_of_isListening hs]
    exact State.sought_of_isListening (by exact hstate)
  | readSlot hs =>
    refine h.stream rfl rfl ?_ ?_ (Or.inr rfl)
    · rw [hs]
      intro heq
      cases heq
    · simp only [State.sought, hs]
  | setFuture hs => exact h.setFuture hs

theorem Sound.not_stranded (h : Sound s) : ¬ s.Stranded := by
  intro hstranded
  obtain ⟨hs, i, hi, hunset⟩ := hstranded
  rcases h.sought i (by rw [hi]; rfl) with hset | hsought
  · rw [hunset] at hset
    cases hset
  · rw [State.sought, hs] at hsought
    cases hsought

end Futures

section Lost

variable {s s' t : State} {a : Action} {i : ℕ}

/-- The request waits for a future that the stream does not seek, or no longer does. -/
structure Lost (i : ℕ) (s : State) : Prop where
  waiting : (s.stopper i).isWaiting = true
  unset : s.isSet i = false
  not_sought : s.sought ≠ some i

/-- Another request goes on. -/
theorem Lost.goOn {j : ℕ} {state : StopState} (h : Lost i s)
    (hj : (s.stopper j).isWaiting = false) :
    Lost i (s.goOn j state) := by
  have hij : i ≠ j := by
    intro heq
    rw [← heq, h.waiting] at hj
    cases hj
  refine ⟨?_, h.unset, h.not_sought⟩
  rw [s.stopper_goOn_of_ne state hij]
  exact h.waiting

theorem Lost.stream (h : Lost i s) (hstopper : t.stopper = s.stopper) (hset : t.isSet = s.isSet)
    (hsought : t.sought = s.sought) : Lost i t := by
  refine ⟨?_, ?_, ?_⟩
  · rw [hstopper]
    exact h.waiting
  · rw [hset]
    exact h.unset
  · rw [hsought]
    exact h.not_sought

/-- A request that is lost stays so. -/
theorem Lost.move (h : Lost i s) (hmove : Move s s') : Lost i s' := by
  cases hmove with
  | refuse hj => exact h.goOn (by rw [hj]; rfl)
  | check hj => exact h.goOn (by rw [hj]; rfl)
  | @storeFuture j hj hlisten _ =>
    have hstep : Lost i (s.goOn j .lowerFlag) := h.goOn (by rw [hj]; rfl)
    refine ⟨hstep.waiting, h.unset, ?_⟩
    have hsought : State.sought { s.goOn j .lowerFlag with stopFutureValue := some j } = some j :=
      State.sought_of_isListening (by exact hlisten)
    rw [hsought]
    intro hij
    cases hij
    have hw := h.waiting
    rw [hj] at hw
    cases hw
  | @suspend j hj =>
    refine ⟨?_, h.unset, h.not_sought⟩
    show ((s.goOn j .suspended).stopper i).isWaiting = true
    by_cases hij : i = j
    · rw [hij, s.stopper_goOn_self]
      rfl
    · rw [s.stopper_goOn_of_ne _ hij]
      exact h.waiting
  | @answer j hj hset =>
    refine ⟨?_, h.unset, h.not_sought⟩
    have hij : i ≠ j := by
      intro heq
      rw [← heq, h.unset] at hset
      cases hset
    rw [s.stopper_goOn_of_ne _ hij]
    exact h.waiting
  | raiseFlag hs => exact h.stream rfl rfl (by simp only [State.sought, hs])
  | resetSlot hs => exact h.stream rfl rfl (by simp only [State.sought, hs])
  | listen hs hstate =>
    refine h.stream rfl rfl ?_
    rw [State.sought_of_isListening hs]
    exact State.sought_of_isListening (by exact hstate)
  | readSlot hs => exact h.stream rfl rfl (by simp only [State.sought, hs])
  | @setFuture found hs =>
    refine ⟨h.waiting, ?_, fun heq => by cases heq⟩
    show s.setFound found i = false
    have hne := h.not_sought
    rw [State.sought, hs] at hne
    rw [s.setFound_apply, h.unset, Bool.false_or]
    exact decide_eq_false hne

/-- A future that is not stored in time is lost, or the one that it displaces is. -/
theorem Sound.lost (h : Sound s) (hlate : ¬ s.InTime a) (hstep : s.step a = some s') :
    ∃ i, Lost i s' := by
  cases a with
  | startStreamData more => exact absurd trivial hlate
  | stopStreaming i =>
    obtain ⟨hi, hlate⟩ := Classical.not_imp.mp hlate
    change s.stopStreaming i = some s' at hstep
    unfold State.stopStreaming at hstep
    simp only [hi] at hstep
    cases hstep
    have hfresh : (s.stopper i).isFresh = true := by
      rw [hi]
      rfl
    by_cases hlisten : s.stream.isListening = true
    · cases hslot : s.stopFutureValue with
      | none => exact absurd ⟨hlisten, hslot⟩ hlate
      | some j =>
        have hunset := h.unset (StreamState.ne_finished_of_isListening hlisten)
        have hj : (s.stopper j).isWaiting = true := by
          rcases h.waits j (Or.inl hslot) with hw | hset
          · exact hw
          · rw [hunset] at hset
            cases hset
        have hij : j ≠ i := by
          intro heq
          rw [heq, hi] at hj
          cases hj
        refine ⟨j, ?_, hunset j, ?_⟩
        · show ((s.goOn i .lowerFlag).stopper j).isWaiting = true
          rw [s.stopper_goOn_of_ne _ hij]
          exact hj
        · rw [State.sought_of_isListening (by exact hlisten)]
          intro heq
          cases heq
          exact hij rfl
    · refine ⟨i, ?_, h.fresh i hfresh, ?_⟩
      · show ((s.goOn i .lowerFlag).stopper i).isWaiting = true
        rw [s.stopper_goOn_self]
        rfl
      · have hsame : State.sought { s.goOn i .lowerFlag with stopFutureValue := some i } =
            s.sought :=
          State.sought_congr hlisten rfl
        rw [hsame]
        intro hsought
        rcases h.waits i (Or.inr hsought) with hw | hset
        · rw [StopState.isFresh_of_isWaiting hw] at hfresh
          cases hfresh
        · rw [h.fresh i hfresh] at hset
          cases hset

/-- How many steps the stream still takes where no record is left. -/
def StreamState.left : StreamState → ℕ
  | .raiseFlag => 7
  | .resetSlot => 6
  | .readFlag => 5
  | .readRecord => 4
  | .lowerFlag => 3
  | .readSlot => 2
  | .setFuture _ => 1
  | .finished => 0

theorem exists_next (hs : s.stream ≠ .finished) : ∃ t, s.step (.startStreamData false) = some t ∧
    t.stopper = s.stopper ∧ t.stream.left < s.stream.left := by
  change ∃ t, s.startStreamData false = some t ∧ _
  unfold State.startStreamData
  cases hstream : s.stream with
  | raiseFlag => exact ⟨_, rfl, rfl, Nat.lt_succ_self 6⟩
  | resetSlot => exact ⟨_, rfl, rfl, Nat.lt_succ_self 5⟩
  | readFlag =>
    refine ⟨_, rfl, rfl, ?_⟩
    cases s.isStreaming with
    | true => exact Nat.lt_succ_self 4
    | false => exact Nat.lt_of_succ_lt (Nat.lt_succ_self 4)
  | readRecord => exact ⟨_, rfl, rfl, Nat.lt_succ_self 3⟩
  | lowerFlag => exact ⟨_, rfl, rfl, Nat.lt_succ_self 2⟩
  | readSlot => exact ⟨_, rfl, rfl, Nat.lt_succ_self 1⟩
  | setFuture found => exact ⟨_, rfl, rfl, Nat.zero_lt_one⟩
  | finished => exact absurd hstream hs

/-- The stream comes to its end whatever the requests do. -/
theorem exists_finished (s : State) : ∃ t,
    Runs.Reaches (fun s a => s.step a) (fun s a => s.InTime a) s t ∧
      t.stream = .finished ∧ t.stopper = s.stopper := by
  induction hleft : s.stream.left using Nat.strong_induction_on generalizing s with
  | _ left ih =>
    by_cases hs : s.stream = .finished
    · exact ⟨s, .start, hs, rfl⟩
    · obtain ⟨s', hstep, hstopper, hlt⟩ := exists_next hs
      obtain ⟨t, hrun, ht, hstopper'⟩ := ih _ (hleft ▸ hlt) s' rfl
      have hfirst : Runs.Reaches (fun s a => s.step a) (fun s a => s.InTime a) s s' :=
        .step .start (by exact trivial) hstep
      exact ⟨t, hfirst.trans hrun, ht, hstopper'.trans hstopper⟩

/-- Where a request is lost, it may be stranded in the end. -/
theorem Lost.exists_stranded (h : Lost i s) : ∃ t,
    Runs.Reaches (fun s a => s.step a) (fun s a => s.InTime a) s t ∧ t.Stranded := by
  have hsuspended : ∃ s', Runs.Reaches (fun s a => s.step a) (fun s a => s.InTime a) s s' ∧
      s'.stopper i = .suspended := by
    have hw := h.waiting
    cases hi : s.stopper i with
    | suspended => exact ⟨s, .start, hi⟩
    | lowerFlag =>
      have hstep : s.step (.stopStreaming i) =
          some { s.goOn i .suspended with isStreaming := false } := by
        show s.stopStreaming i = _
        simp only [State.stopStreaming, hi]
      have htime : s.InTime (.stopStreaming i) := by
        intro hstore
        rw [hi] at hstore
        cases hstore
      exact ⟨_, .step .start htime hstep, s.stopper_goOn_self i _⟩
    | readFlag =>
      rw [hi] at hw
      cases hw
    | storeFuture =>
      rw [hi] at hw
      cases hw
    | answered =>
      rw [hi] at hw
      cases hw
  obtain ⟨s', hrun, hi⟩ := hsuspended
  obtain ⟨t, hrun', hs, hstopper⟩ := exists_finished s'
  have hlost : Lost i t := Runs.Reaches.invariant
    (fun _ _ _ hlost htime hstep => hlost.move (move_of_step htime hstep)) h (hrun.trans hrun')
  exact ⟨t, hrun.trans hrun', hs, i, by rw [hstopper, hi], hlost.unset⟩

end Lost

section Stranding

variable {s : State}

/-- As long as each future is stored in time, no request is stranded; and once one is not, some
request may be. -/
theorem not_stranded_of_inTime
    (h : Runs.Reaches (fun s a => s.step a) (fun s a => s.InTime a) init s) :
    ¬ s.Stranded ∧ ∀ a s', ¬ s.InTime a → s.step a = some s' → ∃ t,
      Runs.Reaches (fun s a => s.step a) (fun s a => s.InTime a) s' t ∧ t.Stranded := by
  have hsound : Sound s := h.invariant
    (fun _ _ _ hs htime hstep => hs.move (move_of_step htime hstep)) sound_init
  refine ⟨hsound.not_stranded, fun a s' hlate hstep => ?_⟩
  obtain ⟨i, hlost⟩ := hsound.lost hlate hstep
  exact hlost.exists_stranded

/-- A request that stops the stream before its first record, and is about to be answered. -/
theorem not_stranded_of_inTime_stopped : ∃ s : State,
    Runs.Reaches (fun s a => s.step a) (fun s a => s.InTime a) init s ∧
      s.stream = .finished ∧ s.stopper 0 = .suspended ∧ ¬ s.Stranded := by
  have hrun := Runs.Reaches.follow [.startStreamData true, .startStreamData true, .stopStreaming 0,
    .stopStreaming 0, .stopStreaming 0, .startStreamData true, .startStreamData true,
    .startStreamData true, .startStreamData true]
    (.start : Runs.Reaches (fun s a => s.step a) (fun s a => s.InTime a) init init) rfl
  exact ⟨_, hrun, rfl, rfl, (not_stranded_of_inTime hrun).1⟩

/-- The file ends between the check of a request and its registration. -/
theorem stranded_at_end : ¬ ∀ s : State,
    Runs.Reaches (fun s a => s.step a) (fun _ _ => True) init s → ¬ s.Stranded := by
  intro hall
  have hrun := Runs.Reaches.follow [.startStreamData true, .startStreamData true, .stopStreaming 0,
    .startStreamData true, .startStreamData false, .startStreamData true, .startStreamData true,
    .startStreamData true, .stopStreaming 0, .stopStreaming 0]
    (.start : Runs.Reaches (fun s a => s.step a) (fun _ _ => True) init init) rfl
  exact hall _ hrun ⟨rfl, 0, rfl, rfl⟩

end Stranding

end OrderBookServer.Handshake
