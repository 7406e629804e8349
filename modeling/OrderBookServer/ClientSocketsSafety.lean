import OrderBookServer.ClientSocketsInvariant

/-!
When no slot of a connection is lost, and when every response goes to the client that its request
came from.
-/
namespace OrderBookServer.ClientSockets

variable {n o : ℕ} {s s' : State} {avail : List ℕ} {a : Action}

section Slots

/-- Each object is in the pool or belongs to a connection that epoll knows, and so does each
wrapper; `acquire` throws only when there are as many connections as objects. -/
structure SlotsKept (n : ℕ) (s : State) : Prop where
  out : s.registered.length + s.pool.size = n
  wrappers : s.wrappers.length = s.registered.length
  throws : ∀ e, s.pool.acquire n = .error e → s.registered.length = n

/-- The set-up of a connection gets as far as a descriptor. -/
def Action.HasDescriptor : Action → Prop
  | .incoming accept fcntl _ => State.generateFd accept fcntl ≠ -1
  | _ => True

instance (a : Action) : Decidable a.HasDescriptor :=
  match a with
  | .incoming _ _ _ => inferInstanceAs (Decidable (_ ≠ _))
  | .handleRead _ _ => instDecidableTrue
  | .resume _ => instDecidableTrue

/-- The counts that the set-up and the close of connections keep. -/
structure Counted (n : ℕ) (s : State) (avail : List ℕ) : Prop where
  sockets : Sockets n s avail
  out : s.registered.length + avail.length = n
  wrappers : s.wrappers.length = s.registered.length

theorem Counted.slotsKept (h : Counted n s avail) : SlotsKept n s where
  out := by
    rw [← h.sockets.serves.holds.length]
    exact h.out
  wrappers := h.wrappers
  throws e he := by
    unfold PoolBuffer.acquire at he
    by_cases hsize : s.pool.size = 0
    · have hout := h.out
      rw [h.sockets.serves.holds.length, hsize] at hout
      exact hout
    · rw [if_neg hsize] at he
      cases he

theorem Counted.step (h : Counted n s avail) (ha : a.HasDescriptor)
    (hs : s.step n a = some s') : ∃ avail', Counted n s' avail' := by
  have hsockets := h.sockets
  have hout := h.out
  have hwrappers := h.wrappers
  cases move_of_step hs with
  | failed hpool hfd => exact absurd hfd ha
  | @opened fd o pool hpool =>
    obtain ⟨rest, rfl, hserves, hdata, hfree⟩ := hsockets.acquire hpool
    refine ⟨rest, hsockets.opened hserves hdata hfree _, ?_, ?_⟩
    · rw [List.length_cons] at hout
      rw [List.length_append, List.length_singleton]
      omega
    · rw [List.length_append, List.length_append, hwrappers]
      rfl
  | @refused fd o pool hpool =>
    obtain ⟨rest, rfl, hserves, hdata, hfree⟩ := hsockets.acquire hpool
    refine ⟨rest ++ [o], hsockets.refused hserves hdata hfree _, ?_, ?_⟩
    · rw [List.length_cons] at hout
      rw [List.erase_append_right _ hfree, List.erase_cons_head, List.append_nil,
        List.length_append, List.length_singleton]
      exact hout
    · rw [List.erase_append_right _ hfree, List.erase_append_right _ hsockets.made_notMem,
        List.erase_cons_head, List.erase_cons_head, List.append_nil, List.append_nil]
      exact hwrappers
  | little => exact ⟨avail, h⟩
  | @lost o ho =>
    refine ⟨avail ++ [o], hsockets.lost ho, ?_, ?_⟩
    · rw [registered_delFd (hsockets.attached o ho).1, List.length_append, List.length_singleton,
        List.length_erase_of_mem ho]
      have hpos := List.length_pos_of_mem ho
      omega
    · obtain ⟨hfd, w, hw, hmem⟩ := hsockets.attached o ho
      rw [registered_delFd hfd, wrappers_delFd hfd hw, List.length_erase_of_mem ho,
        List.length_erase_of_mem hmem, hwrappers]
  | handshake ho hw hdone => exact ⟨avail, hsockets.handshake ho hw, hout, hwrappers⟩
  | request ho hw hdone => exact ⟨avail, hsockets.same rfl rfl rfl rfl, hout, hwrappers⟩
  | resume hi => exact ⟨avail, hsockets.same rfl rfl rfl rfl, hout, hwrappers⟩

/-- A connection without a descriptor keeps the object that it got. -/
theorem Counted.lose (h : Counted n s avail) (ha : ¬ a.HasDescriptor)
    (hs : s.step n a = some s') : ¬ SlotsKept n s' := by
  intro hkept
  have hwrappers := hkept.wrappers
  cases move_of_step hs with
  | failed hpool hfd =>
    rw [List.length_append, h.wrappers] at hwrappers
    exact Nat.succ_ne_self _ hwrappers
  | opened hpool => exact ha (by show ((_ : ℕ) : ℤ) ≠ -1; omega)
  | refused hpool => exact ha (by show ((_ : ℕ) : ℤ) ≠ -1; omega)
  | little => exact ha trivial
  | lost ho => exact ha trivial
  | handshake ho hw hdone => exact ha trivial
  | request ho hw hdone => exact ha trivial
  | resume hi => exact ha trivial

theorem counted_init (n : ℕ) : Counted n (init n) (List.range n) where
  sockets := sockets_init n
  out := (Nat.zero_add _).trans List.length_range
  wrappers := rfl

/-- Slots of a pool of any capacity: none is lost as long as each connection that comes in has
a descriptor, and the first one without loses its slot. -/
theorem slotsKept_of_hasDescriptor
    (h : Runs.Reaches (State.step n) (fun _ (a : Action) => a.HasDescriptor) (init n) s) :
    SlotsKept n s ∧ ∀ a s', ¬ a.HasDescriptor → s.step n a = some s' → ¬ SlotsKept n s' := by
  have hstep : ∀ s (a : Action) s', (∃ avail, Counted n s avail) → a.HasDescriptor →
      s.step n a = some s' → ∃ avail, Counted n s' avail :=
    fun s a s' ⟨_, hcounted⟩ ha hs => hcounted.step ha hs
  obtain ⟨avail, hcounted⟩ := h.invariant hstep ⟨_, counted_init n⟩
  exact ⟨hcounted.slotsKept, fun a s' ha hs => hcounted.lose ha hs⟩

/-- The only slot goes to a connection that fails in `activate`, then to one that is lost, and is
there for a third. -/
theorem slotsKept_of_hasDescriptor_reused : ∃ s,
    Runs.Reaches (State.step 1) (fun _ (a : Action) => a.HasDescriptor) (init 1) s ∧ s.made = 3 ∧
      SlotsKept 1 s := by
  have h := Runs.Reaches.follow [.incoming (some 7) true false, .incoming (some 7) true true,
    .handleRead 0 .lost, .incoming (some 8) true true]
    (.start : Runs.Reaches (State.step 1) (fun _ (a : Action) => a.HasDescriptor) (init 1)
      (init 1)) rfl
  exact ⟨_, h, rfl, (slotsKept_of_hasDescriptor h).1⟩

/-- `accept` fails once. -/
theorem not_slotsKept_accept : ¬ ∀ s,
    Runs.Reaches (State.step 1) (fun _ _ => True) (init 1) s → SlotsKept 1 s := by
  intro h
  have hrun := Runs.Reaches.follow [.incoming none true true]
    (.start : Runs.Reaches (State.step 1) (fun _ _ => True) (init 1) (init 1)) rfl
  exact absurd (h _ hrun).out (by decide)

end Slots

section Responses

/-- Each response was written to the session that its request was read from, or to none, if that
session is closed. -/
def RespondsToOwn (s : State) : Prop :=
  ∀ r ∈ s.responses, r.writtenTo = some r.session ∨ r.writtenTo = none ∧ r.isClosed

/-- No suspended request waits to respond through the object that the pool hands out next. -/
def State.NotAwaited (s : State) : Action → Prop
  | .incoming accept fcntl attach => State.generateFd accept fcntl ≠ -1 → attach →
      ∀ h ∈ s.handlers, h.socket ≠ s.pool.availableItems s.pool.head
  | _ => True

instance (s : State) (a : Action) : Decidable (s.NotAwaited a) :=
  match a with
  | .incoming _ _ _ => inferInstanceAs (Decidable (_ → _ → ∀ h ∈ s.handlers, _))
  | .handleRead _ _ => instDecidableTrue
  | .resume _ => instDecidableTrue

/-- The socket of a request that is suspended still has the session that the request came from,
or that session is closed and the socket is not in use. -/
inductive Follows (s : State) (h : Handler) : Prop
  | attached (w : TlsWrapper) (hsocket : h.socket ∈ s.registered)
      (hw : (s.socket h.socket).tlsWrapper = some w) (hsession : w.session = h.session)
      (hdone : w.handshakeDone = true)
  | closed (hsocket : h.socket ∉ s.registered) (hsession : h.session ∉ s.wrappers)

structure Answers (n : ℕ) (s : State) (avail : List ℕ) : Prop where
  sockets : Sockets n s avail
  known : ∀ h ∈ s.handlers, h.session < s.made
  follows : ∀ h ∈ s.handlers, Follows s h
  toOwn : RespondsToOwn s

theorem answers_init (n : ℕ) : Answers n (init n) (List.range n) where
  sockets := sockets_init n
  known h hh := by cases hh
  follows h hh := by cases hh
  toOwn r hr := by cases hr

/-- A handler follows its session as long as nothing happens to its socket. -/
theorem Follows.mono {h : Handler} (hf : Follows s h)
    (hregistered : h.socket ∈ s.registered → h.socket ∈ s'.registered)
    (hsocket : h.socket ∈ s.registered → s'.socket h.socket = s.socket h.socket)
    (hfree : h.socket ∉ s.registered → h.socket ∉ s'.registered)
    (hwrappers : h.session ∉ s.wrappers → h.session ∉ s'.wrappers) : Follows s' h := by
  cases hf with
  | attached w hmem hw hsession hdone =>
    exact .attached w (hregistered hmem) (by rw [hsocket hmem]; exact hw) hsession hdone
  | closed hmem hsession => exact .closed (hfree hmem) (hwrappers hsession)

/-- What a suspended request would write to. -/
theorem Follows.response {h : Handler} (hf : Follows s h) (hs : Sockets n s avail) :
    s.writesTo h.socket = some h.session ∨
      s.writesTo h.socket = none ∧ decide (h.session ∉ s.wrappers) = true := by
  unfold State.writesTo
  cases hf with
  | attached w hmem hw hsession hdone =>
    rw [hw]
    simp only [hdone, if_true]
    exact Or.inl (congrArg some hsession)
  | closed hmem hsession =>
    refine Or.inr ⟨?_, decide_eq_true hsession⟩
    cases hw : (s.socket h.socket).tlsWrapper with
    | none => rfl
    | some w => simp only [hs.undone h.socket w hmem hw, Bool.false_eq_true, if_false]

/-- A step that leaves the handlers and the responses keeps what holds of them. -/
theorem Answers.of_follows (h : Answers n s avail) {avail' : List ℕ}
    (hsockets : Sockets n s' avail') (hhandlers : s'.handlers = s.handlers)
    (hresponses : s'.responses = s.responses) (hmade : s.made ≤ s'.made)
    (hfollows : ∀ x ∈ s.handlers, Follows s x → Follows s' x) : Answers n s' avail' where
  sockets := hsockets
  known x hx := by
    rw [hhandlers] at hx
    exact Nat.lt_of_lt_of_le (h.known x hx) hmade
  follows x hx := by
    rw [hhandlers] at hx
    exact hfollows x hx (h.follows x hx)
  toOwn := by
    unfold RespondsToOwn
    rw [hresponses]
    exact h.toOwn

/-- A new session is not one that a request was read from before. -/
theorem Answers.notMem_append (h : Answers n s avail) {x : Handler} (hx : x ∈ s.handlers)
    (hsession : x.session ∉ s.wrappers) : x.session ∉ s.wrappers ++ [s.made] := by
  intro hmem
  rcases List.mem_append.mp hmem with hold | hnew
  · exact hsession hold
  · have hlt := h.known x hx
    rw [List.mem_singleton.mp hnew] at hlt
    exact Nat.lt_irrefl _ hlt

theorem Answers.lost (h : Answers n s avail) (ho : o ∈ s.registered) :
    Answers n (s.delFd n (s.socket o).fd o) (avail ++ [o]) := by
  have hnext := h.sockets.lost ho
  obtain ⟨hfd, w, hw, hmem⟩ := h.sockets.attached o ho
  have hnodup := (List.nodup_append.mp h.sockets.nodup).2.1
  unfold State.delFd at hnext ⊢
  rw [if_pos hfd, release_of_some hw] at hnext ⊢
  refine h.of_follows hnext rfl rfl (Nat.le_refl _) fun x hx hf => ?_
  cases hf with
  | attached v hsocket hv hsession hdone =>
    by_cases heq : x.socket = o
    · refine .closed (fun hin => (hnodup.mem_erase_iff.mp hin).1 heq) fun hin => ?_
      rw [heq, hw] at hv
      cases hv
      rw [← hsession] at hin
      exact (h.sockets.once.mem_erase_iff.mp hin).1 rfl
    · refine .attached v (hnodup.mem_erase_iff.mpr ⟨heq, hsocket⟩) ?_ hsession hdone
      rw [← hv]
      exact congrArg HttpsClientSocket.tlsWrapper
        ((congrFun (data_release _ n o) x.socket).trans (socket_update heq))
  | closed hsocket hsession =>
    exact .closed (fun hin => hsocket (List.mem_of_mem_erase hin))
      fun hin => hsession (List.mem_of_mem_erase hin)

theorem Answers.step (h : Answers n s avail) (ha : s.NotAwaited a)
    (hs : s.step n a = some s') : ∃ avail', Answers n s' avail' := by
  have hsockets := h.sockets
  cases move_of_step hs with
  | @failed accept fcntl attach o pool hpool hfd =>
    obtain ⟨rest, rfl, hserves, hdata, hfree⟩ := hsockets.acquire hpool
    refine ⟨rest, h.of_follows (hsockets.failed hserves hdata hfree) rfl rfl (Nat.le_succ _)
      fun x hx hf => hf.mono (fun hin => hin) (fun hin => ?_) (fun hin => hin)
        (h.notMem_append hx)⟩
    have hne : x.socket ≠ o := fun heq => hfree (heq ▸ hin)
    exact (socket_update hne).trans (congrFun hdata _)
  | @opened fd o pool hpool =>
    have hitem := (hsockets.serves.acquire hpool).1
    obtain ⟨rest, rfl, hserves, hdata, hfree⟩ := hsockets.acquire hpool
    refine ⟨rest, h.of_follows (hsockets.opened hserves hdata hfree fd) rfl rfl (Nat.le_succ _)
      fun x hx hf => hf.mono (fun hin => List.mem_append_left _ hin) (fun hin => ?_)
        (fun hout hin => ?_) (h.notMem_append hx)⟩
    · have hne : x.socket ≠ o := fun heq => hfree (heq ▸ hin)
      exact (socket_update hne).trans (congrFun hdata _)
    · rcases List.mem_append.mp hin with hold | hnew
      · exact hout hold
      · have hfd : ((fd : ℕ) : ℤ) ≠ -1 := by omega
        exact ha hfd rfl x hx ((List.mem_singleton.mp hnew).trans hitem)
  | @refused fd o pool hpool =>
    obtain ⟨rest, rfl, hserves, hdata, hfree⟩ := hsockets.acquire hpool
    have hnext := hsockets.refused hserves hdata hfree fd
    rw [List.erase_append_right _ hfree, List.erase_append_right _ hsockets.made_notMem,
      List.erase_cons_head, List.erase_cons_head, List.append_nil, List.append_nil] at hnext ⊢
    refine ⟨rest ++ [o], h.of_follows hnext rfl rfl (Nat.le_succ _)
      fun x hx hf => hf.mono (fun hin => hin) (fun hin => ?_) (fun hin => hin) fun hin => hin⟩
    have hne : x.socket ≠ o := fun heq => hfree (heq ▸ hin)
    exact (socket_update hne).trans ((socket_update hne).trans (congrFun hdata _))
  | little => exact ⟨avail, h⟩
  | @lost o ho => exact ⟨avail ++ [o], h.lost ho⟩
  | @handshake o w ho hw hdone =>
    refine ⟨avail, h.of_follows (hsockets.handshake ho hw) rfl rfl (Nat.le_refl _)
      fun x hx hf => ?_⟩
    cases hf with
    | attached v hsocket hv hsession hv' =>
      have hne : x.socket ≠ o := by
        intro heq
        rw [heq, hw] at hv
        cases hv
        rw [hdone] at hv'
        cases hv'
      exact .attached v hsocket ((congrArg HttpsClientSocket.tlsWrapper
        (socket_update hne)).trans hv) hsession hv'
    | closed hsocket hsession => exact .closed hsocket hsession
  | @request o w ho hw hdone =>
    obtain ⟨_, w', hw', hmem⟩ := hsockets.attached o ho
    rw [hw] at hw'
    cases hw'
    refine ⟨avail, hsockets.same rfl rfl rfl rfl, fun x hx => ?_, fun x hx => ?_, h.toOwn⟩
    · rcases List.mem_append.mp hx with hold | hnew
      · exact h.known x hold
      · rw [List.mem_singleton.mp hnew]
        exact hsockets.known _ hmem
    · rcases List.mem_append.mp hx with hold | hnew
      · exact (h.follows x hold).mono (fun hin => hin) (fun _ => rfl) (fun hin => hin)
          fun hin => hin
      · rw [List.mem_singleton.mp hnew]
        exact .attached w ho hw rfl hdone
  | @resume i x hi =>
    have hx : x ∈ s.handlers := List.mem_of_getElem? hi
    refine ⟨avail, hsockets.same rfl rfl rfl rfl,
      fun y hy => h.known y (List.mem_of_mem_eraseIdx hy), fun y hy => ?_, fun r hr => ?_⟩
    · exact (h.follows y (List.mem_of_mem_eraseIdx hy)).mono (fun hin => hin) (fun _ => rfl)
        (fun hin => hin) fun hin => hin
    · rcases List.mem_append.mp hr with hold | hnew
      · exact h.toOwn r hold
      · rw [List.mem_singleton.mp hnew]
        exact (h.follows x hx).response hsockets

/-- The client that gets the object of a suspended request also gets its response. -/
theorem Answers.misdirect (h : Answers n s avail) (ha : ¬ s.NotAwaited a)
    (hs : s.step n a = some s') : ∃ t,
    Runs.Reaches (State.step n) (fun _ _ => True) s' t ∧ ¬ RespondsToOwn t := by
  have hsockets := h.sockets
  cases move_of_step hs with
  | failed hpool hfd => exact absurd (fun hne => absurd hfd hne) ha
  | refused hpool => exact absurd (fun _ hattach => absurd hattach Bool.false_ne_true) ha
  | little => exact absurd trivial ha
  | lost ho => exact absurd trivial ha
  | handshake ho hw hdone => exact absurd trivial ha
  | request ho hw hdone => exact absurd trivial ha
  | resume hi => exact absurd trivial ha
  | @opened fd o pool hpool =>
    have hitem := (hsockets.serves.acquire hpool).1
    obtain ⟨x, hx, heq⟩ : ∃ x ∈ s.handlers, x.socket = o := by
      by_contra hno
      exact ha fun _ _ x hx heq => hno ⟨x, hx, heq.trans hitem.symm⟩
    obtain ⟨i, hi⟩ := List.mem_iff_getElem?.mp hx
    set s' : State := { s with
      pool := { pool with data := Function.update pool.data o ⟨fd, some ⟨s.made, false⟩⟩ }
      registered := s.registered ++ [o]
      made := s.made + 1
      wrappers := s.wrappers ++ [s.made] } with hs'
    have hsocket : s'.socket o = ⟨fd, some ⟨s.made, false⟩⟩ := Function.update_self _ _ _
    have hin : o ∈ s'.registered := List.mem_append_right _ (List.mem_singleton_self o)
    -- The new client completes its handshake, and then the request is resumed.
    have hshake : s'.step n (.handleRead o .rest) =
        some (s'.setSocket o ⟨fd, some ⟨s.made, true⟩⟩) := by
      unfold State.step State.handleRead
      simp only [if_pos hin, hsocket, Bool.false_eq_true, if_false]
    have hresume : (s'.setSocket o ⟨fd, some ⟨s.made, true⟩⟩).step n (.resume i) = some
        { (s'.setSocket o ⟨fd, some ⟨s.made, true⟩⟩).respond x with
          handlers := s.handlers.eraseIdx i } := by
      unfold State.step
      have hi' : (s'.setSocket o ⟨fd, some ⟨s.made, true⟩⟩).handlers[i]? = some x := hi
      simp only [hi']
      rfl
    refine ⟨_, .step (.step .start trivial hshake) trivial hresume, fun hgood => ?_⟩
    have hwrites : (s'.setSocket o ⟨fd, some ⟨s.made, true⟩⟩).writesTo x.socket = some s.made := by
      unfold State.writesTo State.setSocket State.socket
      simp only [heq, Function.update_self, if_true]
    have hr := hgood _ (List.mem_append_right _ (List.mem_singleton_self _))
    simp only [hwrites] at hr
    rcases hr with hown | hnone
    · exact Nat.lt_irrefl _ (Option.some.inj hown ▸ h.known x hx)
    · cases hnone.1

/-- Every interleaving of clients that come and go with requests that are read, suspended and
resumed, over a pool of any capacity. -/
theorem respondsToOwn_of_notAwaited
    (h : Runs.Reaches (State.step n) State.NotAwaited (init n) s) :
    RespondsToOwn s ∧ ∀ a s', ¬ s.NotAwaited a → s.step n a = some s' → ∃ t,
      Runs.Reaches (State.step n) (fun _ _ => True) s' t ∧ ¬ RespondsToOwn t := by
  have hstep : ∀ s (a : Action) s', (∃ avail, Answers n s avail) → s.NotAwaited a →
      s.step n a = some s' → ∃ avail, Answers n s' avail :=
    fun s a s' ⟨_, hanswers⟩ ha hs => hanswers.step ha hs
  obtain ⟨avail, hanswers⟩ := h.invariant hstep ⟨_, answers_init n⟩
  exact ⟨hanswers.toOwn, fun a s' ha hs => hanswers.misdirect ha hs⟩

/-- A request is suspended while its client goes and another one comes, to the other object. -/
theorem respondsToOwn_of_notAwaited_closed : ∃ s,
    Runs.Reaches (State.step 2) State.NotAwaited (init 2) s ∧
      s.responses = [⟨1, some 1, false⟩, ⟨0, none, true⟩] ∧ RespondsToOwn s := by
  have h := Runs.Reaches.follow [.incoming (some 7) true true, .handleRead 0 .rest,
    .handleRead 0 .rest, .handleRead 0 .lost, .incoming (some 7) true true, .handleRead 1 .rest,
    .handleRead 1 .rest, .resume 1, .resume 0]
    (.start : Runs.Reaches (State.step 2) State.NotAwaited (init 2) (init 2)) rfl
  exact ⟨_, h, rfl, (respondsToOwn_of_notAwaited h).1⟩

/-- The only object goes to another client while a request of the first one is suspended. -/
theorem not_respondsToOwn_recycled : ¬ ∀ s,
    Runs.Reaches (State.step 1) (fun _ _ => True) (init 1) s → RespondsToOwn s := by
  intro h
  have hrun := Runs.Reaches.follow [.incoming (some 7) true true, .handleRead 0 .rest,
    .handleRead 0 .rest, .handleRead 0 .lost, .incoming (some 7) true true, .handleRead 0 .rest,
    .resume 0] (.start : Runs.Reaches (State.step 1) (fun _ _ => True) (init 1) (init 1)) rfl
  rcases h _ hrun ⟨0, some 1, true⟩ (List.mem_singleton_self _) with hown | hnone
  · cases hown
  · cases hnone.1

end Responses

end OrderBookServer.ClientSockets
