import OrderBookServer.ClientSockets

/-!
What holds of the pool, the registered sockets and their sessions, whatever fails and closes.
-/
namespace OrderBookServer.ClientSockets

variable {n o : ℕ} {s s' : State} {avail rest : List ℕ} {a : Action}

/-- A registered socket is out of the pool and has a session of its own. A socket that is not
registered has none that a response could be written to. -/
structure Sockets (n : ℕ) (s : State) (avail : List ℕ) : Prop where
  serves : s.pool.Serves n avail
  nodup : (avail ++ s.registered).Nodup
  small : ∀ o ∈ avail ++ s.registered, o < n
  attached : ∀ o ∈ s.registered, (s.socket o).fd ≠ -1 ∧
    ∃ w, (s.socket o).tlsWrapper = some w ∧ w.session ∈ s.wrappers
  distinct : ∀ o o' w w', o ∈ s.registered → o' ∈ s.registered →
    (s.socket o).tlsWrapper = some w → (s.socket o').tlsWrapper = some w' →
    w.session = w'.session → o = o'
  known : ∀ c ∈ s.wrappers, c < s.made
  once : s.wrappers.Nodup
  undone : ∀ o w, o ∉ s.registered → (s.socket o).tlsWrapper = some w → w.handshakeDone = false

theorem sockets_init (n : ℕ) : Sockets n (init n) (List.range n) where
  serves := PoolBuffer.serves_new n _
  nodup := by
    show (List.range n ++ []).Nodup
    rw [List.append_nil]
    exact List.nodup_range
  small o ho := by
    change o ∈ List.range n ++ [] at ho
    rw [List.append_nil] at ho
    exact List.mem_range.mp ho
  attached o ho := by cases ho
  distinct o o' w w' ho := by cases ho
  known c hc := by cases hc
  once := List.nodup_nil
  undone o w _ hw := by cases hw

/-- What a step can do. -/
inductive Move (n : ℕ) (s : State) : Action → State → Prop
  | failed {accept : Option ℕ} {fcntl attach : Bool} {o : ℕ} {pool : PoolBuffer HttpsClientSocket}
      (hpool : s.pool.acquire n = .ok (o, pool)) (hfd : State.generateFd accept fcntl = -1) :
      Move n s (.incoming accept fcntl attach)
        { s with
          pool := { pool with data := Function.update pool.data o ⟨-1, some ⟨s.made, false⟩⟩ }
          made := s.made + 1
          wrappers := s.wrappers ++ [s.made] }
  | opened {fd o : ℕ} {pool : PoolBuffer HttpsClientSocket}
      (hpool : s.pool.acquire n = .ok (o, pool)) :
      Move n s (.incoming (some fd) true true)
        { s with
          pool := { pool with data := Function.update pool.data o ⟨fd, some ⟨s.made, false⟩⟩ }
          registered := s.registered ++ [o]
          made := s.made + 1
          wrappers := s.wrappers ++ [s.made] }
  | refused {fd o : ℕ} {pool : PoolBuffer HttpsClientSocket}
      (hpool : s.pool.acquire n = .ok (o, pool)) :
      Move n s (.incoming (some fd) true false)
        { s with
          pool := PoolBuffer.release n
            { pool with data := Function.update pool.data o ⟨fd, none⟩ } o
          registered := (s.registered ++ [o]).erase o
          made := s.made + 1
          wrappers := (s.wrappers ++ [s.made]).erase s.made }
  | little {o : ℕ} : Move n s (.handleRead o .little) s
  | lost {o : ℕ} (ho : o ∈ s.registered) :
      Move n s (.handleRead o .lost) (s.delFd n (s.socket o).fd o)
  | handshake {o : ℕ} {w : TlsWrapper} (ho : o ∈ s.registered)
      (hw : (s.socket o).tlsWrapper = some w) (hdone : w.handshakeDone = false) :
      Move n s (.handleRead o .rest)
        (s.setSocket o { s.socket o with tlsWrapper := some { w with handshakeDone := true } })
  | request {o : ℕ} {w : TlsWrapper} (ho : o ∈ s.registered)
      (hw : (s.socket o).tlsWrapper = some w) (hdone : w.handshakeDone = true) :
      Move n s (.handleRead o .rest) { s with handlers := s.handlers ++ [⟨o, w.session⟩] }
  | resume {i : ℕ} {h : Handler} (hi : s.handlers[i]? = some h) :
      Move n s (.resume i) { s.respond h with handlers := s.handlers.eraseIdx i }

theorem release_of_some {w : TlsWrapper} (hw : (s.socket o).tlsWrapper = some w) :
    s.release n o = { s with
      pool := (s.setSocket o { s.socket o with tlsWrapper := none }).pool.release n o
      wrappers := s.wrappers.erase w.session } := by
  unfold State.release
  rw [hw]

theorem registered_delFd {fd : ℤ} (hfd : fd ≠ -1) :
    (s.delFd n fd o).registered = s.registered.erase o := by
  unfold State.delFd
  rw [if_pos hfd]

theorem wrappers_delFd {fd : ℤ} {w : TlsWrapper} (hfd : fd ≠ -1)
    (hw : (s.socket o).tlsWrapper = some w) :
    (s.delFd n fd o).wrappers = s.wrappers.erase w.session := by
  unfold State.delFd
  rw [if_pos hfd, release_of_some hw]

/-- The socket once it has its wrapper and its descriptor. -/
theorem setSslContext_setSocket (s : State) (o : ℕ) (fd : ℤ) :
    (s.setSslContext o).setSocket o { (s.setSslContext o).socket o with fd := fd } =
      { s with
        pool := { s.pool with
          data := Function.update s.pool.data o ⟨fd, some ⟨s.made, false⟩⟩ }
        made := s.made + 1
        wrappers := s.wrappers ++ [s.made] } := by
  have hsocket : (s.setSslContext o).socket o = ⟨(s.socket o).fd, some ⟨s.made, false⟩⟩ :=
    Function.update_self _ _ _
  rw [hsocket]
  unfold State.setSslContext State.setSocket
  simp only [Function.update_idem]

theorem move_of_startLiving {accept : Option ℕ} {fcntl attach : Bool}
    {pool : PoolBuffer HttpsClientSocket} (hpool : s.pool.acquire n = .ok (o, pool)) :
    Move n s (.incoming accept fcntl attach)
      ((({ s with pool := pool } : State).setSslContext o).startLivingSystemIoObject n o
        accept fcntl attach) := by
  unfold State.startLivingSystemIoObject
  simp only [setSslContext_setSocket]
  by_cases hfd : State.generateFd accept fcntl = -1
  · rw [hfd, if_pos (by decide)]
    exact .failed hpool hfd
  · cases accept with
    | none => exact absurd rfl hfd
    | some fd =>
      cases fcntl with
      | false => exact absurd rfl hfd
      | true =>
        have hpos : ¬ State.generateFd (some fd) true < 0 := Int.not_lt.mpr (Int.natCast_nonneg fd)
        rw [if_neg hpos]
        cases attach with
        | true => exact .opened hpool
        | false =>
          have hmove : Move n s (.incoming (some fd) true false) _ := .refused hpool
          unfold State.delFd
          rw [if_neg Bool.false_ne_true, if_pos hfd, release_of_some (w := ⟨s.made, false⟩)]
          · simp only [State.setSocket, State.socket, Function.update_self, Function.update_idem]
            exact hmove
          · simp only [State.socket, Function.update_self]

theorem move_of_handleRead {found : Found} (ho : o ∈ s.registered)
    (h : s.handleRead n o found = some s') : Move n s (.handleRead o found) s' := by
  unfold State.handleRead at h
  cases hw : (s.socket o).tlsWrapper with
  | none => simp [hw] at h
  | some w =>
    simp only [hw] at h
    cases found with
    | little =>
      cases h
      exact .little
    | lost =>
      cases h
      exact .lost ho
    | rest =>
      cases hdone : w.handshakeDone with
      | true =>
        simp only [hdone, if_true] at h
        cases h
        exact .request ho hw hdone
      | false =>
        simp only [hdone, Bool.false_eq_true, if_false] at h
        cases h
        exact .handshake ho hw hdone

theorem move_of_step (h : s.step n a = some s') : Move n s a s' := by
  unfold State.step at h
  cases a with
  | incoming accept fcntl attach =>
    unfold State.incoming at h
    cases hpool : s.pool.acquire n with
    | error e => simp [hpool, Except.toOption] at h
    | ok x =>
      simp only [hpool, Except.toOption] at h
      cases h
      exact move_of_startLiving hpool
  | handleRead o found =>
    by_cases ho : o ∈ s.registered
    · simp only [if_pos ho] at h
      exact move_of_handleRead ho h
    · simp [if_neg ho] at h
  | resume i =>
    cases hi : s.handlers[i]? with
    | none => simp [hi] at h
    | some x =>
      simp only [hi] at h
      cases h
      exact .resume hi

section Steps

variable {pool : PoolBuffer HttpsClientSocket} {w : TlsWrapper}

theorem data_release (pool : PoolBuffer HttpsClientSocket) (n o : ℕ) :
    (pool.release n o).data = pool.data :=
  Function.update_eq_self o pool.data

/-- The object that is acquired is not registered. -/
theorem Sockets.acquire (h : Sockets n s avail) (hpool : s.pool.acquire n = .ok (o, pool)) :
    ∃ rest, avail = o :: rest ∧ pool.Serves n rest ∧ pool.data = s.pool.data ∧
      o ∉ s.registered := by
  obtain ⟨_, ⟨rest, rfl, hrest⟩, hdata⟩ := h.serves.acquire hpool
  refine ⟨rest, rfl, hrest, hdata.trans (Function.update_eq_self o s.pool.data), fun hmem => ?_⟩
  exact (List.nodup_cons.mp h.nodup).1 (List.mem_append_right _ hmem)

/-- The sockets other than the one that changes. -/
theorem socket_update {data : ℕ → HttpsClientSocket} {socket : HttpsClientSocket} {o' : ℕ}
    (hne : o' ≠ o) : Function.update data o socket o' = data o' :=
  Function.update_of_ne hne _ _

/-- Requests and responses do not concern the sockets. -/
theorem Sockets.same (h : Sockets n s avail) (hpool : s'.pool = s.pool)
    (hregistered : s'.registered = s.registered) (hmade : s'.made = s.made)
    (hwrappers : s'.wrappers = s.wrappers) : Sockets n s' avail := by
  obtain ⟨pool, registered, made, wrappers, handlers, responses⟩ := s'
  cases hpool
  cases hregistered
  cases hmade
  cases hwrappers
  exact ⟨h.serves, h.nodup, h.small, h.attached, h.distinct, h.known, h.once, h.undone⟩

/-- Registered sockets that stay as they were, with their sessions. -/
theorem Sockets.keep {avail' : List ℕ} (h : Sockets n s avail) (hserves : s'.pool.Serves n avail')
    (hnodup : (avail' ++ s'.registered).Nodup) (hsmall : ∀ o' ∈ avail' ++ s'.registered, o' < n)
    (hstays : ∀ o' ∈ s'.registered, o' ∈ s.registered ∧ s'.socket o' = s.socket o')
    (hsessions : ∀ o' ∈ s'.registered, ∀ w, (s.socket o').tlsWrapper = some w →
      w.session ∈ s.wrappers → w.session ∈ s'.wrappers)
    (hknown : ∀ c ∈ s'.wrappers, c < s'.made) (honce : s'.wrappers.Nodup)
    (hundone : ∀ o' w, o' ∉ s'.registered → (s'.socket o').tlsWrapper = some w →
      w.handshakeDone = false) : Sockets n s' avail' := by
  refine ⟨hserves, hnodup, hsmall, fun o' ho' => ?_, fun o₁ o₂ w₁ w₂ h₁ h₂ hw₁ hw₂ => ?_, hknown,
    honce, hundone⟩
  · obtain ⟨hmem, hsocket⟩ := hstays o' ho'
    obtain ⟨hfd, w, hw, hwrapper⟩ := h.attached o' hmem
    rw [hsocket]
    exact ⟨hfd, w, hw, hsessions o' ho' w hw hwrapper⟩
  · obtain ⟨hm₁, hs₁⟩ := hstays o₁ h₁
    obtain ⟨hm₂, hs₂⟩ := hstays o₂ h₂
    rw [hs₁] at hw₁
    rw [hs₂] at hw₂
    exact h.distinct o₁ o₂ w₁ w₂ hm₁ hm₂ hw₁ hw₂

theorem Sockets.made_notMem (h : Sockets n s avail) : s.made ∉ s.wrappers :=
  fun hmem => Nat.lt_irrefl _ (h.known _ hmem)

theorem Sockets.known_append (h : Sockets n s avail) : ∀ c ∈ s.wrappers ++ [s.made],
    c < s.made + 1 := by
  intro c hc
  rcases List.mem_append.mp hc with hold | hnew
  · exact Nat.lt_succ_of_lt (h.known c hold)
  · rw [List.mem_singleton.mp hnew]
    exact Nat.lt_succ_self _

theorem Sockets.once_append (h : Sockets n s avail) : (s.wrappers ++ [s.made]).Nodup :=
  List.nodup_append.mpr ⟨h.once, by simp, fun c hc d hd heq =>
    h.made_notMem (by rw [← List.mem_singleton.mp hd, ← heq]; exact hc)⟩

/-- A connection whose set-up fails takes its object with it. -/
theorem Sockets.failed (h : Sockets n s (o :: rest)) (hserves : pool.Serves n rest)
    (hdata : pool.data = s.pool.data) (hfree : o ∉ s.registered) :
    Sockets n { s with
      pool := { pool with data := Function.update pool.data o ⟨-1, some ⟨s.made, false⟩⟩ }
      made := s.made + 1
      wrappers := s.wrappers ++ [s.made] } rest := by
  have hstays : ∀ o' ∈ s.registered, o' ∈ s.registered ∧
      Function.update pool.data o ⟨-1, some ⟨s.made, false⟩⟩ o' = s.socket o' := by
    intro o' ho'
    have hne : o' ≠ o := fun heq => hfree (heq ▸ ho')
    rw [socket_update hne, hdata]
    exact ⟨ho', rfl⟩
  refine h.keep ⟨hserves.head_mod, hserves.tail_mod, hserves.holds⟩ (List.nodup_cons.mp h.nodup).2
    (fun o' ho' => h.small o' (List.mem_cons_of_mem _ ho')) hstays
    (fun _ _ _ _ hmem => List.mem_append_left _ hmem) h.known_append h.once_append ?_
  intro o' w ho' hw
  change (Function.update pool.data o _ o').tlsWrapper = some w at hw
  by_cases heq : o' = o
  · rw [heq, Function.update_self] at hw
    cases hw
    rfl
  · rw [socket_update heq, hdata] at hw
    exact h.undone o' w ho' hw

/-- A connection that is open has an object of its own. -/
theorem Sockets.opened (h : Sockets n s (o :: rest)) (hserves : pool.Serves n rest)
    (hdata : pool.data = s.pool.data) (hfree : o ∉ s.registered) (fd : ℕ) :
    Sockets n { s with
      pool := { pool with data := Function.update pool.data o ⟨fd, some ⟨s.made, false⟩⟩ }
      registered := s.registered ++ [o]
      made := s.made + 1
      wrappers := s.wrappers ++ [s.made] } rest := by
  have hcase : ∀ {o'}, o' ∈ s.registered ++ [o] →
      (o' = o ∧ Function.update pool.data o ⟨fd, some ⟨s.made, false⟩⟩ o' =
        ⟨fd, some ⟨s.made, false⟩⟩) ∨ (o' ∈ s.registered ∧
      Function.update pool.data o ⟨fd, some ⟨s.made, false⟩⟩ o' = s.socket o') := by
    intro o' ho'
    rcases List.mem_append.mp ho' with hold | hnew
    · have hne : o' ≠ o := fun heq => hfree (heq ▸ hold)
      rw [socket_update hne, hdata]
      exact Or.inr ⟨hold, rfl⟩
    · rw [List.mem_singleton.mp hnew, Function.update_self]
      exact Or.inl ⟨rfl, rfl⟩
  -- A session that was there before is not the new one.
  have hold : ∀ {o' w}, o' ∈ s.registered → (s.socket o').tlsWrapper = some w →
      w.session ≠ s.made := by
    intro o' w ho' hw heq
    obtain ⟨_, w', hw', hmem⟩ := h.attached o' ho'
    rw [hw] at hw'
    cases hw'
    exact h.made_notMem (heq ▸ hmem)
  refine ⟨⟨hserves.head_mod, hserves.tail_mod, hserves.holds⟩, ?_, fun o' ho' => ?_,
    fun o' ho' => ?_, fun o₁ o₂ w₁ w₂ h₁ h₂ hw₁ hw₂ heq => ?_, h.known_append, h.once_append,
    fun o' w ho' hw => ?_⟩
  · show (rest ++ (s.registered ++ [o])).Nodup
    rw [← List.append_assoc]
    exact (List.perm_append_singleton o _).nodup_iff.mpr h.nodup
  · apply h.small o'
    change o' ∈ rest ++ (s.registered ++ [o]) at ho'
    rw [← List.append_assoc] at ho'
    exact (List.perm_append_singleton o _).mem_iff.mp ho'
  · rcases hcase ho' with ⟨_, hsocket⟩ | ⟨hmem, hsocket⟩
    · refine ⟨?_, ⟨s.made, false⟩, ?_, List.mem_append_right _ (List.mem_singleton_self _)⟩
      · show (Function.update pool.data o _ o').fd ≠ -1
        rw [hsocket]
        show (fd : ℤ) ≠ -1
        omega
      · show (Function.update pool.data o _ o').tlsWrapper = some _
        rw [hsocket]
    · obtain ⟨hfd, w, hw, hwrapper⟩ := h.attached o' hmem
      refine ⟨?_, w, ?_, List.mem_append_left _ hwrapper⟩
      · show (Function.update pool.data o _ o').fd ≠ -1
        rw [hsocket]
        exact hfd
      · show (Function.update pool.data o _ o').tlsWrapper = some w
        rw [hsocket]
        exact hw
  · change (Function.update pool.data o _ o₁).tlsWrapper = some w₁ at hw₁
    change (Function.update pool.data o _ o₂).tlsWrapper = some w₂ at hw₂
    rcases hcase h₁ with ⟨rfl, hs₁⟩ | ⟨hm₁, hs₁⟩
    · rcases hcase h₂ with ⟨rfl, _⟩ | ⟨hm₂, hs₂⟩
      · rfl
      · rw [hs₁] at hw₁
        rw [hs₂] at hw₂
        cases hw₁
        exact absurd heq.symm (hold hm₂ hw₂)
    · rcases hcase h₂ with ⟨rfl, hs₂⟩ | ⟨hm₂, hs₂⟩
      · rw [hs₁] at hw₁
        rw [hs₂] at hw₂
        cases hw₂
        exact absurd heq (hold hm₁ hw₁)
      · rw [hs₁] at hw₁
        rw [hs₂] at hw₂
        exact h.distinct o₁ o₂ w₁ w₂ hm₁ hm₂ hw₁ hw₂ heq
  · change (Function.update pool.data o _ o').tlsWrapper = some w at hw
    have hne : o' ≠ o := fun heq => ho' (List.mem_append_right _ (List.mem_singleton.mpr heq))
    rw [socket_update hne, hdata] at hw
    exact h.undone o' w (fun hmem => ho' (List.mem_append_left _ hmem)) hw

/-- A connection that is registered and not activated gives back what it took. -/
theorem Sockets.refused (h : Sockets n s (o :: rest)) (hserves : pool.Serves n rest)
    (hdata : pool.data = s.pool.data) (hfree : o ∉ s.registered) (fd : ℕ) :
    Sockets n { s with
      pool := PoolBuffer.release n
        { pool with data := Function.update pool.data o ⟨fd, none⟩ } o
      registered := (s.registered ++ [o]).erase o
      made := s.made + 1
      wrappers := (s.wrappers ++ [s.made]).erase s.made } (rest ++ [o]) := by
  have hregistered : (s.registered ++ [o]).erase o = s.registered := by
    rw [List.erase_append_right _ hfree, List.erase_cons_head, List.append_nil]
  have hwrappers : (s.wrappers ++ [s.made]).erase s.made = s.wrappers := by
    rw [List.erase_append_right _ h.made_notMem, List.erase_cons_head, List.append_nil]
  have hnodup := List.nodup_append.mp (List.nodup_cons.mp h.nodup).2
  have hroom : rest.length < n := by
    refine PoolBuffer.length_lt_of_used hnodup.1 (fun x hx => ?_)
      (h.small o (List.mem_cons_self ..))
      fun hmem => (List.nodup_cons.mp h.nodup).1 (List.mem_append_left _ hmem)
    exact h.small x (List.mem_cons_of_mem _ (List.mem_append_left _ hx))
  have hperm : (rest ++ [o] ++ s.registered).Perm (o :: rest ++ s.registered) :=
    (List.perm_append_singleton o rest).append_right _
  rw [hregistered, hwrappers]
  have hbefore : (PoolBuffer.Serves n
      { pool with data := Function.update pool.data o (⟨fd, none⟩ : HttpsClientSocket) } rest) :=
    ⟨hserves.head_mod, hserves.tail_mod, hserves.holds⟩
  have hsame : ∀ {o'}, o' ≠ o → Function.update (Function.update pool.data o ⟨fd, none⟩) o
      (Pooled.clear (Function.update pool.data o ⟨fd, none⟩ o)) o' = s.socket o' := by
    intro o' hne
    rw [socket_update hne, socket_update hne, hdata]
    rfl
  refine h.keep (hbefore.release hroom o) (hperm.nodup_iff.mpr h.nodup)
    (fun o' ho' => h.small o' (hperm.mem_iff.mp ho'))
    (fun o' ho' => ⟨ho', hsame fun heq => hfree (heq ▸ ho')⟩) (fun _ _ _ _ hmem => hmem)
    (fun c hc => Nat.lt_succ_of_lt (h.known c hc)) h.once ?_
  intro o' w ho' hw
  by_cases heq : o' = o
  · change (Function.update (Function.update pool.data o ⟨fd, none⟩) o
      (Pooled.clear (Function.update pool.data o ⟨fd, none⟩ o)) o').tlsWrapper = some w at hw
    rw [heq, Function.update_self, Function.update_self] at hw
    cases hw
  · apply h.undone o' w ho'
    rw [← hsame heq]
    exact hw

/-- A connection that is lost gives back its object and its session. -/
theorem Sockets.lost (h : Sockets n s avail) (ho : o ∈ s.registered) :
    Sockets n (s.delFd n (s.socket o).fd o) (avail ++ [o]) := by
  obtain ⟨hfd, w, hw, hwrapper⟩ := h.attached o ho
  unfold State.delFd
  rw [if_pos hfd, release_of_some hw]
  have hnodup := List.nodup_append.mp h.nodup
  have hroom : avail.length < n := by
    refine PoolBuffer.length_lt_of_used hnodup.1 (fun x hx => ?_)
      (h.small o (List.mem_append_right _ ho)) fun hmem => hnodup.2.2 o hmem o ho rfl
    exact h.small x (List.mem_append_left _ hx)
  have hperm : (avail ++ [o] ++ s.registered.erase o).Perm (avail ++ s.registered) := by
    rw [List.append_assoc]
    exact (List.perm_cons_erase ho).symm.append_left avail
  have hbefore : (s.setSocket o { s.socket o with tlsWrapper := none }).pool.Serves n avail :=
    ⟨h.serves.head_mod, h.serves.tail_mod, h.serves.holds⟩
  have hsame : ∀ {o'}, o' ≠ o →
      ((s.setSocket o { s.socket o with tlsWrapper := none }).pool.release n o).data o' =
        s.socket o' := by
    intro o' hne
    rw [data_release]
    exact socket_update hne
  have hstays : ∀ {o'}, o' ∈ s.registered.erase o → o' ≠ o ∧ o' ∈ s.registered :=
    fun ho' => (hnodup.2.1.mem_erase_iff).mp ho'
  have hsessions : ∀ o' ∈ s.registered.erase o, ∀ w', (s.socket o').tlsWrapper = some w' →
      w'.session ∈ s.wrappers → w'.session ∈ s.wrappers.erase w.session := by
    intro o' ho' w' hw' hmem'
    obtain ⟨hne, hmem⟩ := hstays ho'
    have hother : w'.session ≠ w.session := fun heq => hne (h.distinct o' o w' w hmem ho hw' hw heq)
    exact (List.mem_erase_of_ne hother).mpr hmem'
  refine h.keep (hbefore.release hroom o) (hperm.nodup_iff.mpr h.nodup)
    (fun o' ho' => h.small o' (hperm.mem_iff.mp ho'))
    (fun o' ho' => ⟨(hstays ho').2, hsame (hstays ho').1⟩) hsessions
    (fun c hc => h.known c (List.mem_of_mem_erase hc)) (h.once.erase _) ?_
  intro o' w' ho' hw'
  by_cases heq : o' = o
  · change (((s.setSocket o { s.socket o with tlsWrapper := none }).pool.release n o).data
      o').tlsWrapper = some w' at hw'
    rw [heq, data_release] at hw'
    change (Function.update s.pool.data o _ o).tlsWrapper = some w' at hw'
    rw [Function.update_self] at hw'
    cases hw'
  · apply h.undone o' w' fun hmem => ho' ((hnodup.2.1.mem_erase_iff).mpr ⟨heq, hmem⟩)
    rw [← hsame heq]
    exact hw'

/-- The handshake changes neither the session nor anything else of a socket. -/
theorem Sockets.handshake (h : Sockets n s avail) (ho : o ∈ s.registered)
    (hw : (s.socket o).tlsWrapper = some w) :
    Sockets n (s.setSocket o
      { s.socket o with tlsWrapper := some { w with handshakeDone := true } }) avail := by
  have hcase : ∀ o', (s.setSocket o
      { s.socket o with tlsWrapper := some { w with handshakeDone := true } }).socket o' =
      if o' = o then ⟨(s.socket o).fd, some { w with handshakeDone := true }⟩
      else s.socket o' := by
    intro o'
    by_cases heq : o' = o
    · rw [if_pos heq, heq]
      exact Function.update_self _ _ _
    · rw [if_neg heq]
      exact socket_update heq
  -- Each wrapper was there before, with the same session.
  have hsession : ∀ {o' w'}, ((s.setSocket o
      { s.socket o with tlsWrapper := some { w with handshakeDone := true } }).socket
        o').tlsWrapper = some w' →
      ∃ w₀, (s.socket o').tlsWrapper = some w₀ ∧ w₀.session = w'.session := by
    intro o' w' hw'
    rw [hcase] at hw'
    by_cases heq : o' = o
    · rw [if_pos heq] at hw'
      cases hw'
      exact ⟨w, heq ▸ hw, rfl⟩
    · rw [if_neg heq] at hw'
      exact ⟨w', hw', rfl⟩
  refine ⟨⟨h.serves.head_mod, h.serves.tail_mod, h.serves.holds⟩, h.nodup, h.small,
    fun o' ho' => ?_, fun o₁ o₂ w₁ w₂ h₁ h₂ hw₁ hw₂ heq => ?_, h.known, h.once,
    fun o' w' ho' hw' => ?_⟩
  · obtain ⟨hfd, w', hw', hmem⟩ := h.attached o' ho'
    rw [hcase]
    by_cases heq : o' = o
    · rw [if_pos heq]
      rw [heq] at hfd hw'
      rw [hw] at hw'
      cases hw'
      exact ⟨hfd, _, rfl, hmem⟩
    · rw [if_neg heq]
      exact ⟨hfd, w', hw', hmem⟩
  · obtain ⟨v₁, hv₁, heq₁⟩ := hsession hw₁
    obtain ⟨v₂, hv₂, heq₂⟩ := hsession hw₂
    exact h.distinct o₁ o₂ v₁ v₂ h₁ h₂ hv₁ hv₂ (heq₁.trans (heq.trans heq₂.symm))
  · have hne : o' ≠ o := fun heq => ho' (heq ▸ ho)
    rw [hcase, if_neg hne] at hw'
    exact h.undone o' w' ho' hw'

end Steps

end OrderBookServer.ClientSockets
