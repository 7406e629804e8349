import Mathlib.Data.List.Nodup
import Mathlib.Data.List.Range
import OrderBookServer.SpinLock

/-!
`EventBaseManager::get_event_base_by_id`, which any thread may call: under a spin lock it looks for
the event base of an id, and makes one and a thread that runs its loop where there is none.
-/
namespace OrderBookServer.EventBaseManager

open SpinLock

/-- The statics of the function for one type of ids. A `shared_ptr` is null or the number of an
event base, and a thread is there for the event base whose loop it runs, on the core of its id. -/
structure Registry (T : Type) where
  eventBaseList : List (T × Option ℕ)
  threads : List (T × ℕ)
  made : ℕ
deriving DecidableEq, Repr

/-- The next statement behind `SpinLockGuard lock(spin_lock)`. -/
inductive Point (T : Type)
  | find (id : T)
  | makeShared (id : T)
  | insert (id : T) (eventBase : ℕ)
  | emplaceThread (id : T) (eventBase : ℕ)
  | get (id : T)
deriving DecidableEq, Repr

section Model

variable {T : Type} [DecidableEq T]

/-- `insert` keeps what stands under the key already. -/
def insert (list : List (T × Option ℕ)) (id : T) (eventBase : Option ℕ) : List (T × Option ℕ) :=
  match list.lookup id with
  | some _ => list
  | none => list ++ [(id, eventBase)]

/-- `event_base_list[id].get()`; the operator puts a null under a key that is not there. -/
def get (r : Registry T) (id : T) : Registry T × Option ℕ :=
  match r.eventBaseList.lookup id with
  | some eventBase => (r, eventBase)
  | none => ({ r with eventBaseList := r.eventBaseList ++ [(id, none)] }, none)

def getEventBaseById : CriticalSection (Registry T) (Point T) T (Option ℕ) where
  start := .find
  step r
    | .find id =>
      (r, .inl (if (r.eventBaseList.lookup id).isNone then .makeShared id else .get id))
    | .makeShared id => ({ r with made := r.made + 1 }, .inl (.insert id r.made))
    | .insert id eventBase =>
      ({ r with eventBaseList := insert r.eventBaseList id (some eventBase) },
        .inl (.emplaceThread id eventBase))
    | .emplaceThread id eventBase =>
      ({ r with threads := r.threads ++ [(id, eventBase)] }, .inl (.get id))
    | .get id => ((get r id).1, .inr (get r id).2)

end Model

section Calls

variable {T : Type}

def Registry.empty : Registry T := ⟨[], [], 0⟩

/-- The registry with a new event base and its thread. -/
def Registry.added (r : Registry T) (id : T) : Registry T :=
  ⟨r.eventBaseList ++ [(id, some r.made)], r.threads ++ [(id, r.made)], r.made + 1⟩

/-- Each event base is in the list under its id, once, and has a thread. -/
structure Registry.Sound (r : Registry T) : Prop where
  ids_nodup : (r.threads.map Prod.fst).Nodup
  list_eq : r.eventBaseList = r.threads.map fun thread => (thread.1, some thread.2)
  made_eq : r.threads.map Prod.snd = List.range r.made

variable {r r' : Registry T} {id : T} {eventBase : ℕ} {out : Option ℕ}

theorem Registry.sound_empty : (Registry.empty : Registry T).Sound :=
  ⟨List.nodup_nil, rfl, rfl⟩

theorem Registry.Sound.added (h : r.Sound) (hfresh : ∀ thread ∈ r.threads, thread.1 ≠ id) :
    (r.added id).Sound := by
  refine ⟨?_, ?_, ?_⟩
  · rw [Registry.added, List.map_append, List.nodup_append]
    refine ⟨h.ids_nodup, List.nodup_singleton _, fun a ha b hb => ?_⟩
    obtain ⟨thread, hthread, rfl⟩ := List.mem_map.mp ha
    rw [List.mem_singleton.mp hb]
    exact hfresh thread hthread
  · rw [Registry.added, List.map_append, h.list_eq]
    rfl
  · rw [Registry.added, List.map_append, h.made_eq, List.range_succ]
    rfl

theorem Registry.Sound.bases_nodup (h : r.Sound) : (r.threads.map Prod.snd).Nodup := by
  rw [h.made_eq]
  exact List.nodup_range

/-- Two threads run different loops, for different ids. -/
theorem Registry.Sound.thread_inj (h : r.Sound) {thread thread' : T × ℕ}
    (hin : thread ∈ r.threads) (hin' : thread' ∈ r.threads) :
    thread.2 = thread'.2 ↔ thread.1 = thread'.1 := by
  constructor
  · intro heq
    rw [List.inj_on_of_nodup_map h.bases_nodup hin hin' heq]
  · intro heq
    rw [List.inj_on_of_nodup_map h.ids_nodup hin hin' heq]

variable [DecidableEq T]

theorem lookup_append_of_none {list more : List (T × Option ℕ)} (h : list.lookup id = none) :
    (list ++ more).lookup id = more.lookup id := by
  rw [List.lookup_append, h, Option.none_or]

/-- What a call has done so far, by the statement that is next. -/
def Inside (r : Registry T) (id : T) (now : Registry T) : Point T → Prop
  | .find id' => id' = id ∧ now = r
  | .makeShared id' => id' = id ∧ now = r ∧ r.eventBaseList.lookup id = none
  | .insert id' eventBase => id' = id ∧ eventBase = r.made ∧
      now = { r with made := r.made + 1 } ∧ r.eventBaseList.lookup id = none
  | .emplaceThread id' eventBase => id' = id ∧ eventBase = r.made ∧
      now = { r.added id with threads := r.threads } ∧ r.eventBaseList.lookup id = none
  | .get id' => id' = id ∧ (now = r ∧ (r.eventBaseList.lookup id).isSome ∨
      now = r.added id ∧ r.eventBaseList.lookup id = none)

theorem inside_of_leads {now : Registry T} {point : Point T}
    (h : getEventBaseById.Leads r (.find id) now point) : Inside r id now point := by
  induction h with
  | here => exact ⟨rfl, rfl⟩
  | @step s s' l l' _ hs ih =>
    cases l with
    | find id' =>
      obtain ⟨rfl, rfl⟩ := ih
      cases hfind : s.eventBaseList.lookup id' with
      | none =>
        simp only [getEventBaseById, hfind, Option.isNone_none, if_true] at hs
        cases hs
        exact ⟨rfl, rfl, hfind⟩
      | some eventBase =>
        simp only [getEventBaseById, hfind, Option.isNone_some, Bool.false_eq_true, if_false] at hs
        cases hs
        exact ⟨rfl, .inl ⟨rfl, by rw [hfind]; rfl⟩⟩
    | makeShared id' =>
      obtain ⟨rfl, rfl, hnone⟩ := ih
      cases hs
      exact ⟨rfl, rfl, rfl, hnone⟩
    | insert id' eventBase =>
      obtain ⟨rfl, rfl, rfl, hnone⟩ := ih
      cases hs
      refine ⟨rfl, rfl, ?_, hnone⟩
      simp only [EventBaseManager.insert, hnone]
      rfl
    | emplaceThread id' eventBase =>
      obtain ⟨rfl, rfl, rfl, hnone⟩ := ih
      cases hs
      exact ⟨rfl, .inr ⟨rfl, hnone⟩⟩
    | get id' => cases hs

/-- A call finds the event base of the id, or adds one. -/
theorem calls_cases (h : getEventBaseById.Calls r id r' out) :
    r' = r ∧ r.eventBaseList.lookup id = some out ∨
      r' = r.added id ∧ r.eventBaseList.lookup id = none ∧ out = some r.made := by
  obtain ⟨now, point, hleads, hs⟩ := h
  have hinside := inside_of_leads hleads
  cases point with
  | find id' => cases hs
  | makeShared id' => cases hs
  | insert id' eventBase => cases hs
  | emplaceThread id' eventBase => cases hs
  | get id' =>
    obtain ⟨rfl, ⟨rfl, hsome⟩ | ⟨rfl, hnone⟩⟩ := hinside
    · obtain ⟨eventBase, hfind⟩ := Option.isSome_iff_exists.mp hsome
      simp only [getEventBaseById, get, hfind] at hs
      cases hs
      exact .inl ⟨rfl, hfind⟩
    · have hfind : (r.added id').eventBaseList.lookup id' = some (some r.made) := by
        rw [Registry.added, lookup_append_of_none hnone, List.lookup_cons_self]
      simp only [getEventBaseById, get, hfind] at hs
      cases hs
      exact .inr ⟨rfl, hnone, rfl⟩

theorem lookup_map_eq_some_iff {threads : List (T × ℕ)} (h : (threads.map Prod.fst).Nodup) :
    (threads.map fun thread => (thread.1, some thread.2)).lookup id = some out ↔
      ∃ eventBase, out = some eventBase ∧ (id, eventBase) ∈ threads := by
  induction threads with
  | nil => simp
  | cons thread threads ih =>
    obtain ⟨id', eventBase'⟩ := thread
    obtain ⟨hnot, hnodup⟩ := List.nodup_cons.mp h
    rw [List.map_cons]
    by_cases hid : id = id'
    · subst hid
      rw [List.lookup_cons_self]
      constructor
      · intro heq
        cases heq
        exact ⟨eventBase', rfl, List.mem_cons_self ..⟩
      · rintro ⟨eventBase, rfl, hmem⟩
        rcases List.mem_cons.mp hmem with heq | hmem
        · cases heq
          rfl
        · exact absurd (List.mem_map_of_mem hmem) hnot
    · have hne : (id == id') = false := beq_false_of_ne hid
      rw [List.lookup_cons, hne]
      refine (ih hnodup).trans (exists_congr fun eventBase => and_congr_right fun _ => ?_)
      rw [List.mem_cons, or_iff_right]
      exact fun heq => hid (congrArg Prod.fst heq)

theorem Registry.Sound.lookup_eq_some_iff (h : r.Sound) :
    r.eventBaseList.lookup id = some out ↔
      ∃ eventBase, out = some eventBase ∧ (id, eventBase) ∈ r.threads := by
  rw [h.list_eq]
  exact lookup_map_eq_some_iff h.ids_nodup

theorem Registry.Sound.fresh (h : r.Sound) (hnone : r.eventBaseList.lookup id = none) :
    ∀ thread ∈ r.threads, thread.1 ≠ id := by
  intro thread hthread heq
  subst heq
  have hsome := h.lookup_eq_some_iff.mpr ⟨thread.2, rfl, hthread⟩
  rw [hnone] at hsome
  cases hsome

/-- Calls one after the other leave each event base that they return in the registry. -/
theorem served_of_serial {calls : List (T × Option ℕ)}
    (h : getEventBaseById.Serial .empty calls r) : r.Sound ∧
      ∀ call ∈ calls, ∃ eventBase, call.2 = some eventBase ∧ (call.1, eventBase) ∈ r.threads := by
  induction h with
  | nil => exact ⟨Registry.sound_empty, nofun⟩
  | @call calls r r' id out _ hc ih =>
    obtain ⟨hsound, hserved⟩ := ih
    obtain ⟨rfl, hfind⟩ | ⟨rfl, hnone, rfl⟩ := calls_cases hc
    · refine ⟨hsound, fun call hcall => ?_⟩
      rcases List.mem_append.mp hcall with hcall | hcall
      · exact hserved call hcall
      · rw [List.mem_singleton.mp hcall]
        exact hsound.lookup_eq_some_iff.mp hfind
    · refine ⟨hsound.added (hsound.fresh hnone), fun call hcall => ?_⟩
      rcases List.mem_append.mp hcall with hcall | hcall
      · obtain ⟨eventBase, heq, hin⟩ := hserved call hcall
        exact ⟨eventBase, heq, List.mem_append_left _ hin⟩
      · rw [List.mem_singleton.mp hcall]
        exact ⟨r.made, rfl, List.mem_append_right _ (List.mem_singleton.mpr rfl)⟩

/-- While a call is under way the threads are those from before it, or the new one is there too. -/
theorem Inside.threads_eq {now : Registry T} {point : Point T} (h : Inside r id now point) :
    now.threads = r.threads ∨
      now.threads = (r.added id).threads ∧ r.eventBaseList.lookup id = none := by
  cases point with
  | find id' => exact .inl (by rw [h.2])
  | makeShared id' => exact .inl (by rw [h.2.1])
  | insert id' eventBase => exact .inl (by rw [h.2.2.1])
  | emplaceThread id' eventBase => exact .inl (by rw [h.2.2.1])
  | get id' =>
    obtain ⟨_, ⟨rfl, _⟩ | ⟨rfl, hnone⟩⟩ := h
    · exact .inl rfl
    · exact .inr ⟨rfl, hnone⟩

end Calls

section Reachable

variable {T τ : Type} [DecidableEq T] [DecidableEq τ]
  {s : State τ (Registry T) (Point T) T (Option ℕ)}

/-- In every reachable state the threads are those of a sound registry that has what was
returned. -/
theorem exists_sound (h : Runs.Reaches (fun s a => s.next getEventBaseById a) (fun _ _ => True)
    (init .empty) s) : ∃ r : Registry T, r.Sound ∧ s.shared.threads = r.threads ∧
      ∀ call ∈ s.returned, ∃ eventBase, call.2.2 = some eventBase ∧
        (call.2.1, eventBase) ∈ r.threads := by
  obtain ⟨hguarded, base, hserves⟩ := exists_serves h
  obtain ⟨hsound, hserved⟩ := served_of_serial hserves.serial
  have hreturned : ∀ call ∈ s.returned, ∃ eventBase, call.2.2 = some eventBase ∧
      (call.2.1, eventBase) ∈ base.threads :=
    fun call hcall => hserved call.2 (List.mem_map_of_mem hcall)
  have hgrown : ∀ id, base.eventBaseList.lookup id = none →
      s.shared.threads = (base.added id).threads → ∃ r : Registry T, r.Sound ∧
        s.shared.threads = r.threads ∧ ∀ call ∈ s.returned, ∃ eventBase,
          call.2.2 = some eventBase ∧ (call.2.1, eventBase) ∈ r.threads := by
    intro id hnone hthreads
    refine ⟨base.added id, hsound.added (hsound.fresh hnone), hthreads, fun call hcall => ?_⟩
    obtain ⟨eventBase, heq, hin⟩ := hreturned call hcall
    exact ⟨eventBase, heq, List.mem_append_left _ hin⟩
  by_cases hheld : ∃ t, (s.phase t).holds
  · obtain ⟨t, ht⟩ := hheld
    cases hp : s.phase t with
    | idle => rw [hp] at ht; exact ht.elim
    | spinning id => rw [hp] at ht; exact ht.elim
    | inside id point =>
      have hinside := inside_of_leads (hserves.inside t id point hp)
      rcases hinside.threads_eq with hsame | ⟨hadded, hnone⟩
      · exact ⟨base, hsound, hsame, hreturned⟩
      · exact hgrown id hnone hadded
    | leaving id out =>
      obtain ⟨hsame, _⟩ | ⟨hadded, hnone, _⟩ := calls_cases (hserves.leaving t id out hp)
      · exact ⟨base, hsound, congrArg Registry.threads hsame, hreturned⟩
      · exact hgrown id hnone (congrArg Registry.threads hadded)
  · have hfree := hserves.free (Bool.eq_false_iff.mpr fun hset => hheld (hguarded.flag_iff.mp hset))
    exact ⟨base, hsound, congrArg Registry.threads hfree, hreturned⟩

/-- Whatever the order of their steps, threads that ask for event bases get the same one exactly
for the same id; one thread runs its loop; and one thread at most is between lock and unlock, while
a call that is under way never waits for a lock that nobody can give back. -/
theorem one_event_base_each (h : Runs.Reaches (fun s a => s.next getEventBaseById a)
    (fun _ _ => True) (init .empty) s) :
    (∀ call ∈ s.returned, ∃ eventBase, call.2.2 = some eventBase ∧
      (call.2.1, eventBase) ∈ s.shared.threads ∧
      (s.shared.threads.map Prod.snd).count eventBase = 1) ∧
    (∀ call ∈ s.returned, ∀ call' ∈ s.returned, call.2.2 = call'.2.2 ↔ call.2.1 = call'.2.1) ∧
    (∀ t t', (s.phase t).holds → (s.phase t').holds → t = t') ∧
    ∀ t, s.phase t ≠ .idle → ∃ t' a s',
      (a = .testAndSet t' ∧ s.flag = false ∨ a = .work t' ∨ a = .clear t') ∧
        s.next getEventBaseById a = some s' := by
  obtain ⟨hguarded, _⟩ := exists_serves h
  obtain ⟨r, hsound, hthreads, hreturned⟩ := exists_sound h
  rw [hthreads]
  refine ⟨fun call hcall => ?_, fun call hcall call' hcall' => ?_, hguarded.alone,
    fun t ht => hguarded.exists_turn ht⟩
  · obtain ⟨eventBase, heq, hin⟩ := hreturned call hcall
    exact ⟨eventBase, heq, hin,
      List.count_eq_one_of_mem hsound.bases_nodup (List.mem_map_of_mem hin)⟩
  · obtain ⟨eventBase, heq, hin⟩ := hreturned call hcall
    obtain ⟨eventBase', heq', hin'⟩ := hreturned call' hcall'
    rw [heq, heq', Option.some.injEq]
    exact hsound.thread_inj hin hin'

/-- Two threads ask for the same event base, and one of them finds the flag set at first. -/
def twoCallers : List (SpinLock.Action Bool ℕ) :=
  [.call true 2, .call false 2, .testAndSet true, .testAndSet false, .work true, .work true,
    .work true, .work true, .work true, .clear true, .testAndSet false, .work false, .work false,
    .clear false]

theorem one_event_base_each_twoCallers :
    ∃ s : State Bool (Registry ℕ) (Point ℕ) ℕ (Option ℕ),
      Runs.Reaches (fun s a => s.next getEventBaseById a) (fun _ _ => True) (init .empty) s ∧
        s.returned = [(true, 2, some 0), (false, 2, some 0)] ∧
        ∀ call ∈ s.returned, ∀ call' ∈ s.returned, call.2.2 = call'.2.2 ↔ call.2.1 = call'.2.1 := by
  have hrun := Runs.Reaches.follow twoCallers (.start : Runs.Reaches
    (fun (s : State Bool (Registry ℕ) (Point ℕ) ℕ (Option ℕ)) a => s.next getEventBaseById a)
    (fun _ _ => True) (init .empty) (init .empty)) rfl
  obtain ⟨_, hsame, _⟩ := one_event_base_each hrun
  exact ⟨_, hrun, rfl, hsame⟩

end Reachable

end OrderBookServer.EventBaseManager
