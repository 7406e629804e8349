import OrderBookServer.CachePool
import OrderBookServer.Runs

/-!
The pool as its callers see it, one whole call at a time. The slots from `head` on are the queue
of the free objects, and a call of `acquire` takes the one that has been free for the longest time.
-/
namespace OrderBookServer.PoolFifo

open Runs

/-- A pool and the objects that its callers hold. The last two fields only record which objects
were handed out and which were released, in order. -/
structure State (T : Type) where
  pool : PoolBuffer T
  held : List ℕ
  handed : List ℕ
  returned : List ℕ

inductive Call
  | acquire
  | release (item : ℕ)
deriving DecidableEq

def new {T : Type} (n : ℕ) (object : T) : State T := ⟨.new n object, [], [], []⟩

variable {T : Type} [Pooled T] {n : ℕ} {s s' : State T}

/-- A call; an `acquire` that throws leaves everything as it is. -/
def call (n : ℕ) (s : State T) : Call → State T
  | .acquire =>
    match s.pool.acquire n with
    | .ok (item, pool) =>
      { s with pool := pool, held := item :: s.held, handed := s.handed ++ [item] }
    | .error _ => s
  | .release item =>
    { s with
      pool := s.pool.release n item
      held := s.held.erase item
      returned := s.returned ++ [item] }

/-- Only an object that is held is released. -/
def Held (s : State T) : Call → Prop
  | .acquire => True
  | .release item => item ∈ s.held

instance (s : State T) (c : Call) : Decidable (Held s c) :=
  match c with
  | .acquire => .isTrue trivial
  | .release item => inferInstanceAs (Decidable (item ∈ s.held))

/-- The states that whole calls lead to. -/
abbrev Reached (n : ℕ) (object : T) (s : State T) : Prop :=
  Reaches (fun s c => some (call n s c)) Held (new n object) s

/-- The queue of the free objects, and how it stands to those that are held. -/
structure Ordered (n : ℕ) (s : State T) (avail : List ℕ) : Prop where
  serves : s.pool.Serves n avail
  all : (s.held ++ avail).Perm (List.range n)
  history : s.handed ++ avail = List.range n ++ s.returned

omit [Pooled T] in
theorem ordered_new (n : ℕ) (object : T) : Ordered n (new n object) (List.range n) where
  serves := PoolBuffer.serves_new n object
  all := List.Perm.refl _
  history := by simp [new]

omit [Pooled T] in
theorem Ordered.count {avail : List ℕ} (h : Ordered n s avail) :
    avail.length + s.held.length = n := by
  have hlength := h.all.length_eq
  rw [List.length_append, List.length_range] at hlength
  omega

theorem Ordered.acquire {avail : List ℕ} (h : Ordered n s avail) :
    ∃ avail', Ordered n (call n s .acquire) avail' := by
  cases hok : s.pool.acquire n with
  | error e =>
    refine ⟨avail, ?_⟩
    simpa only [call, hok] using h
  | ok r =>
    obtain ⟨item, pool⟩ := r
    obtain ⟨_, ⟨rest, rfl, hserves⟩, _⟩ := h.serves.acquire hok
    refine ⟨rest, ?_⟩
    simp only [call, hok]
    refine ⟨hserves, ?_, ?_⟩
    · exact List.perm_middle.symm.trans h.all
    · simpa using h.history

theorem Ordered.release {avail : List ℕ} {item : ℕ} (h : Ordered n s avail)
    (hitem : item ∈ s.held) : ∃ avail', Ordered n (call n s (.release item)) avail' := by
  have hpos := List.length_pos_of_mem hitem
  have hcount := h.count
  refine ⟨avail ++ [item], h.serves.release (by omega) item, ?_, ?_⟩
  · have hheld := (List.perm_cons_erase hitem).append_right avail
    have hback : (s.held.erase item ++ (avail ++ [item])).Perm
        (item :: s.held.erase item ++ avail) := by
      rw [← List.append_assoc]
      exact List.perm_append_singleton item _
    exact hback.trans (hheld.symm.trans h.all)
  · simp only [call]
    rw [← List.append_assoc, h.history, List.append_assoc]

/-- Some queue of free objects explains the state. -/
def Explained (n : ℕ) (s : State T) : Prop := ∃ avail, Ordered n s avail

theorem Reached.explained {object : T} (h : Reached n object s) : Explained n s := by
  refine Reaches.invariant ?_ (⟨_, ordered_new n object⟩ : Explained n (new n object)) h
  rintro s c s' ⟨avail, hs⟩ hheld ⟨⟩
  cases c with
  | acquire => exact hs.acquire
  | release item => exact hs.release hheld

/-- The objects in the slots from `head` on. -/
def free (n : ℕ) (s : State T) : List ℕ :=
  Ring.window n s.pool.availableItems s.pool.head s.pool.size

/-- The pool is a queue of the objects that nobody holds, with room for all of them. -/
structure Fifo (n : ℕ) (s : State T) : Prop where
  lists_free : ∀ o, o ∈ free n s ↔ o < n ∧ o ∉ s.held
  no_repetition : (free n s).Nodup
  count : s.pool.size + s.held.length = n
  tail_eq : s.pool.tail = (s.pool.head + s.pool.size) % n
  throws_iff : s.pool.acquire n = .error .noAvailableItems ↔ ∀ o, o < n → o ∈ s.held
  throws_still : s.pool.acquire n = .error .noAvailableItems → call n s .acquire = s
  /-- What was handed out and what is free is what was there and what was released, in order. -/
  in_order : s.handed ++ free n s = List.range n ++ s.returned

theorem acquire_error_iff :
    s.pool.acquire n = .error .noAvailableItems ↔ s.pool.size = 0 := by
  unfold PoolBuffer.acquire
  by_cases hsize : s.pool.size = 0
  · simp [hsize]
  · simp [hsize]

theorem Ordered.fifo {avail : List ℕ} (h : Ordered n s avail) : Fifo n s := by
  have hfree : free n s = avail := h.serves.holds.eq_window.symm
  have hsize : s.pool.size = avail.length := h.serves.holds.length.symm
  have hcount := h.count
  have hnodup := h.all.nodup_iff.mpr List.nodup_range
  obtain ⟨_, havail, hapart⟩ := List.nodup_append.mp hnodup
  have hmem : ∀ o, o ∈ s.held ∨ o ∈ avail ↔ o < n := by
    intro o
    rw [← List.mem_append, h.all.mem_iff, List.mem_range]
  have hlists : ∀ o, o ∈ avail ↔ o < n ∧ o ∉ s.held := by
    intro o
    constructor
    · intro ho
      exact ⟨(hmem o).mp (Or.inr ho), fun hheld => hapart o hheld o ho rfl⟩
    · rintro ⟨hlt, hheld⟩
      exact ((hmem o).mpr hlt).resolve_left hheld
  refine ⟨?_, ?_, by omega, ?_, ?_, ?_, ?_⟩
  · rwa [hfree]
  · rwa [hfree]
  · rw [← h.serves.tail_mod]
    exact h.serves.holds.tail_eq
  · rw [acquire_error_iff, hsize, List.length_eq_zero_iff]
    constructor
    · rintro rfl o hlt
      exact ((hmem o).mpr hlt).resolve_right (by simp)
    · intro hall
      apply List.eq_nil_iff_forall_not_mem.mpr
      intro o ho
      obtain ⟨hlt, hheld⟩ := (hlists o).mp ho
      exact hheld (hall o hlt)
  · intro he
    simp only [call, he]
  · rw [hfree]
    exact h.history

/-- Whole calls that release held objects only keep the pool a bounded queue. -/
theorem fifo_of_reached {object : T} (h : Reached n object s) : Fifo n s := by
  obtain ⟨avail, hs⟩ := h.explained
  exact hs.fifo

/-- Two objects are taken, a third call throws, and they come back in the other order. -/
def swapTwo : List Call := [.acquire, .acquire, .acquire, .release 1, .release 0, .acquire]

theorem fifo_of_reached_swapTwo :
    Fifo 2 (swapTwo.foldl (call 2) (new 2 ())) ∧
      (swapTwo.foldl (call 2) (new 2 ())).handed = [0, 1, 1] := by
  have hreached : Reached 2 () (swapTwo.foldl (call 2) (new 2 ())) :=
    Reaches.start.follow swapTwo rfl
  exact ⟨fifo_of_reached hreached, by decide⟩

end OrderBookServer.PoolFifo
