import OrderBookServer.SharedPool

/-!
An object of the pool has one owner at a time as long as the slots are used in turn. The objects
in the order in which they came into the pool are numbered: those that it begins with, and then
one for each call that moves the tail. The number is used up when the call of `acquire` with that
turn has read it.
-/
namespace OrderBookServer.SharedPool

variable {T : Type} {n t u x i j k : ℕ} {s s' : State T} {given : List ℕ}

namespace ThreadState

/-- The slot and the turn of a call of `acquire` that is about to read. -/
def reading : ThreadState → Option (ℕ × ℕ)
  | .readSlot i k => some (i, k)
  | _ => none

/-- The slot and the turn of a call of `release` that is about to write. -/
def writing : ThreadState → Option (ℕ × ℕ)
  | .writeSlot _ i j => some (i, j)
  | _ => none

/-- The object and the turn of a call of `release` that has moved the tail. -/
def releasing : ThreadState → Option (ℕ × ℕ)
  | .writeSlot x _ j => some (x, j)
  | .raiseSize x j => some (x, j)
  | .clear x j => some (x, j)
  | _ => none

/-- The object that a call has taken out of the pool or is about to put into it. -/
def inHand : ThreadState → Option ℕ
  | .lowerSize x => some x
  | .init x => some x
  | .moveTail x => some x
  | _ => none

/-- The pool does not tell two such states from each other. -/
structure Alike (x y : ThreadState) : Prop where
  reading : x.reading = y.reading
  writing : x.writing = y.writing
  releasing : x.releasing = y.releasing
  inHand : x.inHand = y.inHand

end ThreadState

/-- Who has an object: a call that is under way, or a thread between two calls. -/
inductive User
  | call (t : ℕ)
  | holder (t : ℕ)

namespace State

def Uses (s : State T) : User → ℕ → Prop
  | .call t, x => (s.thread t).inHand = some x
  | .holder t, x => x ∈ s.held t

/-- The slot of a number is about to be written. -/
def Writes (s : State T) (n p : ℕ) : Prop := ∃ t i j, (s.thread t).writing = some (i, j) ∧ p = n + j

end State

/-- What the turns say of the calls that are under way. -/
structure Turns (n : ℕ) (s : State T) (given : List ℕ) : Prop where
  length_eq : given.length = n + s.released
  head_eq : s.buffer.head = s.acquired % n
  tail_eq : s.buffer.tail = s.released % n
  read_lt : ∀ k ∈ s.read, k < s.acquired
  read_over : ∀ k ∈ s.read, k < n ∨ k - n ∈ s.ended
  over_lt : ∀ j ∈ s.ended, j < s.released
  reads : ∀ t i k, (s.thread t).reading = some (i, k) → i = k % n ∧ k < s.acquired ∧ k ∉ s.read
  readers : ∀ t u i i' k, (s.thread t).reading = some (i, k) → (s.thread u).reading = some (i', k) →
    t = u
  writes : ∀ t i j, (s.thread t).writing = some (i, j) → i = j % n
  releases : ∀ t x j, (s.thread t).releasing = some (x, j) → given[n + j]? = some x ∧ j ∉ s.ended
  releasers : ∀ t u x y j, (s.thread t).releasing = some (x, j) →
    (s.thread u).releasing = some (y, j) → t = u

/-- An object has one number that is not used up, or one user. -/
structure Owners (s : State T) (given : List ℕ) : Prop where
  pooled : ∀ p q x, p ∉ s.read → q ∉ s.read → given[p]? = some x → given[q]? = some x → p = q
  free : ∀ p x a, p ∉ s.read → given[p]? = some x → ¬ s.Uses a x
  alone : ∀ a b x, s.Uses a x → s.Uses b x → a = b
  nodup : ∀ t, (s.held t).Nodup

/-- The slots hold the objects whose numbers are not used up. -/
structure Slots (n : ℕ) (s : State T) (given : List ℕ) : Prop where
  holds : ∀ p x, p ∉ s.read → given[p]? = some x → ¬ s.Writes n p →
    s.buffer.availableItems (p % n) = x
  later : ∀ p q, p ∉ s.read → p < q → q < given.length → p % n = q % n → s.Writes n q

structure Inv (n : ℕ) (s : State T) (given : List ℕ) : Prop where
  turns : Turns n s given
  owners : Owners s given
  slots : Slots n s given

theorem inv_new (n : ℕ) (object : T) : Inv n (new n object) (List.range n) := by
  have hgiven : ∀ {p x : ℕ}, (List.range n)[p]? = some x → p < n ∧ p = x := by
    intro p x hx
    obtain ⟨hp, hx⟩ := List.getElem?_eq_some_iff.mp hx
    rw [List.getElem_range] at hx
    rw [List.length_range] at hp
    exact ⟨hp, hx⟩
  refine ⟨⟨List.length_range, (Nat.zero_mod n).symm, (Nat.zero_mod n).symm, ?_, ?_, ?_, ?_, ?_, ?_,
    ?_, ?_⟩, ⟨fun p q x _ _ hp hq => ?_, fun p x a _ _ ha => ?_, fun a b x ha => ?_,
    fun t => List.nodup_nil⟩, ⟨fun p x _ hx _ => ?_, fun p q _ hlt hq hmod => ?_⟩⟩
  · intro k hk
    cases hk
  · intro k hk
    cases hk
  · intro k hk
    cases hk
  · intro t i k ht
    cases ht
  · intro t u i i' k ht
    cases ht
  · intro t i j ht
    cases ht
  · intro t x j ht
    cases ht
  · intro t u x y j ht
    cases ht
  · exact (hgiven hp).2.trans (hgiven hq).2.symm
  · cases a with
    | call t => cases ha
    | holder t => cases ha
  · cases a with
    | call t => cases ha
    | holder t => cases ha
  · obtain ⟨hp, rfl⟩ := hgiven hx
    exact Nat.mod_eq_of_lt hp
  · rw [List.length_range] at hq
    rw [Nat.mod_eq_of_lt hq, Nat.mod_eq_of_lt (Nat.lt_trans hlt hq)] at hmod
    exact absurd hmod (Nat.ne_of_lt hlt)

section Steps

variable {α : Type} {state : ThreadState}

theorem State.thread_goOn_self (s : State T) (t : ℕ) (state : ThreadState) :
    (s.goOn t state).thread t = state :=
  Function.update_self _ _ _

theorem State.thread_goOn_of_ne (s : State T) (state : ThreadState) (hne : u ≠ t) :
    (s.goOn t state).thread u = s.thread u :=
  Function.update_of_ne hne _ _

/-- What a thread shows after a step is new, or another thread shows it as before. -/
theorem of_goOn (f : ThreadState → Option α) {y : α}
    (h : f ((s.goOn t state).thread u) = some y) :
    u = t ∧ f state = some y ∨ u ≠ t ∧ f (s.thread u) = some y := by
  by_cases hu : u = t
  · rw [hu, s.thread_goOn_self] at h
    exact Or.inl ⟨hu, h⟩
  · rw [s.thread_goOn_of_ne state hu] at h
    exact Or.inr ⟨hu, h⟩

/-- The thread shows nothing any more. -/
theorem of_goOn_none (f : ThreadState → Option α) {y : α} (hnone : f state = none)
    (h : f ((s.goOn t state).thread u) = some y) : u ≠ t ∧ f (s.thread u) = some y := by
  rcases of_goOn f h with ⟨_, hnew⟩ | hold
  · rw [hnone] at hnew
    cases hnew
  · exact hold

theorem same_goOn {β : Type} (f : ThreadState → β) (hsame : f state = f (s.thread t)) (u : ℕ) :
    f ((s.goOn t state).thread u) = f (s.thread u) := by
  by_cases hu : u = t
  · rw [hu, s.thread_goOn_self, hsame]
  · rw [s.thread_goOn_of_ne state hu]

/-- No call takes a turn or ends. -/
theorem Turns.congr (h : Turns n s given)
    (hhead : s'.buffer.head = s.buffer.head) (htail : s'.buffer.tail = s.buffer.tail)
    (hacquired : s'.acquired = s.acquired) (hreleased : s'.released = s.released)
    (hread : s'.read = s.read) (hover : s'.ended = s.ended)
    (hreading : ∀ u y, (s'.thread u).reading = some y → (s.thread u).reading = some y)
    (hwriting : ∀ u y, (s'.thread u).writing = some y → (s.thread u).writing = some y)
    (hreleasing : ∀ u y, (s'.thread u).releasing = some y → (s.thread u).releasing = some y) :
    Turns n s' given := by
  refine ⟨?_, ?_, ?_, ?_, ?_, ?_, fun u i k hu => ?_, fun u v i i' k hu hv => ?_,
    fun u i j hu => ?_, fun u x j hu => ?_, fun u v x y j hu hv => ?_⟩
  · rw [hreleased, h.length_eq]
  · rw [hhead, hacquired, h.head_eq]
  · rw [htail, hreleased, h.tail_eq]
  · rw [hread, hacquired]
    exact h.read_lt
  · rw [hread, hover]
    exact h.read_over
  · rw [hover, hreleased]
    exact h.over_lt
  · rw [hacquired, hread]
    exact h.reads u i k (hreading u _ hu)
  · exact h.readers u v i i' k (hreading u _ hu) (hreading v _ hv)
  · exact h.writes u i j (hwriting u _ hu)
  · rw [hover]
    exact h.releases u x j (hreleasing u _ hu)
  · exact h.releasers u v x y j (hreleasing u _ hu) (hreleasing v _ hv)

/-- No object gets a user. -/
theorem Owners.congr (h : Owners s given) (hread : s'.read = s.read) (hheld : s'.held = s.held)
    (hhand : ∀ u x, (s'.thread u).inHand = some x → (s.thread u).inHand = some x) :
    Owners s' given := by
  have huses : ∀ a x, s'.Uses a x → s.Uses a x := by
    intro a x ha
    cases a with
    | call u => exact hhand u x ha
    | holder u =>
      have hu : x ∈ s'.held u := ha
      rw [hheld] at hu
      exact hu
  refine ⟨?_, fun p x a hp hx ha => ?_, fun a b x ha hb => ?_, ?_⟩
  · rw [hread]
    exact h.pooled
  · rw [hread] at hp
    exact h.free p x a hp hx (huses a x ha)
  · exact h.alone a b x (huses a x ha) (huses b x hb)
  · rw [hheld]
    exact h.nodup

theorem Slots.congr (h : Slots n s given)
    (hslots : s'.buffer.availableItems = s.buffer.availableItems) (hread : s'.read = s.read)
    (hwriting : ∀ u, (s'.thread u).writing = (s.thread u).writing) : Slots n s' given := by
  have hwrites : ∀ p, s.Writes n p → s'.Writes n p := by
    intro p hp
    obtain ⟨u, i, j, hu, heq⟩ := hp
    exact ⟨u, i, j, by rw [hwriting, hu], heq⟩
  refine ⟨fun p x hp hx hw => ?_, fun p q hp hlt hq hmod => ?_⟩
  · rw [hread] at hp
    rw [hslots]
    exact h.holds p x hp hx fun hold => hw (hwrites p hold)
  · rw [hread] at hp
    exact hwrites q (h.later p q hp hlt hq hmod)

/-- A step that the pool does not notice. -/
theorem Inv.goOn (h : Inv n s given) (halike : state.Alike (s.thread t)) {data : ℕ → T}
    {size : ℤ} :
    Inv n { s.goOn t state with buffer := { s.buffer with data := data, size := size } }
      given := by
  have hreading := same_goOn ThreadState.reading halike.reading
  have hwriting := same_goOn ThreadState.writing halike.writing
  have hreleasing := same_goOn ThreadState.releasing halike.releasing
  have hhand := same_goOn ThreadState.inHand halike.inHand
  exact ⟨h.turns.congr rfl rfl rfl rfl rfl rfl (fun u _ hu => (hreading u).symm.trans hu)
      (fun u _ hu => (hwriting u).symm.trans hu) fun u _ hu => (hreleasing u).symm.trans hu,
    h.owners.congr rfl rfl fun u _ hu => (hhand u).symm.trans hu,
    h.slots.congr rfl rfl hwriting⟩

/-- A call of `acquire` takes its turn. -/
theorem Inv.moveHead (h : Inv n s given) (ht : s.thread t = .moveHead) :
    Inv n { s.goOn t (.readSlot s.buffer.head s.acquired) with
      buffer := { s.buffer with head := (s.buffer.head + 1) % n }
      acquired := s.acquired + 1 } given := by
  refine ⟨⟨h.turns.length_eq, ?_, h.turns.tail_eq, fun k hk => ?_, h.turns.read_over,
    h.turns.over_lt, fun u i k hu => ?_, fun u v i i' k hu hv => ?_, fun u i j hu => ?_,
    fun u x j hu => ?_, fun u v x y j hu hv => ?_⟩,
    h.owners.congr rfl rfl fun u _ hu => (of_goOn_none ThreadState.inHand rfl hu).2,
    h.slots.congr rfl rfl (same_goOn ThreadState.writing (by rw [ht]; rfl))⟩
  · show (s.buffer.head + 1) % n = (s.acquired + 1) % n
    rw [h.turns.head_eq, Nat.mod_add_mod]
  · exact Nat.lt_succ_of_lt (h.turns.read_lt k hk)
  · rcases of_goOn ThreadState.reading hu with ⟨_, hnew⟩ | ⟨_, hold⟩
    · cases hnew
      exact ⟨h.turns.head_eq, Nat.lt_succ_self _,
        fun hmem => Nat.lt_irrefl _ (h.turns.read_lt _ hmem)⟩
    · obtain ⟨hi, hk, hmem⟩ := h.turns.reads u i k hold
      exact ⟨hi, Nat.lt_succ_of_lt hk, hmem⟩
  · have hother : ∀ {w l : ℕ}, (s.thread w).reading = some (l, s.acquired) → False :=
      fun hw => Nat.lt_irrefl _ (h.turns.reads _ _ _ hw).2.1
    rcases of_goOn ThreadState.reading hu with ⟨rfl, hnew⟩ | ⟨_, hold⟩
    · cases hnew
      rcases of_goOn ThreadState.reading hv with ⟨rfl, _⟩ | ⟨_, hold⟩
      · rfl
      · exact (hother hold).elim
    · rcases of_goOn ThreadState.reading hv with ⟨_, hnew⟩ | ⟨_, hold'⟩
      · cases hnew
        exact (hother hold).elim
      · exact h.turns.readers u v i i' k hold hold'
  · exact h.turns.writes u i j (of_goOn_none ThreadState.writing rfl hu).2
  · exact h.turns.releases u x j (of_goOn_none ThreadState.releasing rfl hu).2
  · exact h.turns.releasers u v x y j (of_goOn_none ThreadState.releasing rfl hu).2
      (of_goOn_none ThreadState.releasing rfl hv).2

/-- A user of an object is a new one, or was a user before. -/
theorem uses_goOn (held : ℕ → List ℕ) {a : User} {y : ℕ}
    (ha : State.Uses { s.goOn t state with held := held } a y) :
    a = .call t ∧ state.inHand = some y ∨
      (∃ u, u ≠ t ∧ a = .call u ∧ s.Uses a y) ∨ ∃ u, a = .holder u ∧ y ∈ held u := by
  cases a with
  | call u =>
    rcases of_goOn ThreadState.inHand ha with ⟨rfl, hnew⟩ | ⟨hu, hold⟩
    · exact Or.inl ⟨rfl, hnew⟩
    · exact Or.inr (Or.inl ⟨u, hu, rfl, hold⟩)
  | holder u => exact Or.inr (Or.inr ⟨u, rfl, ha⟩)

/-- A thread that neither writes nor goes to write makes no difference to the others. -/
theorem writes_goOn (hold : (s.thread t).writing = none) {p : ℕ} (hp : s.Writes n p) :
    (s.goOn t state).Writes n p := by
  obtain ⟨u, i, j, hu, heq⟩ := hp
  refine ⟨u, i, j, ?_, heq⟩
  rw [s.thread_goOn_of_ne _ fun hut => by rw [hut, hold] at hu; cases hu]
  exact hu

/-- The number that a call reads in its turn has its object in the slot. -/
theorem Inv.reads_given (h : Inv n s given)
    (ht : (s.thread t).reading = some (i, k)) (hturn : k < n ∨ k - n ∈ s.ended) :
    given[k]? = some (s.buffer.availableItems i) := by
  obtain ⟨hi, _, hunread⟩ := h.turns.reads t i k ht
  have hlt : k < given.length := by
    rw [h.turns.length_eq]
    rcases hturn with hlt | hover
    · omega
    · have hreleased := h.turns.over_lt _ hover
      omega
  have hx : given[k]? = some given[k] := List.getElem?_eq_getElem hlt
  have hwritten : ¬ s.Writes n k := by
    rintro ⟨u, i', j, hu, rfl⟩
    have hpending : ∃ y, (s.thread u).releasing = some (y, j) := by
      cases hstate : s.thread u with
      | writeSlot y i'' j' =>
        rw [hstate] at hu
        cases hu
        exact ⟨y, rfl⟩
      | _ =>
        rw [hstate] at hu
        cases hu
    obtain ⟨y, hy⟩ := hpending
    have hover := (h.turns.releases u y j hy).2
    rcases hturn with hlt | hmem
    · omega
    · rw [Nat.add_sub_cancel_left] at hmem
      exact hover hmem
  rw [hx, hi, h.slots.holds k _ hunread hx hwritten]

/-- A call of `acquire` reads its slot. -/
theorem Inv.readSlot (h : Inv n s given) (ht : s.thread t = .readSlot i k)
    (hturn : k < n ∨ k - n ∈ s.ended) :
    Inv n { s.goOn t (.lowerSize (s.buffer.availableItems i)) with read := s.read ++ [k] }
      given := by
  have hreading : (s.thread t).reading = some (i, k) := by rw [ht]; rfl
  obtain ⟨_, hlt, hunread⟩ := h.turns.reads t i k hreading
  have hgiven := h.reads_given hreading hturn
  have hnot : ∀ {p}, p ∉ s.read ++ [k] → p ∉ s.read ∧ p ≠ k := by
    intro p hp
    rw [List.mem_append, List.mem_singleton, not_or] at hp
    exact hp
  have huses : ∀ {a y}, State.Uses { s.goOn t (.lowerSize (s.buffer.availableItems i)) with
      read := s.read ++ [k] } a y →
      a = .call t ∧ y = s.buffer.availableItems i ∨ s.Uses a y := by
    intro a y ha
    rcases uses_goOn s.held ha with ⟨rfl, hnew⟩ | ⟨u, _, rfl, hold⟩ | ⟨u, rfl, hold⟩
    · cases hnew
      exact Or.inl ⟨rfl, rfl⟩
    · exact Or.inr hold
    · exact Or.inr hold
  have hwriting : (s.thread t).writing = none := by rw [ht]; rfl
  refine ⟨⟨h.turns.length_eq, h.turns.head_eq, h.turns.tail_eq, fun l hl => ?_, fun l hl => ?_,
    h.turns.over_lt, fun u i' l hu => ?_, fun u v i₁ i₂ l hu hv => ?_, fun u i' j hu => ?_,
    fun u x j hu => ?_, fun u v x y j hu hv => ?_⟩,
    ⟨fun p q x hp hq => h.owners.pooled p q x (hnot hp).1 (hnot hq).1, fun p y a hp hy ha => ?_,
      fun a b y ha hb => ?_, h.owners.nodup⟩,
    ⟨fun p x hp hx hw =>
      h.slots.holds p x (hnot hp).1 hx fun hold => hw (writes_goOn hwriting hold),
      fun p q hp hpq hq hmod => writes_goOn hwriting (h.slots.later p q (hnot hp).1 hpq hq hmod)⟩⟩
  · rcases List.mem_append.mp hl with hold | hnew
    · exact h.turns.read_lt l hold
    · rw [List.mem_singleton.mp hnew]
      exact hlt
  · rcases List.mem_append.mp hl with hold | hnew
    · exact h.turns.read_over l hold
    · rw [List.mem_singleton.mp hnew]
      exact hturn
  · obtain ⟨hne, hold⟩ := of_goOn_none ThreadState.reading rfl hu
    obtain ⟨hi, hl, hmem⟩ := h.turns.reads u i' l hold
    refine ⟨hi, hl, fun hin => ?_⟩
    rcases List.mem_append.mp hin with hin | hin
    · exact hmem hin
    · rw [List.mem_singleton.mp hin] at hold
      exact hne (h.turns.readers u t i' i k hold hreading)
  · exact h.turns.readers u v i₁ i₂ l (of_goOn_none ThreadState.reading rfl hu).2
      (of_goOn_none ThreadState.reading rfl hv).2
  · exact h.turns.writes u i' j (of_goOn_none ThreadState.writing rfl hu).2
  · exact h.turns.releases u x j (of_goOn_none ThreadState.releasing rfl hu).2
  · exact h.turns.releasers u v x y j (of_goOn_none ThreadState.releasing rfl hu).2
      (of_goOn_none ThreadState.releasing rfl hv).2
  · rcases huses ha with ⟨_, rfl⟩ | hold
    · exact (hnot hp).2 (h.owners.pooled p k _ (hnot hp).1 hunread hy hgiven)
    · exact h.owners.free p y a (hnot hp).1 hy hold
  · rcases huses ha with ⟨rfl, rfl⟩ | hold
    · rcases huses hb with ⟨rfl, _⟩ | hold'
      · rfl
      · exact (h.owners.free k _ b hunread hgiven hold').elim
    · rcases huses hb with ⟨rfl, rfl⟩ | hold'
      · exact (h.owners.free k _ a hunread hgiven hold).elim
      · exact h.owners.alone a b y hold hold'

/-- An object goes from one user to another. -/
theorem Owners.handOver (h : Owners s given) {a₀ : User} (a₁ : User) (hx : s.Uses a₀ x)
    (hread : s'.read = s.read)
    (huses : ∀ a y, s'.Uses a y → a = a₁ ∧ y = x ∨ s.Uses a y ∧ ¬ (a = a₀ ∧ y = x))
    (hnodup : ∀ u, (s'.held u).Nodup) : Owners s' given := by
  refine ⟨?_, fun p y a hp hy ha => ?_, fun a b y ha hb => ?_, hnodup⟩
  · rw [hread]
    exact h.pooled
  · rw [hread] at hp
    rcases huses a y ha with ⟨_, rfl⟩ | ⟨hold, _⟩
    · exact h.free p y a₀ hp hy hx
    · exact h.free p y a hp hy hold
  · rcases huses a y ha with ⟨rfl, rfl⟩ | ⟨hold, hne⟩
    · rcases huses b y hb with ⟨rfl, _⟩ | ⟨hold, hne⟩
      · rfl
      · exact (hne ⟨h.alone b a₀ y hold hx, rfl⟩).elim
    · rcases huses b y hb with ⟨rfl, rfl⟩ | ⟨hold', _⟩
      · exact (hne ⟨h.alone a a₀ y hold hx, rfl⟩).elim
      · exact h.alone a b y hold hold'

/-- The call of `acquire` returns. -/
theorem Inv.init (h : Inv n s given) (ht : s.thread t = .init x) {data : ℕ → T} :
    Inv n { s.goOn t .idle with
      buffer := { s.buffer with data := data }
      held := Function.update s.held t (s.held t ++ [x]) } given := by
  have hx : s.Uses (.call t) x := by
    show (s.thread t).inHand = some x
    rw [ht]
    rfl
  have hfree : x ∉ s.held t := fun hmem => by
    have hsame := h.owners.alone (.holder t) (.call t) x hmem hx
    cases hsame
  refine ⟨h.turns.congr rfl rfl rfl rfl rfl rfl ?_ ?_ ?_,
    h.owners.handOver (.holder t) hx rfl (fun a y ha => ?_) (fun u => ?_),
    h.slots.congr rfl rfl ?_⟩
  · exact fun u _ hu => (of_goOn_none ThreadState.reading rfl hu).2
  · exact fun u _ hu => (of_goOn_none ThreadState.writing rfl hu).2
  · exact fun u _ hu => (of_goOn_none ThreadState.releasing rfl hu).2
  · rcases uses_goOn _ ha with ⟨_, hnew⟩ | ⟨u, hu, rfl, hold⟩ | ⟨u, rfl, hold⟩
    · cases hnew
    · exact Or.inr ⟨hold, fun ⟨heq, _⟩ => hu (by cases heq; rfl)⟩
    · by_cases hu : u = t
      · rw [hu, Function.update_self] at hold
        rcases List.mem_append.mp hold with hold | hnew
        · exact Or.inr ⟨by rw [hu]; exact hold, fun ⟨heq, _⟩ => by cases heq⟩
        · exact Or.inl ⟨by rw [hu], List.mem_singleton.mp hnew⟩
      · rw [Function.update_of_ne hu] at hold
        exact Or.inr ⟨hold, fun ⟨heq, _⟩ => by cases heq⟩
  · show (Function.update s.held t (s.held t ++ [x]) u).Nodup
    by_cases hu : u = t
    · rw [hu, Function.update_self]
      exact List.nodup_append.mpr ⟨h.owners.nodup t, by simp,
        fun y hy z hz heq => hfree (by rw [← List.mem_singleton.mp hz, ← heq]; exact hy)⟩
    · rw [Function.update_of_ne hu]
      exact h.owners.nodup u
  · exact same_goOn ThreadState.writing (by rw [ht]; rfl)

/-- A thread calls `release` with an object that it holds. -/
theorem Inv.giveBack (h : Inv n s given) (ht : s.thread t = .idle) (hheld : x ∈ s.held t) :
    Inv n { s.goOn t (.moveTail x) with
      held := Function.update s.held t ((s.held t).erase x) } given := by
  have hx : s.Uses (.holder t) x := hheld
  refine ⟨h.turns.congr rfl rfl rfl rfl rfl rfl ?_ ?_ ?_,
    h.owners.handOver (.call t) hx rfl (fun a y ha => ?_) (fun u => ?_),
    h.slots.congr rfl rfl ?_⟩
  · exact fun u _ hu => (of_goOn_none ThreadState.reading rfl hu).2
  · exact fun u _ hu => (of_goOn_none ThreadState.writing rfl hu).2
  · exact fun u _ hu => (of_goOn_none ThreadState.releasing rfl hu).2
  · rcases uses_goOn _ ha with ⟨rfl, hnew⟩ | ⟨u, hu, rfl, hold⟩ | ⟨u, rfl, hold⟩
    · cases hnew
      exact Or.inl ⟨rfl, rfl⟩
    · exact Or.inr ⟨hold, fun ⟨heq, _⟩ => by cases heq⟩
    · by_cases hu : u = t
      · rw [hu, Function.update_self] at hold
        obtain ⟨hne, hold⟩ := (h.owners.nodup t).mem_erase_iff.mp hold
        exact Or.inr ⟨by rw [hu]; exact hold, fun ⟨_, heq⟩ => hne heq⟩
      · rw [Function.update_of_ne hu] at hold
        exact Or.inr ⟨hold, fun ⟨heq, _⟩ => hu (by cases heq; rfl)⟩
  · show (Function.update s.held t ((s.held t).erase x) u).Nodup
    by_cases hu : u = t
    · rw [hu, Function.update_self]
      exact (h.owners.nodup t).erase x
    · rw [Function.update_of_ne hu]
      exact h.owners.nodup u
  · exact same_goOn ThreadState.writing (by rw [ht]; rfl)

/-- The call of `release` that takes the next turn. -/
theorem Inv.moveTail (h : Inv n s given) (ht : s.thread t = .moveTail x) :
    Inv n { s.goOn t (.writeSlot x s.buffer.tail s.released) with
      buffer := { s.buffer with tail := (s.buffer.tail + 1) % n }
      released := s.released + 1 } (given ++ [x]) := by
  have hx : s.Uses (.call t) x := by
    show (s.thread t).inHand = some x
    rw [ht]
    rfl
  have hlength := h.turns.length_eq
  have hlast : n + s.released ∉ s.read := by
    intro hmem
    rcases h.turns.read_over _ hmem with hlt | hover
    · omega
    · have hlt := h.turns.over_lt _ hover
      omega
  have hgiven : ∀ {p y}, (given ++ [x])[p]? = some y →
      given[p]? = some y ∨ p = n + s.released ∧ y = x := by
    intro p y hy
    rcases Nat.lt_trichotomy p given.length with hlt | heq | hgt
    · rw [List.getElem?_append_left hlt] at hy
      exact Or.inl hy
    · rw [heq, List.getElem?_append_right (Nat.le_refl _), Nat.sub_self] at hy
      cases hy
      exact Or.inr ⟨heq.trans hlength, rfl⟩
    · rw [List.getElem?_eq_none (by rw [List.length_append, List.length_singleton]; omega)] at hy
      cases hy
  have huses : ∀ {a y}, (s.goOn t (.writeSlot x s.buffer.tail s.released)).Uses a y →
      s.Uses a y ∧ y ≠ x := by
    intro a y ha
    have hold : s.Uses a y ∧ a ≠ .call t := by
      rcases uses_goOn s.held ha with ⟨_, hnew⟩ | ⟨u, hu, rfl, hold⟩ | ⟨u, rfl, hold⟩
      · cases hnew
      · exact ⟨hold, fun heq => hu (by cases heq; rfl)⟩
      · exact ⟨hold, fun heq => by cases heq⟩
    refine ⟨hold.1, fun heq => hold.2 ?_⟩
    subst heq
    exact h.owners.alone a (.call t) y hold.1 hx
  have hwriting : (s.thread t).writing = none := by rw [ht]; rfl
  have hnew : (s.goOn t (.writeSlot x s.buffer.tail s.released)).Writes n (n + s.released) :=
    ⟨t, s.buffer.tail, s.released, by rw [s.thread_goOn_self]; rfl, rfl⟩
  refine ⟨⟨?_, h.turns.head_eq, ?_, h.turns.read_lt, h.turns.read_over,
    fun j hj => Nat.lt_succ_of_lt (h.turns.over_lt j hj), fun u i k hu => ?_,
    fun u v i i' k hu hv => ?_, fun u i j hu => ?_, fun u y j hu => ?_,
    fun u v y z j hu hv => ?_⟩,
    ⟨fun p q y hp hq hy hy' => ?_, fun p y a hp hy ha => ?_,
      fun a b y ha hb => h.owners.alone a b y (huses ha).1 (huses hb).1, h.owners.nodup⟩,
    ⟨fun p y hp hy hw => ?_, fun p q hp hlt hq hmod => ?_⟩⟩
  · show (given ++ [x]).length = n + (s.released + 1)
    rw [List.length_append, List.length_singleton, hlength, Nat.add_assoc]
  · show (s.buffer.tail + 1) % n = (s.released + 1) % n
    rw [h.turns.tail_eq, Nat.mod_add_mod]
  · exact h.turns.reads u i k (of_goOn_none ThreadState.reading rfl hu).2
  · exact h.turns.readers u v i i' k (of_goOn_none ThreadState.reading rfl hu).2
      (of_goOn_none ThreadState.reading rfl hv).2
  · rcases of_goOn ThreadState.writing hu with ⟨_, hw⟩ | ⟨_, hold⟩
    · cases hw
      exact h.turns.tail_eq
    · exact h.turns.writes u i j hold
  · rcases of_goOn ThreadState.releasing hu with ⟨_, hw⟩ | ⟨_, hold⟩
    · cases hw
      refine ⟨?_, fun hmem => Nat.lt_irrefl _ (h.turns.over_lt _ hmem)⟩
      rw [← hlength, List.getElem?_append_right (Nat.le_refl _), Nat.sub_self]
      rfl
    · obtain ⟨hy, hover⟩ := h.turns.releases u y j hold
      refine ⟨?_, hover⟩
      rw [List.getElem?_append_left (List.getElem?_eq_some_iff.mp hy).1]
      exact hy
  · have hother : ∀ {w z}, (s.thread w).releasing = some (z, s.released) → False := by
      intro w z hw
      have hlt := (List.getElem?_eq_some_iff.mp (h.turns.releases w z _ hw).1).1
      omega
    rcases of_goOn ThreadState.releasing hu with ⟨rfl, hw⟩ | ⟨_, hold⟩
    · cases hw
      rcases of_goOn ThreadState.releasing hv with ⟨rfl, _⟩ | ⟨_, hold⟩
      · rfl
      · exact (hother hold).elim
    · rcases of_goOn ThreadState.releasing hv with ⟨_, hw⟩ | ⟨_, hold'⟩
      · cases hw
        exact (hother hold).elim
      · exact h.turns.releasers u v y z j hold hold'
  · rcases hgiven hy with hold | ⟨rfl, rfl⟩
    · rcases hgiven hy' with hold' | ⟨rfl, rfl⟩
      · exact h.owners.pooled p q y hp hq hold hold'
      · exact (h.owners.free p y _ hp hold hx).elim
    · rcases hgiven hy' with hold' | ⟨rfl, _⟩
      · exact (h.owners.free q y _ hq hold' hx).elim
      · rfl
  · rcases hgiven hy with hold | ⟨_, rfl⟩
    · exact h.owners.free p y a hp hold (huses ha).1
    · exact (huses ha).2 rfl
  · rcases hgiven hy with hold | ⟨rfl, _⟩
    · exact h.slots.holds p y hp hold fun hold => hw (writes_goOn hwriting hold)
    · exact (hw hnew).elim
  · rw [List.length_append, List.length_singleton] at hq
    by_cases hend : q = n + s.released
    · rw [hend]
      exact hnew
    · exact writes_goOn hwriting (h.slots.later p q hp hlt (by omega) hmod)

/-- A call of `release` that has not ended keeps its number from being read. -/
theorem Turns.unread_of_releasing (h : Turns n s given)
    (ht : (s.thread t).releasing = some (x, j)) : n + j ∉ s.read := by
  intro hmem
  have hover := (h.releases t x j ht).2
  rcases h.read_over _ hmem with hlt | hmem
  · omega
  · rw [Nat.add_sub_cancel_left] at hmem
    exact hover hmem

theorem ThreadState.releasing_of_writing {state : ThreadState} (h : state.writing = some (i, j)) :
    ∃ x, state = .writeSlot x i j := by
  cases state with
  | writeSlot x i' j' =>
    cases h
    exact ⟨x, rfl⟩
  | _ => cases h

/-- A number whose slot is about to be written is not read. -/
theorem Turns.unread_of_writes (h : Turns n s given) {p : ℕ} (hp : s.Writes n p) :
    p ∉ s.read := by
  obtain ⟨u, i, j, hu, rfl⟩ := hp
  obtain ⟨x, hstate⟩ := ThreadState.releasing_of_writing hu
  exact h.unread_of_releasing (by rw [hstate]; rfl)

/-- A call of `release` writes its slot. -/
theorem Inv.writeSlot (h : Inv n s given) (ht : s.thread t = .writeSlot x i j)
    (hturn : j ∈ s.read) :
    Inv n { s.goOn t (.raiseSize x j) with
      buffer := { s.buffer with
        availableItems := Function.update s.buffer.availableItems i x } } given := by
  have hreleasing : (s.thread t).releasing = some (x, j) := by rw [ht]; rfl
  have hwriting : (s.thread t).writing = some (i, j) := by rw [ht]; rfl
  have hi := h.turns.writes t i j hwriting
  have hx := (h.turns.releases t x j hreleasing).1
  have hunread := h.turns.unread_of_releasing hreleasing
  have hlt := (List.getElem?_eq_some_iff.mp hx).1
  have hround : (n + j) % n = j % n := Nat.add_mod_left n j
  have hnone : (ThreadState.raiseSize x j).writing = none := rfl
  -- No number before this one is left for the slot, since the one of turn `j` has been read.
  have hbefore : ∀ p, p ∉ s.read → p < n + j → p % n ≠ j % n := by
    intro p hp hpj hmod
    have hle : p ≤ j := by
      by_contra hgt
      have hsame := Ring.mod_inj (by omega) (by omega) hmod.symm
      omega
    have hne : p ≠ j := fun heq => hp (heq ▸ hturn)
    exact h.turns.unread_of_writes (h.slots.later p j hp (by omega) (by omega) hmod) hturn
  have hwrites : ∀ p, s.Writes n p → p ≠ n + j → (s.goOn t (.raiseSize x j)).Writes n p := by
    intro p hp hne
    obtain ⟨u, i', j', hu, rfl⟩ := hp
    refine ⟨u, i', j', ?_, rfl⟩
    rw [s.thread_goOn_of_ne _ fun hut => by rw [hut, hwriting] at hu; cases hu; exact hne rfl]
    exact hu
  refine ⟨h.turns.congr rfl rfl rfl rfl rfl rfl
      (fun u _ hu => (of_goOn_none ThreadState.reading rfl hu).2)
      (fun u _ hu => (of_goOn_none ThreadState.writing rfl hu).2) (fun u _ hu => ?_),
    h.owners.congr rfl rfl fun u _ hu => (of_goOn_none ThreadState.inHand rfl hu).2,
    ⟨fun p y hp hy hw => ?_, fun p q hp hpq hq hmod => ?_⟩⟩
  · exact (same_goOn ThreadState.releasing (by rw [ht]; rfl) u).symm.trans hu
  · show Function.update s.buffer.availableItems i x (p % n) = y
    by_cases hp' : p = n + j
    · rw [hp', hround, hi, Function.update_self]
      rw [hp', hx] at hy
      exact Option.some.inj hy
    · have hslot : p % n ≠ i := by
        rw [hi]
        rcases Nat.lt_or_gt_of_ne hp' with hlt' | hgt
        · exact hbefore p hp hlt'
        · intro hmod
          have hlen := (List.getElem?_eq_some_iff.mp hy).1
          have hlater := h.slots.later (n + j) p hunread hgt hlen (hround.trans hmod.symm)
          exact hw (hwrites p hlater hp')
      rw [Function.update_of_ne hslot]
      exact h.slots.holds p y hp hy fun hold => hw (hwrites p hold hp')
  · refine hwrites q (h.slots.later p q hp hpq hq hmod) fun heq => ?_
    rw [heq] at hpq hmod
    exact hbefore p hp hpq (hmod.trans hround)

/-- A call of `release` is over. -/
theorem Inv.clear (h : Inv n s given) (ht : s.thread t = .clear x j) {data : ℕ → T} :
    Inv n { s.goOn t .idle with
      buffer := { s.buffer with data := data }
      ended := s.ended ++ [j] } given := by
  have hreleasing : (s.thread t).releasing = some (x, j) := by rw [ht]; rfl
  have hlt := (List.getElem?_eq_some_iff.mp (h.turns.releases t x j hreleasing).1).1
  have hlength := h.turns.length_eq
  have hover : ∀ {l}, l ∈ s.ended ++ [j] → l ∈ s.ended ∨ l = j := by
    intro l hl
    rcases List.mem_append.mp hl with hold | hnew
    · exact Or.inl hold
    · exact Or.inr (List.mem_singleton.mp hnew)
  refine ⟨⟨hlength, h.turns.head_eq, h.turns.tail_eq, h.turns.read_lt, fun k hk => ?_,
    fun l hl => ?_, fun u i k hu => ?_, fun u v i i' k hu hv => ?_, fun u i j hu => ?_,
    fun u y l hu => ?_, fun u v y z l hu hv => ?_⟩,
    h.owners.congr rfl rfl fun u _ hu => (of_goOn_none ThreadState.inHand rfl hu).2,
    h.slots.congr rfl rfl (same_goOn ThreadState.writing (by rw [ht]; rfl))⟩
  · rcases h.turns.read_over k hk with hlt | hmem
    · exact Or.inl hlt
    · exact Or.inr (List.mem_append_left _ hmem)
  · rcases hover hl with hold | rfl
    · exact h.turns.over_lt l hold
    · show l < s.released
      omega
  · exact h.turns.reads u i k (of_goOn_none ThreadState.reading rfl hu).2
  · exact h.turns.readers u v i i' k (of_goOn_none ThreadState.reading rfl hu).2
      (of_goOn_none ThreadState.reading rfl hv).2
  · exact h.turns.writes u i j (of_goOn_none ThreadState.writing rfl hu).2
  · obtain ⟨hne, hold⟩ := of_goOn_none ThreadState.releasing rfl hu
    obtain ⟨hy, hmem⟩ := h.turns.releases u y l hold
    refine ⟨hy, fun hin => ?_⟩
    rcases hover hin with hin | rfl
    · exact hmem hin
    · exact hne (h.turns.releasers u t y x l hold hreleasing)
  · exact h.turns.releasers u v y z l (of_goOn_none ThreadState.releasing rfl hu).2
      (of_goOn_none ThreadState.releasing rfl hv).2

end Steps

section Exclusion

variable [Pooled T]

/-- What a step preserves. -/
theorem Inv.move (h : Inv n s given) (hmove : Move n s s') : ∃ given', Inv n s' given' := by
  cases hmove with
  | call ht => exact ⟨given, h.goOn (by rw [ht]; exact ⟨rfl, rfl, rfl, rfl⟩)⟩
  | refuse ht => exact ⟨given, h.goOn (by rw [ht]; exact ⟨rfl, rfl, rfl, rfl⟩)⟩
  | pass ht => exact ⟨given, h.goOn (by rw [ht]; exact ⟨rfl, rfl, rfl, rfl⟩)⟩
  | moveHead ht => exact ⟨given, h.moveHead ht⟩
  | readSlot ht hturn => exact ⟨given, h.readSlot ht hturn⟩
  | lowerSize ht => exact ⟨given, h.goOn (by rw [ht]; exact ⟨rfl, rfl, rfl, rfl⟩)⟩
  | init ht => exact ⟨given, h.init ht⟩
  | giveBack ht hheld => exact ⟨given, h.giveBack ht hheld⟩
  | moveTail ht => exact ⟨_, h.moveTail ht⟩
  | writeSlot ht hturn => exact ⟨given, h.writeSlot ht hturn⟩
  | raiseSize ht => exact ⟨given, h.goOn (by rw [ht]; exact ⟨rfl, rfl, rfl, rfl⟩)⟩
  | clear ht => exact ⟨given, h.clear ht⟩

/-- An object that was returned to a thread is not returned to another one nor once more, and no
call of `clear` on it is left over. -/
structure Exclusive (s : State T) : Prop where
  alone : ∀ t u x, x ∈ s.held t → x ∈ s.held u → t = u
  once : ∀ t, (s.held t).Nodup
  cleared : ∀ t u x j, s.thread t = .clear x j → x ∉ s.held u

omit [Pooled T] in
theorem Inv.exclusive (h : Inv n s given) : Exclusive s := by
  refine ⟨fun t u x ht hu => ?_, h.owners.nodup, fun t u x j ht hu => ?_⟩
  · have hsame := h.owners.alone (.holder t) (.holder u) x ht hu
    cases hsame
    rfl
  · have hreleasing : (s.thread t).releasing = some (x, j) := by rw [ht]; rfl
    exact h.owners.free (n + j) x (.holder u) (h.turns.unread_of_releasing hreleasing)
      (h.turns.releases t x j hreleasing).1 hu

/-- Neither `init` nor `clear` changes an object that a thread holds. -/
theorem Inv.data_eq (h : Inv n s given) (hmove : Move n s s') (hx : x ∈ s.held t) :
    s'.buffer.data x = s.buffer.data x := by
  cases hmove with
  | call ht => rfl
  | refuse ht => rfl
  | pass ht => rfl
  | moveHead ht => rfl
  | readSlot ht hturn => rfl
  | lowerSize ht => rfl
  | giveBack ht hheld => rfl
  | moveTail ht => rfl
  | writeSlot ht hturn => rfl
  | raiseSize ht => rfl
  | @init u y hu =>
    have hne : x ≠ y := by
      intro heq
      have huses : s.Uses (.call u) x := by
        show (s.thread u).inHand = some x
        rw [hu, heq]
        rfl
      have hsame := h.owners.alone (.holder t) (.call u) x hx huses
      cases hsame
    exact Function.update_of_ne hne _ _
  | @clear u y j hu =>
    have hne : x ≠ y := fun heq => h.exclusive.cleared u t y j hu (heq ▸ hx)
    exact Function.update_of_ne hne _ _

/-- As long as the slots are used in turn an object has one owner, and no step of another thread
changes it. -/
theorem exclusive_of_inTurn {object : T}
    (h : Runs.Reaches (fun s a => s.step n a) (fun s a => s.InTurn n a) (new n object) s) :
    Exclusive s ∧ ∀ a s', s.InTurn n a → s.step n a = some s' →
      ∀ t x, x ∈ s.held t → s'.buffer.data x = s.buffer.data x := by
  have hstep : ∀ (s : State T) a s', (∃ given, Inv n s given) → s.InTurn n a →
      s.step n a = some s' → ∃ given, Inv n s' given := by
    intro s a s' hs hturn hstep
    obtain ⟨given, hinv⟩ := hs
    exact hinv.move (move_of_step hturn hstep)
  obtain ⟨given, hinv⟩ := h.invariant hstep ⟨_, inv_new n object⟩
  exact ⟨hinv.exclusive, fun a s' hturn hstep t x hx =>
    hinv.data_eq (move_of_step hturn hstep) hx⟩

/-- The object of a pool of one, once it has been given back. -/
theorem exclusive_of_inTurn_reused : ∃ s : State Unit,
    Runs.Reaches (fun s a => s.step 1 a) (fun s a => s.InTurn 1 a) (new 1 ()) s ∧
      s.held 0 = [] ∧ s.held 1 = [0] ∧ Exclusive s := by
  have hrun := Runs.Reaches.follow [.acquire 0, .go 0, .go 0, .go 0, .go 0, .go 0, .release 0 0,
    .go 0, .go 0, .go 0, .go 0, .acquire 1, .go 1, .go 1, .go 1, .go 1, .go 1]
    (.start : Runs.Reaches (fun s a => s.step 1 a) (fun s a => s.InTurn 1 a)
      (new 1 () : State Unit) (new 1 ())) rfl
  exact ⟨_, hrun, rfl, rfl, (exclusive_of_inTurn hrun).1⟩

/-- An object is back in the pool and has another owner before `clear` has run on it. -/
theorem not_exclusive_cleared : ¬ ∀ s : State Unit,
    Runs.Reaches (fun s a => s.step 1 a) (fun _ _ => True) (new 1 ()) s → Exclusive s := by
  intro hall
  have hrun := Runs.Reaches.follow [.acquire 0, .go 0, .go 0, .go 0, .go 0, .go 0, .release 0 0,
    .go 0, .go 0, .go 0, .acquire 1, .go 1, .go 1, .go 1, .go 1, .go 1]
    (.start : Runs.Reaches (fun s a => s.step 1 a) (fun _ _ => True)
      (new 1 () : State Unit) (new 1 ())) rfl
  exact (hall _ hrun).cleared 0 1 0 0 rfl List.mem_cons_self

end Exclusion

end OrderBookServer.SharedPool
