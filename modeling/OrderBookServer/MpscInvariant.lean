import Mathlib.Data.List.TakeDrop
import OrderBookServer.MpscQueue

/-!
What holds of the queue as long as no producer moves the head without room. The items in
the order in which the head was moved are numbered; a producer between its two steps has
the number it moved the head for, and every other number from the next one to be popped on
has its item in the slot of that number.
-/
namespace OrderBookServer.MpscQueue

variable {T : Type} {n : ℕ} {s s' : State T} {ticket : ℕ → ℕ}

structure Inv (n : ℕ) (s : State T) (ticket : ℕ → ℕ) : Prop where
  head_eq : s.buffer.head = s.moved.length % n
  tail_eq : s.buffer.tail = s.leftBehind % n
  known : s.cleared ≤ s.moved.length
  room : s.moved.length ≤ s.cleared + n
  popped_eq : s.popped = s.moved.take s.popped.length
  /-- A producer that is about to store has a number of its own, and its slot is empty. -/
  pending : ∀ p item i, s.producer p = .store item i → s.cleared ≤ ticket p ∧
    s.moved[ticket p]? = some item ∧ i = ticket p % n
  distinct : ∀ p q x y i j, s.producer p = .store x i → s.producer q = .store y j →
    ticket p = ticket q → p = q
  empty : ∀ p item i, s.producer p = .store item i → s.buffer.availableItems i = none
  filled : ∀ k item, s.cleared ≤ k → s.moved[k]? = some item →
    (∀ p x i, s.producer p = .store x i → ticket p ≠ k) →
      s.buffer.availableItems (k % n) = some item
  vacant : ∀ k, s.moved.length ≤ k → k < s.cleared + n →
    s.buffer.availableItems (k % n) = none
  held : ∀ item, s.inHand = some item → s.moved[s.popped.length]? = some item
  shown : ∀ item, s.consumer = .clearSlot item →
    s.buffer.availableItems s.buffer.tail = some item

theorem inv_new (n : ℕ) (ticket : ℕ → ℕ) : Inv n (new : State T) ticket where
  head_eq := (Nat.zero_mod n).symm
  tail_eq := (Nat.zero_mod n).symm
  known := Nat.le_refl 0
  room := Nat.zero_le _
  popped_eq := rfl
  pending _ _ _ hp := by cases hp
  distinct _ _ _ _ _ _ hp := by cases hp
  empty _ _ _ hp := by cases hp
  filled _ _ _ hk := by cases hk
  vacant _ _ _ := rfl
  held _ hi := by cases hi
  shown _ hc := by cases hc

section Quiet

/-- A step that neither fills nor empties a slot, where the consumer's own part still holds. -/
theorem Inv.same_slots (h : Inv n s ticket)
    (hslots : s'.buffer.availableItems = s.buffer.availableItems)
    (hhead : s'.buffer.head = s.buffer.head) (hmoved : s'.moved = s.moved)
    (hcleared : s'.cleared = s.cleared)
    (hstore : ∀ p item i, s'.producer p = .store item i ↔ s.producer p = .store item i)
    (htail : s'.buffer.tail = s'.leftBehind % n)
    (hpopped : s'.popped = s.moved.take s'.popped.length)
    (hheld : ∀ item, s'.inHand = some item → s.moved[s'.popped.length]? = some item)
    (hshown : ∀ item, s'.consumer = .clearSlot item →
      s.buffer.availableItems s'.buffer.tail = some item) : Inv n s' ticket where
  head_eq := by rw [hhead, hmoved, h.head_eq]
  tail_eq := htail
  known := by
    rw [hmoved, hcleared]
    exact h.known
  room := by
    rw [hmoved, hcleared]
    exact h.room
  popped_eq := by
    rw [hmoved]
    exact hpopped
  pending p item i hp := by
    rw [hcleared, hmoved]
    exact h.pending p item i ((hstore p item i).mp hp)
  distinct p q x y i j hp hq :=
    h.distinct p q x y i j ((hstore p x i).mp hp) ((hstore q y j).mp hq)
  empty p item i hp := by
    rw [hslots]
    exact h.empty p item i ((hstore p item i).mp hp)
  filled k item hk hitem hfree := by
    rw [hcleared] at hk
    rw [hmoved] at hitem
    rw [hslots]
    exact h.filled k item hk hitem fun p x i hp => hfree p x i ((hstore p x i).mpr hp)
  vacant k hk hlt := by
    rw [hmoved] at hk
    rw [hcleared] at hlt
    rw [hslots]
    exact h.vacant k hk hlt
  held item hi := by
    rw [hmoved]
    exact hheld item hi
  shown item hc := by
    rw [hslots]
    exact hshown item hc

/-- A step that moves nothing keeps the invariant. -/
theorem Inv.congr (h : Inv n s ticket)
    (hslots : s'.buffer.availableItems = s.buffer.availableItems)
    (hhead : s'.buffer.head = s.buffer.head) (htail : s'.buffer.tail = s.buffer.tail)
    (hmoved : s'.moved = s.moved) (hpopped : s'.popped = s.popped)
    (hcleared : s'.cleared = s.cleared) (hleft : s'.leftBehind = s.leftBehind)
    (hhand : ∀ item, s'.inHand = some item → s.inHand = some item)
    (hshown : ∀ item, s'.consumer = .clearSlot item → s.consumer = .clearSlot item)
    (hstore : ∀ p item i, s'.producer p = .store item i ↔ s.producer p = .store item i) :
    Inv n s' ticket := by
  apply h.same_slots hslots hhead hmoved hcleared hstore
  · rw [htail, hleft, h.tail_eq]
  · rw [hpopped]
    exact h.popped_eq
  · intro item hi
    rw [hpopped]
    exact h.held item (hhand item hi)
  · intro item hc
    rw [htail]
    exact h.shown item (hshown item hc)

theorem goOn_self (s : State T) (p : ℕ) (x : PushState T) : (s.goOn p x).producer p = x :=
  Function.update_self ..

theorem goOn_of_ne {p q : ℕ} (hne : q ≠ p) (x : PushState T) :
    (s.goOn p x).producer q = s.producer q := Function.update_of_ne hne ..

/-- Nothing changes for the others where a producer goes on. -/
theorem goOn_store_iff {p q i : ℕ} {x : PushState T} {item : T}
    (hold : ∀ y j, s.producer p ≠ .store y j) (hnew : ∀ y j, x ≠ .store y j) :
    (s.goOn p x).producer q = .store item i ↔ s.producer q = .store item i := by
  by_cases hqp : q = p
  · rw [hqp, goOn_self]
    constructor
    · exact fun h => absurd h (hnew item i)
    · exact fun h => absurd h (hold item i)
  · rw [goOn_of_ne hqp]

theorem Inv.goOn (h : Inv n s ticket) {p : ℕ} {x : PushState T} {passed : ℕ} {size : ℤ}
    (hold : ∀ y j, s.producer p ≠ .store y j) (hnew : ∀ y j, x ≠ .store y j) :
    Inv n { s.goOn p x with passed, buffer := { s.buffer with size } } ticket :=
  h.congr rfl rfl rfl rfl rfl rfl rfl (fun _ hi => hi) (fun _ hc => hc)
    fun _ _ _ => goOn_store_iff hold hnew

end Quiet

theorem lt_of_getElem? {xs : List T} {k : ℕ} {x : T} (h : xs[k]? = some x) : k < xs.length :=
  (List.getElem?_eq_some_iff.mp h).1

section Producers

variable {p : ℕ} {item : T}

/-- A number that is taken for an item is in the ring. -/
theorem Inv.ticket_lt (h : Inv n s ticket) {i : ℕ} (hp : s.producer p = .store item i) :
    ticket p < s.moved.length := lt_of_getElem? (h.pending p item i hp).2.1

/-- A producer that is about to store is the one that went on, or was about to before. -/
theorem store_of_goOn {q i : ℕ} {x : T} {state : PushState T}
    (hq : (s.goOn p state).producer q = .store x i) :
    q = p ∧ state = .store x i ∨ q ≠ p ∧ s.producer q = .store x i := by
  by_cases hqp : q = p
  · rw [hqp, goOn_self] at hq
    exact Or.inl ⟨hqp, hq⟩
  · rw [goOn_of_ne hqp] at hq
    exact Or.inr ⟨hqp, hq⟩

/-- A producer moves the head and takes the number of its item. -/
theorem Inv.moveHead (h : Inv n s ticket) (hp : s.producer p = .moveHead item)
    (hroom : s.moved.length < s.cleared + n) :
    Inv n { s.goOn p (.store item s.buffer.head) with
      buffer := { s.buffer with head := (s.buffer.head + 1) % n }
      moved := s.moved ++ [item] } (Function.update ticket p s.moved.length) := by
  have hself : Function.update ticket p s.moved.length p = s.moved.length :=
    Function.update_self ..
  have hother : ∀ q, q ≠ p → Function.update ticket p s.moved.length q = ticket q :=
    fun q hq => Function.update_of_ne hq ..
  have hcases : ∀ q x i, (s.goOn p (.store item s.buffer.head)).producer q = .store x i →
      q = p ∧ x = item ∧ i = s.buffer.head ∨ q ≠ p ∧ s.producer q = .store x i := by
    intro q x i hq
    rcases store_of_goOn hq with ⟨hqp, hstate⟩ | hother
    · cases hstate
      exact Or.inl ⟨hqp, rfl, rfl⟩
    · exact Or.inr hother
  have hold : ∀ (k : ℕ) (x : T), s.moved[k]? = some x → (s.moved ++ [item])[k]? = some x := by
    intro k x hk
    rw [List.getElem?_append_left (lt_of_getElem? hk)]
    exact hk
  have hlength : (s.moved ++ [item]).length = s.moved.length + 1 := by
    rw [List.length_append, List.length_singleton]
  exact {
    head_eq := by
      show (s.buffer.head + 1) % n = (s.moved ++ [item]).length % n
      rw [h.head_eq, hlength, Nat.mod_add_mod]
    tail_eq := h.tail_eq
    known := by
      show s.cleared ≤ (s.moved ++ [item]).length
      have := h.known
      omega
    room := by
      show (s.moved ++ [item]).length ≤ s.cleared + n
      omega
    popped_eq := by
      show s.popped = (s.moved ++ [item]).take s.popped.length
      have hle : s.popped.length ≤ s.moved.length := by
        have hfew := congrArg List.length h.popped_eq
        rw [List.length_take] at hfew
        omega
      rw [List.take_append_of_le_length hle]
      exact h.popped_eq
    pending := by
      intro q x i hq
      rcases hcases q x i hq with ⟨rfl, rfl, rfl⟩ | ⟨hne, hq'⟩
      · rw [hself]
        refine ⟨h.known, ?_, h.head_eq⟩
        show (s.moved ++ [x])[s.moved.length]? = some x
        rw [List.getElem?_append_right (Nat.le_refl _), Nat.sub_self]
        rfl
      · rw [hother q hne]
        obtain ⟨hle, hitem, hi⟩ := h.pending q x i hq'
        exact ⟨hle, hold _ _ hitem, hi⟩
    distinct := by
      intro q r x y i j hq hr heq
      rcases hcases q x i hq with ⟨rfl, _, _⟩ | ⟨hne, hq'⟩
      · rcases hcases r y j hr with ⟨rfl, _, _⟩ | ⟨hne', hr'⟩
        · rfl
        · rw [hself, hother r hne'] at heq
          have := h.ticket_lt hr'
          omega
      · rcases hcases r y j hr with ⟨rfl, _, _⟩ | ⟨hne', hr'⟩
        · rw [hself, hother q hne] at heq
          have := h.ticket_lt hq'
          omega
        · rw [hother q hne, hother r hne'] at heq
          exact h.distinct q r x y i j hq' hr' heq
    empty := by
      intro q x i hq
      rcases hcases q x i hq with ⟨_, _, rfl⟩ | ⟨_, hq'⟩
      · show s.buffer.availableItems s.buffer.head = none
        rw [h.head_eq]
        exact h.vacant _ (Nat.le_refl _) hroom
      · exact h.empty q x i hq'
    filled := by
      intro k x hk hx hfree
      have hne : k ≠ s.moved.length := by
        intro heq
        exact hfree p item s.buffer.head (goOn_self ..) (hself.trans heq.symm)
      have hlt := lt_of_getElem? hx
      rw [hlength] at hlt
      rw [List.getElem?_append_left (by omega)] at hx
      refine h.filled k x hk hx fun q y j hq => ?_
      have hqp : q ≠ p := by
        intro heq
        rw [heq, hp] at hq
        cases hq
      rw [← hother q hqp]
      exact hfree q y j (by rw [← hq]; exact goOn_of_ne hqp _)
    vacant := by
      intro k hk hlt
      change (s.moved ++ [item]).length ≤ k at hk
      exact h.vacant k (by omega) hlt
    held := fun x hx => hold _ _ (h.held x hx)
    shown := h.shown }

/-- A producer stores its item in an empty slot. -/
theorem Inv.store (h : Inv n s ticket) {headIndex : ℕ} (hp : s.producer p = .store item headIndex) :
    Inv n { s.goOn p (.raiseSize item) with
      buffer := { s.buffer with
        availableItems := Function.update s.buffer.availableItems headIndex (some item) } }
      ticket := by
  obtain ⟨hticket, hitem, hindex⟩ := h.pending p item headIndex hp
  have hlt := h.ticket_lt hp
  have hroom := h.room
  have hcases : ∀ q x i, (s.goOn p (.raiseSize item)).producer q = .store x i →
      q ≠ p ∧ s.producer q = .store x i := by
    intro q x i hq
    rcases store_of_goOn hq with ⟨_, hstate⟩ | hother
    · cases hstate
    · exact hother
  have hapart : ∀ k, s.cleared ≤ k → k < s.cleared + n → k ≠ ticket p →
      Function.update s.buffer.availableItems headIndex (some item) (k % n) =
        s.buffer.availableItems (k % n) := by
    intro k hk hkn hne
    rw [hindex]
    exact Function.update_of_ne (Ring.mod_ne hk hkn hticket (by omega) hne) ..
  exact {
    head_eq := h.head_eq
    tail_eq := h.tail_eq
    known := h.known
    room := h.room
    popped_eq := h.popped_eq
    pending := fun q x i hq => h.pending q x i (hcases q x i hq).2
    distinct := fun q r x y i j hq hr =>
      h.distinct q r x y i j (hcases q x i hq).2 (hcases r y j hr).2
    empty := by
      intro q x i hq
      obtain ⟨hne, hq'⟩ := hcases q x i hq
      obtain ⟨hle, _, hi⟩ := h.pending q x i hq'
      have hlt' := h.ticket_lt hq'
      have hempty := h.empty q x i hq'
      show Function.update s.buffer.availableItems headIndex (some item) i = none
      rw [hi] at hempty ⊢
      rw [hapart _ hle (by omega) fun heq => hne (h.distinct q p x item i headIndex hq' hp heq)]
      exact hempty
    filled := by
      intro k x hk hx hfree
      show Function.update s.buffer.availableItems headIndex (some item) (k % n) = some x
      by_cases hkp : k = ticket p
      · have hsame : x = item := by
          change s.moved[k]? = some x at hx
          rw [hkp, hitem] at hx
          exact (Option.some.inj hx).symm
        rw [hkp, ← hindex, Function.update_self, hsame]
      · have hkn := lt_of_getElem? hx
        rw [hapart k hk (Nat.lt_of_lt_of_le hkn hroom) hkp]
        refine h.filled k x hk hx fun q y j hq => ?_
        by_cases hqp : q = p
        · rw [hqp]
          exact fun heq => hkp heq.symm
        · exact hfree q y j (by rw [← hq]; exact goOn_of_ne hqp _)
    vacant := by
      intro k hk hkn
      change s.moved.length ≤ k at hk
      have hle := h.known
      show Function.update s.buffer.availableItems headIndex (some item) (k % n) = none
      rw [hapart k (by omega) hkn (by omega)]
      exact h.vacant k hk hkn
    held := h.held
    shown := by
      intro x hc
      have hshown := h.shown x hc
      have hne : s.buffer.tail ≠ headIndex := by
        intro heq
        rw [heq, h.empty p item headIndex hp] at hshown
        cases hshown
      show Function.update s.buffer.availableItems headIndex (some item) s.buffer.tail = some x
      rw [Function.update_of_ne hne]
      exact hshown }

end Producers

section Consumer

variable {item : T}

/-- The consumer finds the next item in the slot at the tail. -/
theorem Inv.loadSlot (h : Inv n s ticket) (hn : 0 < n) (hc : s.consumer = .loadSlot)
    (hslot : s.buffer.availableItems s.buffer.tail = some item) :
    Inv n { s with consumer := .clearSlot item } ticket := by
  have hcleared : s.cleared = s.popped.length := by rw [State.cleared, hc]
  have hleft : s.leftBehind = s.popped.length := by rw [State.leftBehind, hc]
  have htail : s.buffer.tail = s.popped.length % n := by rw [h.tail_eq, hleft]
  have hmore : s.popped.length < s.moved.length := by
    by_contra hle
    rw [htail, h.vacant _ (Nat.not_lt.mp hle) (by omega)] at hslot
    cases hslot
  have hfree : ∀ p x i, s.producer p = .store x i → ticket p ≠ s.popped.length := by
    intro p x i hp heq
    have hempty := h.empty p x i hp
    rw [(h.pending p x i hp).2.2, heq, ← htail, hslot] at hempty
    cases hempty
  have hnext : s.moved[s.popped.length]? = some item := by
    have hitem := List.getElem?_eq_getElem hmore
    have hfilled := h.filled _ _ (Nat.le_of_eq hcleared) hitem hfree
    rw [← htail, hslot] at hfilled
    rw [hitem, hfilled]
  refine h.same_slots rfl rfl rfl hcleared.symm (fun _ _ _ => Iff.rfl) htail h.popped_eq ?_ ?_
  · intro x hx
    cases hx
    exact hnext
  · intro x hx
    cases hx
    exact hslot

/-- The consumer empties the slot at the tail, and one more number has its room. -/
theorem Inv.clearSlot (h : Inv n s ticket) (hc : s.consumer = .clearSlot item) :
    Inv n { s with
      consumer := .moveTail item
      buffer := { s.buffer with
        availableItems := Function.update s.buffer.availableItems s.buffer.tail none } }
      ticket := by
  have hcleared : s.cleared = s.popped.length := by rw [State.cleared, hc]
  have hleft : s.leftBehind = s.popped.length := by rw [State.leftBehind, hc]
  have htail : s.buffer.tail = s.popped.length % n := by rw [h.tail_eq, hleft]
  have hslot := h.shown item hc
  have hnext := h.held item (by rw [State.inHand, hc])
  have hmore := lt_of_getElem? hnext
  have hroom := h.room
  rw [hcleared] at hroom
  have hapart : ∀ k, s.popped.length + 1 ≤ k → k < s.popped.length + n →
      Function.update s.buffer.availableItems s.buffer.tail none (k % n) =
        s.buffer.availableItems (k % n) := by
    intro k hk hkn
    rw [htail]
    exact Function.update_of_ne (Ring.mod_ne (c := s.popped.length) (by omega) hkn
      (Nat.le_refl _) (by omega) (by omega)) ..
  exact {
    head_eq := h.head_eq
    tail_eq := htail
    known := hmore
    room := by
      show s.moved.length ≤ s.popped.length + 1 + n
      omega
    popped_eq := h.popped_eq
    pending := by
      intro p x i hp
      obtain ⟨hle, hitem, hi⟩ := h.pending p x i hp
      refine ⟨?_, hitem, hi⟩
      show s.popped.length + 1 ≤ ticket p
      have hne : ticket p ≠ s.popped.length := by
        intro heq
        have hempty := h.empty p x i hp
        rw [hi, heq, ← htail, hslot] at hempty
        cases hempty
      omega
    distinct := h.distinct
    empty := by
      intro p x i hp
      have hempty := h.empty p x i hp
      show Function.update s.buffer.availableItems s.buffer.tail none i = none
      by_cases hi : i = s.buffer.tail
      · rw [hi, Function.update_self]
      · rw [Function.update_of_ne hi]
        exact hempty
    filled := by
      intro k x hk hx hfree
      change s.popped.length + 1 ≤ k at hk
      have hlt := lt_of_getElem? hx
      show Function.update s.buffer.availableItems s.buffer.tail none (k % n) = some x
      rw [hapart k hk (Nat.lt_of_lt_of_le hlt hroom)]
      exact h.filled k x (by omega) hx hfree
    vacant := by
      intro k hk hlt
      change s.moved.length ≤ k at hk
      change k < s.popped.length + 1 + n at hlt
      show Function.update s.buffer.availableItems s.buffer.tail none (k % n) = none
      by_cases hlast : k = s.popped.length + n
      · rw [hlast, Nat.add_mod_right, ← htail, Function.update_self]
      · rw [hapart k (by omega) (by omega)]
        exact h.vacant k hk (by omega)
    held := by
      intro x hx
      cases hx
      exact hnext
    shown := fun x hx => by cases hx }

theorem Inv.moveTail (h : Inv n s ticket) (hc : s.consumer = .moveTail item) :
    Inv n { s with
      consumer := .lowerSize item
      buffer := { s.buffer with tail := (s.buffer.tail + 1) % n } } ticket := by
  have hcleared : s.cleared = s.popped.length + 1 := by rw [State.cleared, hc]
  have hleft : s.leftBehind = s.popped.length := by rw [State.leftBehind, hc]
  have hnext := h.held item (by rw [State.inHand, hc])
  have htail : (s.buffer.tail + 1) % n = (s.popped.length + 1) % n := by
    rw [h.tail_eq, hleft, Nat.mod_add_mod]
  refine h.same_slots rfl rfl rfl hcleared.symm (fun _ _ _ => Iff.rfl) htail h.popped_eq ?_ ?_
  · intro x hx
    cases hx
    exact hnext
  · intro x hx
    cases hx

/-- The consumer returns the next item. -/
theorem Inv.lowerSize (h : Inv n s ticket) (hc : s.consumer = .lowerSize item) {size : ℤ} :
    Inv n { s with
      consumer := .idle
      buffer := { s.buffer with size }
      popped := s.popped ++ [item] } ticket := by
  have hcleared : s.cleared = (s.popped ++ [item]).length := by
    rw [State.cleared, hc, List.length_append, List.length_singleton]
  have hleft : s.leftBehind = (s.popped ++ [item]).length := by
    rw [State.leftBehind, hc, List.length_append, List.length_singleton]
  have hnext := h.held item (by rw [State.inHand, hc])
  have hpopped : s.popped ++ [item] = s.moved.take (s.popped ++ [item]).length := by
    rw [List.length_append, List.length_singleton, List.take_add_one, hnext, ← h.popped_eq]
    rfl
  have htail := h.tail_eq
  rw [hleft] at htail
  refine h.same_slots rfl rfl rfl hcleared.symm (fun _ _ _ => Iff.rfl) htail hpopped ?_ ?_
  · intro x hx
    cases hx
  · intro x hx
    cases hx

end Consumer

/-- A step with room keeps the invariant. -/
theorem Inv.move (h : Inv n s ticket) (hn : 0 < n) (hmove : Move n s s') :
    ∃ ticket', Inv n s' ticket' := by
  cases hmove with
  | call hp =>
    refine ⟨ticket, h.goOn (fun y j hy => ?_) fun y j hy => by cases hy⟩
    rw [hp] at hy
    cases hy
  | refuse hp _ =>
    refine ⟨ticket, h.goOn (fun y j hy => ?_) fun y j hy => by cases hy⟩
    rw [hp] at hy
    cases hy
  | pass hp =>
    refine ⟨ticket, h.goOn (fun y j hy => ?_) fun y j hy => by cases hy⟩
    rw [hp] at hy
    cases hy
  | moveHead hp hroom => exact ⟨_, h.moveHead hp hroom⟩
  | store hp => exact ⟨ticket, h.store hp⟩
  | raiseSize hp =>
    refine ⟨ticket, h.goOn (fun y j hy => ?_) fun y j hy => by cases hy⟩
    rw [hp] at hy
    cases hy
  | findEmpty _ => exact ⟨ticket, h⟩
  | loadSize hc _ =>
    refine ⟨ticket, h.congr rfl rfl rfl rfl rfl ?_ ?_ (fun _ hi => by cases hi)
      (fun _ hx => by cases hx) fun _ _ _ => Iff.rfl⟩
    · rw [State.cleared, State.cleared, hc]
    · rw [State.leftBehind, State.leftBehind, hc]
  | findNull hc _ =>
    refine ⟨ticket, h.congr rfl rfl rfl rfl rfl ?_ ?_ (fun _ hi => by cases hi)
      (fun _ hx => by cases hx) fun _ _ _ => Iff.rfl⟩
    · rw [State.cleared, State.cleared, hc]
    · rw [State.leftBehind, State.leftBehind, hc]
  | loadSlot hc hslot => exact ⟨ticket, h.loadSlot hn hc hslot⟩
  | clearSlot hc => exact ⟨ticket, h.clearSlot hc⟩
  | moveTail hc => exact ⟨ticket, h.moveTail hc⟩
  | lowerSize hc => exact ⟨ticket, h.lowerSize hc⟩

end OrderBookServer.MpscQueue
