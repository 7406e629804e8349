import Mathlib.Data.Finset.Card
import OrderBookServer.MpscInvariant

/-!
First in, first out, and the full check. Producers that have passed the check and the pops
that are done tell whether there is room; a producer that moves the head without room may
store over an item that nobody has popped.
-/
namespace OrderBookServer.MpscQueue

variable {T : Type} {n : ℕ} {s s' : State T}

section Counting

variable {α : Type} {f : ℕ → α} {kind : α → Bool} {m : ℕ}

/-- There are `m` places of a kind. -/
def Counts (f : ℕ → α) (kind : α → Bool) (m : ℕ) : Prop :=
  ∃ places : Finset ℕ, (∀ p, p ∈ places ↔ kind (f p) = true) ∧ places.card = m

theorem Counts.update (h : Counts f kind m) (p : ℕ) (x : α) : ∃ m',
    Counts (Function.update f p x) kind m' ∧ m' + (kind (f p)).toNat = m + (kind x).toNat := by
  obtain ⟨places, hmem, hcard⟩ := h
  cases hx : kind x with
  | true =>
    refine ⟨_, ⟨insert p places, fun q => ?_, rfl⟩, ?_⟩
    · by_cases hq : q = p
      · simp [hq, hx]
      · simp [hq, hmem]
    · cases hp : kind (f p) with
      | true =>
        rw [Finset.insert_eq_of_mem ((hmem p).mpr hp), hcard]
      | false =>
        rw [Finset.card_insert_of_notMem, hcard]
        · rfl
        · rw [hmem, hp]
          decide
  | false =>
    refine ⟨_, ⟨places.erase p, fun q => ?_, rfl⟩, ?_⟩
    · by_cases hq : q = p
      · simp [hq, hx]
      · simp [hq, hmem]
    · cases hp : kind (f p) with
      | true =>
        have hcount := Finset.card_erase_add_one ((hmem p).mpr hp)
        rw [hcard] at hcount
        exact hcount
      | false =>
        rw [Finset.erase_eq_of_notMem, hcard]
        rw [hmem, hp]
        decide

theorem Counts.pos (h : Counts f kind m) {p : ℕ} (hp : kind (f p) = true) : 0 < m := by
  obtain ⟨places, hmem, rfl⟩ := h
  exact Finset.card_pos.mpr ⟨p, (hmem p).mpr hp⟩

theorem Counts.eq_zero (h : Counts f kind m) (hnone : ∀ p, kind (f p) = false) : m = 0 := by
  obtain ⟨places, hmem, rfl⟩ := h
  refine Finset.card_eq_zero.mpr (Finset.eq_empty_of_forall_notMem fun p hp => ?_)
  rw [hmem, hnone] at hp
  cases hp

end Counting

/-- The push has moved the head, and its item is not counted in `size`. -/
def PushState.isUncounted : PushState T → Bool
  | .store _ _ => true
  | .raiseSize _ => true
  | _ => false

/-- The pushes that have passed the full check, and the items that `size` counts. -/
def Counted (s : State T) : Prop :=
  ∃ r u, Counts s.producer PushState.hasPassed r ∧ Counts s.producer PushState.isUncounted u ∧
    s.passed = s.moved.length + r ∧ (s.moved.length : ℤ) = s.buffer.size + s.popped.length + u

theorem counted_new : Counted (new : State T) := by
  refine ⟨0, 0, ⟨∅, fun p => ?_, rfl⟩, ⟨∅, fun p => ?_, rfl⟩, rfl, rfl⟩
  · simp [new, PushState.hasPassed]
  · simp [new, PushState.isUncounted]

/-- A producer that goes on is counted again. -/
theorem Counted.update (h : Counted s) {p : ℕ} {x : PushState T}
    (hproducer : s'.producer = Function.update s.producer p x)
    (hpassed : s'.passed + s.moved.length + (s.producer p).hasPassed.toNat =
      s.passed + s'.moved.length + x.hasPassed.toNat)
    (hsize : s'.moved.length + s.buffer.size + s.popped.length + (s.producer p).isUncounted.toNat =
      s.moved.length + s'.buffer.size + s'.popped.length + x.isUncounted.toNat) : Counted s' := by
  obtain ⟨r, u, hr, hu, hr', hu'⟩ := h
  obtain ⟨r', hcount, hrr⟩ := hr.update p x
  obtain ⟨u', hcount', huu⟩ := hu.update p x
  rw [← hproducer] at hcount hcount'
  exact ⟨r', u', hcount, hcount', by omega, by omega⟩

/-- A step counts what it does. -/
theorem Counted.move (h : Counted s) (hmove : Move n s s') : Counted s' := by
  cases hmove with
  | call hp =>
    refine h.update rfl ?_ ?_
    · rw [hp]
      rfl
    · rw [hp]
      rfl
  | refuse hp _ =>
    refine h.update rfl ?_ ?_
    · rw [hp]
      rfl
    · rw [hp]
      rfl
  | pass hp =>
    refine h.update rfl ?_ ?_
    · rw [hp]
      show s.passed + 1 + s.moved.length + 0 = s.passed + s.moved.length + 1
      omega
    · rw [hp]
      rfl
  | @moveHead p item hp _ =>
    have hlength : (s.moved ++ [item]).length = s.moved.length + 1 := by
      rw [List.length_append, List.length_singleton]
    refine h.update rfl ?_ ?_
    · rw [hp]
      show s.passed + s.moved.length + 1 = s.passed + (s.moved ++ [item]).length + 0
      omega
    · rw [hp]
      show (s.moved ++ [item]).length + s.buffer.size + s.popped.length + (0 : ℕ) =
        s.moved.length + s.buffer.size + s.popped.length + (1 : ℕ)
      omega
  | store hp =>
    refine h.update rfl ?_ ?_
    · rw [hp]
      rfl
    · rw [hp]
      rfl
  | raiseSize hp =>
    refine h.update rfl ?_ ?_
    · rw [hp]
      rfl
    · rw [hp]
      show s.moved.length + s.buffer.size + s.popped.length + (1 : ℕ) =
        s.moved.length + (s.buffer.size + 1) + s.popped.length + (0 : ℕ)
      omega
  | findEmpty _ => exact h
  | loadSize _ _ => exact h
  | findNull _ _ => exact h
  | loadSlot _ _ => exact h
  | clearSlot _ => exact h
  | moveTail _ => exact h
  | @lowerSize item _ =>
    obtain ⟨r, u, hr, hu, hpassed, hsize⟩ := h
    have hlength : (s.popped ++ [item]).length = s.popped.length + 1 := by
      rw [List.length_append, List.length_singleton]
    refine ⟨r, u, hr, hu, hpassed, ?_⟩
    show (s.moved.length : ℤ) = s.buffer.size - 1 + (s.popped ++ [item]).length + u
    omega

/-- Only the consumer lowers `size`, once it has seen that it is not zero. -/
def Sized (s : State T) : Prop := 0 ≤ s.buffer.size ∧ (s.consumer ≠ .idle → 0 < s.buffer.size)

theorem Sized.move (h : Sized s) (hmove : Move n s s') : Sized s' := by
  obtain ⟨hsize, hbusy⟩ := h
  have hstill : ∀ {c : PopState T}, s.consumer = c → c ≠ .idle → 0 < s.buffer.size := by
    intro c hc hne
    rw [← hc] at hne
    exact hbusy hne
  cases hmove with
  | call _ => exact ⟨hsize, hbusy⟩
  | refuse _ _ => exact ⟨hsize, hbusy⟩
  | pass _ => exact ⟨hsize, hbusy⟩
  | moveHead _ _ => exact ⟨hsize, hbusy⟩
  | store _ => exact ⟨hsize, hbusy⟩
  | raiseSize _ =>
    have hmore : 0 < s.buffer.size + 1 := by omega
    exact ⟨Int.le_of_lt hmore, fun _ => hmore⟩
  | findEmpty _ => exact ⟨hsize, hbusy⟩
  | loadSize _ hne => exact ⟨hsize, fun _ => lt_of_le_of_ne hsize (Ne.symm hne)⟩
  | findNull _ _ => exact ⟨hsize, fun hc => absurd rfl hc⟩
  | loadSlot hc _ => exact ⟨hsize, fun _ => hstill hc (by intro heq; cases heq)⟩
  | clearSlot hc => exact ⟨hsize, fun _ => hstill hc (by intro heq; cases heq)⟩
  | moveTail hc => exact ⟨hsize, fun _ => hstill hc (by intro heq; cases heq)⟩
  | lowerSize hc =>
    have hpos := hstill hc (by intro heq; cases heq)
    refine ⟨?_, fun hc' => absurd rfl hc'⟩
    show 0 ≤ s.buffer.size - 1
    omega

section Keeping

/-- No item is lost or overwritten: each one that was not returned is about to be stored,
or it is in its slot, or the consumer has it; and a slot that is stored to is empty. -/
structure Kept (n : ℕ) (s : State T) : Prop where
  waits : ∀ k item, s.popped.length ≤ k → s.moved[k]? = some item →
    (∃ p, s.producer p = .store item (k % n)) ∨ s.buffer.availableItems (k % n) = some item ∨
      k = s.popped.length ∧ s.inHand = some item
  empty : ∀ p item i, s.producer p = .store item i → s.buffer.availableItems i = none

/-- The pushes that have passed the full check minus the pops that are done. -/
def Within (n : ℕ) (s : State T) : Prop := s.passed ≤ s.popped.length + n

instance (n : ℕ) (s : State T) : Decidable (Within n s) := inferInstanceAs (Decidable (_ ≤ _))

/-- What the queue promises. The items are those whose pushes have moved the head. -/
structure Fifo (n : ℕ) (s : State T) : Prop where
  inOrder : s.popped <+: s.moved
  kept : Kept n s
  size_nonneg : 0 ≤ s.buffer.size
  drained : (∀ p, s.producer p = .idle) → s.ReturnsNull → s.popped = s.moved

variable {ticket : ℕ → ℕ}

theorem Inv.kept (h : Inv n s ticket) : Kept n s := by
  refine ⟨fun k item hk hitem => ?_, h.empty⟩
  by_cases hpending : ∃ p x i, s.producer p = .store x i ∧ ticket p = k
  · obtain ⟨p, x, i, hp, rfl⟩ := hpending
    obtain ⟨_, hx, hi⟩ := h.pending p x i hp
    rw [hx] at hitem
    cases hitem
    rw [hi] at hp
    exact Or.inl ⟨p, hp⟩
  · have hfree : ∀ p x i, s.producer p = .store x i → ticket p ≠ k :=
      fun p x i hp heq => hpending ⟨p, x, i, hp, heq⟩
    by_cases hcleared : s.cleared ≤ k
    · exact Or.inr (Or.inl (h.filled k item hcleared hitem hfree))
    · -- The consumer has taken the next item out of its slot.
      refine Or.inr (Or.inr ?_)
      have hhand : s.cleared = s.popped.length + 1 ∧ ∃ x, s.inHand = some x := by
        unfold State.cleared at hcleared ⊢
        unfold State.inHand
        cases hc : s.consumer with
        | idle =>
          rw [hc] at hcleared
          exact absurd hk hcleared
        | loadSlot =>
          rw [hc] at hcleared
          exact absurd hk hcleared
        | clearSlot x =>
          rw [hc] at hcleared
          exact absurd hk hcleared
        | moveTail x => exact ⟨rfl, x, rfl⟩
        | lowerSize x => exact ⟨rfl, x, rfl⟩
      obtain ⟨hone, x, hx⟩ := hhand
      have hlast : k = s.popped.length := by omega
      have hnext := h.held x hx
      rw [← hlast, hitem] at hnext
      rw [hx, ← hnext]
      exact ⟨hlast, rfl⟩

theorem Inv.inOrder (h : Inv n s ticket) : s.popped <+: s.moved := by
  rw [h.popped_eq]
  exact List.take_prefix _ _

/-- Once no push is under way, the consumer finds nothing only if everything was returned. -/
theorem Inv.drained (h : Inv n s ticket) (hcounted : Counted s)
    (hidle : ∀ p, s.producer p = .idle) (hnull : s.ReturnsNull) : s.popped = s.moved := by
  have hall : s.moved.length ≤ s.popped.length → s.popped = s.moved := by
    intro hle
    rw [h.popped_eq]
    exact List.take_of_length_le hle
  refine hall ?_
  rcases hnull with ⟨_, hsize⟩ | ⟨hc, hslot⟩
  · obtain ⟨r, u, _, hu, _, hsum⟩ := hcounted
    have hzero := hu.eq_zero fun p => by
      rw [hidle p]
      rfl
    omega
  · by_contra hmore
    have hleft : s.leftBehind = s.popped.length := by rw [State.leftBehind, hc]
    have hcleared : s.cleared = s.popped.length := by rw [State.cleared, hc]
    have htail : s.buffer.tail = s.popped.length % n := by rw [h.tail_eq, hleft]
    have hitem := List.getElem?_eq_getElem (Nat.not_le.mp hmore)
    have hfilled := h.filled _ _ (Nat.le_of_eq hcleared) hitem fun p x i hp => by
      rw [hidle p] at hp
      cases hp
    rw [← htail, hslot] at hfilled
    cases hfilled

theorem State.popped_le_cleared (s : State T) : s.popped.length ≤ s.cleared := by
  unfold State.cleared
  cases s.consumer with
  | idle => exact Nat.le_refl _
  | loadSlot => exact Nat.le_refl _
  | clearSlot x => exact Nat.le_refl _
  | moveTail x => exact Nat.le_succ _
  | lowerSize x => exact Nat.le_succ _

/-- Within the capacity a push that moves the head has room. -/
theorem Within.hasRoom (h : Within n s) (hcounted : Counted s) (a : Action T) :
    s.HasRoom n a := by
  cases a with
  | call p item => trivial
  | consume => trivial
  | produce p =>
    intro hp
    obtain ⟨r, u, hr, _, hpassed, _⟩ := hcounted
    have hpos := hr.pos hp
    have hle := State.popped_le_cleared s
    unfold Within at h
    omega

/-- What holds of the queue within its capacity. -/
def Sound (n : ℕ) (s : State T) : Prop := (∃ ticket, Inv n s ticket) ∧ Counted s ∧ Sized s

theorem sound_new (n : ℕ) : Sound n (new : State T) :=
  ⟨⟨fun _ => 0, inv_new n _⟩, counted_new, Int.le_refl 0, fun hc => absurd rfl hc⟩

/-- Within the capacity the items come out in the order in which their pushes moved the
head, and none is lost. -/
theorem fifo_of_within (hn : 0 < n)
    (h : Runs.Reaches (fun s a => s.step n a) (fun s _ => Within n s) (new : State T) s) :
    Fifo n s := by
  have hstep : ∀ (s : State T) a s', Sound n s → Within n s → s.step n a = some s' →
      Sound n s' := by
    intro s a s' hs hwithin hstep
    obtain ⟨⟨ticket, hinv⟩, hcounted, hsized⟩ := hs
    have hmove := move_of_step (hwithin.hasRoom hcounted a) hstep
    exact ⟨hinv.move hn hmove, hcounted.move hmove, hsized.move hmove⟩
  obtain ⟨⟨ticket, hinv⟩, hcounted, hsized⟩ := h.invariant hstep (sound_new n)
  exact ⟨hinv.inOrder, hinv.kept, hsized.1, hinv.drained hcounted⟩

/-- A push of one item and the pop of it, up to the load of its slot. -/
theorem fifo_of_within_one : ∃ s : State Char,
    Runs.Reaches (fun s a => s.step 1 a) (fun s _ => Within 1 s) new s ∧
      s.consumer = .clearSlot 'a' ∧ Fifo 1 s := by
  have hrun := Runs.Reaches.follow [.call 0 'a', .produce 0, .produce 0, .produce 0, .produce 0,
    .consume, .consume] (.start : Runs.Reaches (fun s a => s.step 1 a) (fun s _ => Within 1 s)
      (new : State Char) new) rfl
  exact ⟨_, hrun, rfl, fifo_of_within (by decide) hrun⟩

/-- The push of a producer throws. -/
def Refuses (n : ℕ) (s : State T) (a : Action T) : Prop :=
  ∃ p item, a = .produce p ∧ s.producer p = .loadSize item ∧ s.buffer.size = n

/-- Where every push that moves the head has room, each slot that is stored to is empty, and
no item is lost; a push that throws leaves the buffer as it is. -/
theorem kept_of_hasRoom (hn : 0 < n)
    (h : Runs.Reaches (fun s a => s.step n a) (fun s a => s.HasRoom n a) (new : State T) s) :
    Kept n s ∧ ∀ a s', Refuses n s a → s.step n a = some s' → s'.buffer = s.buffer := by
  have hstep : ∀ (s : State T) a s', (∃ ticket, Inv n s ticket) → s.HasRoom n a →
      s.step n a = some s' → ∃ ticket, Inv n s' ticket := by
    intro s a s' hs hroom hstep
    obtain ⟨ticket, hinv⟩ := hs
    exact hinv.move hn (move_of_step hroom hstep)
  obtain ⟨ticket, hinv⟩ := h.invariant hstep ⟨fun _ => 0, inv_new n _⟩
  refine ⟨hinv.kept, fun a s' hrefuses hstep => ?_⟩
  obtain ⟨p, item, rfl, hp, hsize⟩ := hrefuses
  change s.produce n p = some s' at hstep
  unfold State.produce at hstep
  simp only [hp, if_pos hsize] at hstep
  cases hstep
  rfl

/-- A push is refused while the item before it is still in the queue. -/
theorem kept_of_hasRoom_refused : ∃ s : State Char,
    Runs.Reaches (fun s a => s.step 1 a) (fun s a => s.HasRoom 1 a) new s ∧
      Refuses 1 s (.produce 1) ∧ Kept 1 s := by
  have hrun := Runs.Reaches.follow [.call 0 'a', .produce 0, .produce 0, .produce 0, .produce 0,
    .call 1 'b'] (.start : Runs.Reaches (fun s a => s.step 1 a) (fun s a => s.HasRoom 1 a)
      (new : State Char) new) rfl
  exact ⟨_, hrun, ⟨1, 'b', rfl, rfl, rfl⟩, (kept_of_hasRoom (by decide) hrun).1⟩

/-- Two pushes pass the check of an empty queue, and the second is about to store its item
over the first one's. -/
theorem not_kept_race : ∃ s : State Char,
    Runs.Reaches (fun s a => s.step 1 a) (fun _ _ => True) new s ∧ s.popped = [] ∧
      s.producer 1 = .store 'b' 0 ∧ s.buffer.availableItems 0 = some 'a' ∧ ¬ Kept 1 s := by
  have hrun := Runs.Reaches.follow [.call 0 'a', .call 1 'b', .produce 0, .produce 1, .produce 0,
    .produce 1, .produce 0] (.start : Runs.Reaches (fun s a => s.step 1 a) (fun _ _ => True)
      (new : State Char) new) rfl
  refine ⟨_, hrun, rfl, rfl, rfl, fun h => ?_⟩
  have hempty := h.empty 1 'b' 0 rfl
  cases hempty

end Keeping

end OrderBookServer.MpscQueue
