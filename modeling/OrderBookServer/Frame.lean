import OrderBookServer.Safety

/-!
What a message leaves alone. Of the orders that rest in the book it revises at most the one that
the table holds for its id, and what it places or moves goes to the back of one queue. So all other
orders stay in their levels, with their sizes and in their order.
-/
namespace OrderBookServer

open NodeList Runs

namespace Effect

/-- What the effect leaves, in its place, of the order at its entry. -/
def remainder (id : UInt64) : Effect → Option Order
  | .resize _ size => some ⟨id, size⟩
  | _ => none

def revise (id : UInt64) (e : Effect) (q : Nodes Order) : Nodes Order :=
  match e.ref with
  | none => q
  | some ref => q.revise ref.it (e.remainder id)

end Effect

namespace OrderBook

section Backs

variable (ob : OrderBook) (mbo : MboMsg)

/-- The queue at whose back the effect puts a node. -/
def backSlot : Effect → Option (Bool × ℕ)
  | .place => some (mbo.isBid, ob.msgIndex mbo)
  | .replace _ => some (mbo.isBid, ob.msgIndex mbo)
  | .requeue ref _ => some (ref.isBid, ref.index)
  | _ => none

def backNode : Effect → Node Order
  | .requeue ref size => ⟨ref.it, mbo.orderId, size⟩
  | _ => ⟨ob.nextNode, mbo.orderId, mbo.size⟩

def back (e : Effect) (b : Bool) (i : ℕ) : Nodes Order :=
  if ob.backSlot mbo e = some (b, i) then [ob.backNode mbo e] else []

/-- The message lets the order of its id grow at its old price. -/
def Grows (ref : Ref) : Prop := mbo.action = 'M' ∧ ob.lookup mbo.orderId = some ref ∧
  mbo.price = ref.price ∧ ob.sizeAt ref < mbo.size

/-- The message puts its order at the back of a queue: at the price of the message, or where the
order rests already if it grows there. -/
def PutsBack (b : Bool) (i : ℕ) : Prop :=
  mbo.Sided ∧ (ob.PlacesOrder mbo ∧ b = mbo.isBid ∧ i = ob.msgIndex mbo ∨
    ∃ ref, ob.Grows mbo ref ∧ b = ref.isBid ∧ i = ref.index)

end Backs

section Revisions

variable {ob : OrderBook} {mbo : MboMsg} {b : Bool} {i : ℕ} {id : UInt64} {ref : Ref}

theorem back_of_slot {e : Effect} (hslot : ob.backSlot mbo e = some (b, i)) :
    ob.back mbo e b i = [ob.backNode mbo e] := if_pos hslot

theorem back_of_ne {e : Effect} (hslot : ob.backSlot mbo e ≠ some (b, i)) :
    ob.back mbo e b i = [] := if_neg hslot

theorem WellFormed.notMem_addrs (h : ob.WellFormed) (href : ob.lookup id = some ref)
    (hslot : ¬ (b = ref.isBid ∧ i = ref.index)) : ref.it ∉ (ob.queue b i).addrs := by
  intro hmem
  obtain ⟨o, ho⟩ := Nodes.mem_addrs.mp hmem
  exact hslot (h.addr_slot _ _ _ _ _ _ ho (h.node_mem href) rfl)

/-- A revision at the entry of an id is seen in the queue of that entry only. -/
theorem WellFormed.revise_eq (h : ob.WellFormed) (href : ob.lookup id = some ref)
    (x : Option Order) : (ob.queue b i).revise ref.it x =
      if b = ref.isBid ∧ i = ref.index then (ob.queue ref.isBid ref.index).revise ref.it x
      else ob.queue b i := by
  by_cases hslot : b = ref.isBid ∧ i = ref.index
  · rw [if_pos hslot, hslot.1, hslot.2]
  · rw [if_neg hslot, Nodes.revise_of_notMem (h.notMem_addrs href hslot)]

theorem WellFormed.queue_remove_eq (h : ob.WellFormed) (href : ob.lookup id = some ref) :
    (ob.remove id ref).queue b i = (ob.queue b i).revise ref.it none := by
  rw [h.revise_eq href, h.queue_remove href, Nodes.revise_none]

theorem WellFormed.queue_place_eq (h : ob.WellFormed) {b' : Bool} {i' : ℕ}
    (hi : i' < ob.config.numLevels) : (ob.place mbo b' i').queue b i =
      ob.queue b i ++ if some (b', i') = some (b, i)
        then [⟨ob.nextNode, mbo.orderId, mbo.size⟩] else [] := by
  rw [h.queue_place hi]
  by_cases hslot : b = b' ∧ i = i'
  · rw [if_pos hslot, if_pos (by rw [hslot.1, hslot.2]), hslot.1, hslot.2]
    rfl
  · rw [if_neg hslot, if_neg, List.append_nil]
    intro heq
    cases heq
    exact hslot ⟨rfl, rfl⟩

theorem effect_ne_clear (hreset : mbo.action ≠ 'R') : ob.effect mbo ≠ .clear := by
  by_cases hs : mbo.Sided
  · rw [effect_of_sided hs]
    simp only [takeEffect, fillEffect, modifyEffect]
    repeat' split
    all_goals simp
  · simp [effect_of_not_sided hreset hs]

/-- Every queue is revised at the entry of the message, and one gets a node at its back. -/
theorem WellFormed.queue_perform (h : ob.WellFormed) (hreset : mbo.action ≠ 'R')
    (hi : ob.Indexed mbo) : (ob.perform mbo (ob.effect mbo)).queue b i =
      (ob.effect mbo).revise mbo.orderId (ob.queue b i) ++ ob.back mbo (ob.effect mbo) b i := by
  have href : ∀ ref, (ob.effect mbo).ref = some ref → ob.lookup mbo.orderId = some ref :=
    fun ref he => effect_ref he
  unfold Indexed at hi
  cases he : ob.effect mbo with
  | idle => simp [OrderBook.perform, Effect.revise, Effect.ref, back, backSlot]
  | clear => exact absurd he (effect_ne_clear hreset)
  | place => exact h.queue_place_eq (hi (by rw [he]; rfl))
  | remove ref =>
    simp only [OrderBook.perform, back, backSlot, reduceCtorEq, if_false, List.append_nil]
    exact h.queue_remove_eq (href ref (by rw [he]; rfl))
  | resize ref size =>
    have hknown := href ref (by rw [he]; rfl)
    simp only [OrderBook.perform, back, backSlot, reduceCtorEq, if_false, List.append_nil]
    simp only [Effect.revise, Effect.ref, Effect.remainder]
    rw [h.queue_resize hknown, h.revise_eq hknown, Nodes.revise_some]
  | requeue ref size =>
    have hknown := href ref (by rw [he]; rfl)
    simp only [OrderBook.perform, Effect.revise, Effect.ref, Effect.remainder]
    rw [h.queue_requeue hknown, h.revise_eq hknown]
    by_cases hslot : b = ref.isBid ∧ i = ref.index
    · rw [if_pos hslot, if_pos hslot, hslot.1, hslot.2, back_of_slot rfl, Nodes.revise_none]
      exact Nodes.spliceBack_write (h.addr_nodup _ _) (h.node_mem hknown) _
    · rw [if_neg hslot, if_neg hslot, back_of_ne, List.append_nil]
      intro heq
      cases heq
      exact hslot ⟨rfl, rfl⟩
  | replace ref =>
    have hknown := href ref (by rw [he]; rfl)
    have hlt : ob.msgIndex mbo < (ob.remove mbo.orderId ref).config.numLevels := by
      rw [config_remove]
      exact hi (by rw [he]; rfl)
    have hnext : (ob.remove mbo.orderId ref).nextNode = ob.nextNode := nextNode_setLevel ..
    simp only [OrderBook.perform]
    rw [(h.remove hknown).queue_place_eq hlt, h.queue_remove_eq hknown, hnext]
    rfl

theorem effect_eq_requeue_iff {size : UInt32} : ob.effect mbo = .requeue ref size ↔
    mbo.Sided ∧ ob.Grows mbo ref ∧ size = mbo.size := by
  constructor
  · intro he
    have hs : mbo.Sided := by
      by_contra hs
      by_cases ha : mbo.action = 'R'
      · simp [effect_reset ha] at he
      · simp [effect_of_not_sided ha hs] at he
    have ha : mbo.action = 'M' := by
      by_contra ha
      rw [effect_of_sided hs] at he
      simp only [takeEffect, fillEffect] at he
      repeat' split at he
      all_goals first | exact ha ‹_› | cases he
    rw [effect_modify hs ha, modifyEffect] at he
    cases href : ob.lookup mbo.orderId with
    | none => simp [href] at he
    | some ref' =>
      simp only [href] at he
      split at he
      · cases he
      · split at he
        · cases he
        · rename_i hprice
          split at he
          · rename_i hlt
            cases he
            exact ⟨hs, ⟨ha, href, not_not.mp hprice, hlt⟩, rfl⟩
          · split at he <;> cases he
  · rintro ⟨hs, ⟨ha, href, hprice, hlt⟩, rfl⟩
    have hzero : mbo.size ≠ 0 := by
      intro hzero
      simp [hzero] at hlt
    rw [effect_modify hs ha, modifyEffect, href]
    simp [hzero, hprice, hlt]

theorem backSlot_eq_some_iff :
    ob.backSlot mbo (ob.effect mbo) = some (b, i) ↔ ob.PutsBack mbo b i := by
  constructor
  · intro hslot
    cases he : ob.effect mbo with
    | place =>
      obtain ⟨hs, hplaces⟩ := effect_places_iff.mp (by rw [he]; rfl)
      rw [he] at hslot
      cases hslot
      exact ⟨hs, Or.inl ⟨hplaces, rfl, rfl⟩⟩
    | replace ref =>
      obtain ⟨hs, hplaces⟩ := effect_places_iff.mp (by rw [he]; rfl)
      rw [he] at hslot
      cases hslot
      exact ⟨hs, Or.inl ⟨hplaces, rfl, rfl⟩⟩
    | requeue ref size =>
      obtain ⟨hs, hgrows, _⟩ := effect_eq_requeue_iff.mp he
      rw [he] at hslot
      cases hslot
      exact ⟨hs, Or.inr ⟨ref, hgrows, rfl, rfl⟩⟩
    | idle => simp [he, backSlot] at hslot
    | clear => simp [he, backSlot] at hslot
    | remove ref => simp [he, backSlot] at hslot
    | resize ref size => simp [he, backSlot] at hslot
  · rintro ⟨hs, ⟨hplaces, rfl, rfl⟩ | ⟨ref, hgrows, rfl, rfl⟩⟩
    · have hp := effect_places_iff.mpr ⟨hs, hplaces⟩
      cases he : ob.effect mbo with
      | place => rfl
      | replace ref => rfl
      | idle => simp [he, Effect.places] at hp
      | clear => simp [he, Effect.places] at hp
      | remove ref => simp [he, Effect.places] at hp
      | resize ref size => simp [he, Effect.places] at hp
      | requeue ref size => simp [he, Effect.places] at hp
    · rw [effect_eq_requeue_iff.mpr ⟨hs, hgrows, rfl⟩]
      rfl

theorem lookup_perform_of_ne (hreset : mbo.action ≠ 'R') (hid : id ≠ mbo.orderId) :
    (ob.perform mbo (ob.effect mbo)).lookup id = ob.lookup id := by
  cases he : ob.effect mbo with
  | idle => rfl
  | clear => exact absurd he (effect_ne_clear hreset)
  | place => exact (lookup_place id).trans (if_neg hid)
  | remove ref => exact (lookup_remove id).trans (if_neg hid)
  | resize ref size => exact lookup_resize id
  | requeue ref size => exact lookup_requeue id
  | replace ref =>
    simp only [perform]
    rw [lookup_place, if_neg hid, lookup_remove, if_neg hid]

/-- The entry of an order that was put at the back is that of the back node. -/
theorem exists_lookup_of_putsBack (hback : ob.PutsBack mbo b i) :
    ∃ ref, (ob.perform mbo (ob.effect mbo)).lookup mbo.orderId = some ref ∧ ref.isBid = b ∧
      ref.index = i ∧ ob.backNode mbo (ob.effect mbo) = ⟨ref.it, mbo.orderId, mbo.size⟩ := by
  have hslot := backSlot_eq_some_iff.mpr hback
  cases he : ob.effect mbo with
  | place =>
    rw [he] at hslot
    cases hslot
    exact ⟨_, (lookup_place _).trans (if_pos rfl), rfl, rfl, rfl⟩
  | replace ref =>
    rw [he] at hslot
    cases hslot
    refine ⟨_, (lookup_place _).trans (if_pos rfl), rfl, ?_, ?_⟩
    · rfl
    · simp [backNode, OrderBook.remove, setQueue]
  | requeue ref size =>
    obtain ⟨_, ⟨_, href, _⟩, hsize⟩ := effect_eq_requeue_iff.mp he
    rw [he] at hslot
    cases hslot
    exact ⟨ref, (lookup_requeue _).trans href, rfl, rfl, by rw [hsize]; rfl⟩
  | idle => simp [he, backSlot] at hslot
  | clear => simp [he, backSlot] at hslot
  | remove ref => simp [he, backSlot] at hslot
  | resize ref size => simp [he, backSlot] at hslot

end Revisions

section Lowering

variable {ob : OrderBook} {mbo : MboMsg} {b : Bool} {i : ℕ}

/-- A message that may only take size off the book. -/
def Lowers (mbo : MboMsg) : Prop :=
  mbo.action = 'C' ∨ mbo.action = 'T' ∨ mbo.action = 'N' ∨ mbo.action = 'F' ∨
    mbo.action = 'M' ∧ mbo.size = 0

theorem takeEffect_cases : ob.takeEffect mbo = .idle ∨ (∃ ref, ob.takeEffect mbo = .remove ref) ∨
    ∃ ref size, ob.takeEffect mbo = .resize ref size ∧ size ≤ ob.sizeAt ref := by
  unfold takeEffect
  cases ob.lookup mbo.orderId with
  | none => exact Or.inl rfl
  | some ref =>
    by_cases hle : mbo.size ≥ ob.sizeAt ref
    · exact Or.inr (Or.inl ⟨ref, if_pos hle⟩)
    · refine Or.inr (Or.inr ⟨ref, _, if_neg hle, ?_⟩)
      have hsub := UInt32.toNat_sub_of_le _ _ (UInt32.le_of_lt (UInt32.not_le.mp hle))
      rw [UInt32.le_iff_toNat_le]
      omega

theorem Lowers.ne_reset (hw : Lowers mbo) : mbo.action ≠ 'R' := by
  intro hreset
  simp [Lowers, hreset] at hw

/-- Such a message removes or reduces an order, or does nothing; where it is a Modify of an unknown
id it places an order of size zero. -/
theorem effect_of_lowers (hw : Lowers mbo) :
    ob.effect mbo = .place ∧ mbo.size = 0 ∨ ob.effect mbo = .idle ∨
      (∃ ref, ob.effect mbo = .remove ref) ∨
      ∃ ref size, ob.effect mbo = .resize ref size ∧ size ≤ ob.sizeAt ref := by
  by_cases hs : mbo.Sided
  · rw [effect_of_sided hs]
    rcases hw with ha | ha | ha | ha | ⟨ha, hzero⟩
    · simp only [ha]
      exact Or.inr takeEffect_cases
    · simp only [ha]
      exact Or.inr takeEffect_cases
    · simp only [ha]
      exact Or.inr takeEffect_cases
    · simp only [ha, fillEffect]
      cases ob.lookup mbo.orderId with
      | none => exact Or.inr (Or.inl rfl)
      | some ref => exact Or.inr (Or.inr (Or.inl ⟨ref, rfl⟩))
    · simp only [ha, modifyEffect]
      cases ob.lookup mbo.orderId with
      | none => exact Or.inl ⟨rfl, hzero⟩
      | some ref => exact Or.inr (Or.inr (Or.inl ⟨ref, if_pos hzero⟩))
  · exact Or.inr (Or.inl (effect_of_not_sided hw.ne_reset hs))

/-- It adds to no level. -/
theorem WellFormed.sizesOf_lowers (h : ob.WellFormed) (hw : Lowers mbo)
    (hi : ob.Indexed mbo) :
    sizesOf ((ob.perform mbo (ob.effect mbo)).queue b i) ≤ sizesOf (ob.queue b i) := by
  have href : ∀ ref, (ob.effect mbo).ref = some ref → ob.lookup mbo.orderId = some ref :=
    fun ref he => effect_ref he
  unfold Indexed at hi
  rcases ob.effect_of_lowers hw with ⟨he, hzero⟩ | he | ⟨ref, he⟩ | ⟨ref, size, he, hle⟩
  · rw [he] at hi ⊢
    simp only [OrderBook.perform]
    rw [h.queue_place (hi rfl)]
    split
    · rename_i hslot
      rw [sizesOf_pushBack, hzero, hslot.1, hslot.2]
      exact Nat.le_refl _
    · exact Nat.le_refl _
  · rw [he]
    exact Nat.le_refl _
  · have hknown := href ref (by rw [he]; rfl)
    have hsum := sizesOf_erase (h.addr_nodup _ _) (h.node_mem hknown)
    rw [he]
    simp only [OrderBook.perform]
    rw [h.queue_remove hknown]
    split
    · rename_i hslot
      rw [hslot.1, hslot.2]
      omega
    · exact Nat.le_refl _
  · have hknown := href ref (by rw [he]; rfl)
    have hsum := sizesOf_write (h.addr_nodup _ _) (h.node_mem hknown) ⟨mbo.orderId, size⟩
    have hle' := UInt32.le_iff_toNat_le.mp hle
    rw [he]
    simp only [OrderBook.perform]
    rw [h.queue_resize hknown]
    split
    · rename_i hslot
      rw [hslot.1, hslot.2]
      simp only at hsum
      omega
    · exact Nat.le_refl _

end Lowering

section Framing

/-- The node is not the one that the table holds for the id. -/
def Other (ob : OrderBook) (id : UInt64) (n : Node Order) : Prop :=
  ∀ ref, ob.lookup id = some ref → n.addr ≠ ref.it

/-- The level is not that of the order that the table holds for the id. -/
def Elsewhere (ob : OrderBook) (id : UInt64) (b : Bool) (i : ℕ) : Prop :=
  ∀ ref, ob.lookup id = some ref → ¬ (b = ref.isBid ∧ i = ref.index)

/-- What `mbo` leaves as it was, from `ob` to `ob'`, and where it puts its order. -/
structure Framed (ob : OrderBook) (mbo : MboMsg) (ob' : OrderBook) : Prop where
  stays : ∀ b i, ∀ n ∈ ob.queue b i, ob.Other mbo.orderId n → n ∈ ob'.queue b i
  ordered : ∀ b i n n', ob.Other mbo.orderId n → ob.Other mbo.orderId n' →
    [n, n'].Sublist (ob.queue b i) → [n, n'].Sublist (ob'.queue b i)
  behind : ∀ b i, ob.PutsBack mbo b i → ∃ ref front, ob'.lookup mbo.orderId = some ref ∧
    ref.isBid = b ∧ ref.index = i ∧
    ob'.queue b i = front ++ [⟨ref.it, mbo.orderId, mbo.size⟩] ∧
    ∀ n ∈ ob.queue b i, ob.Other mbo.orderId n → n ∈ front
  /-- No other message adds a node to a queue or moves one. -/
  still : ∀ b i, ¬ ob.PutsBack mbo b i → (ob'.queue b i).addrs.Sublist (ob.queue b i).addrs
  lookups : ∀ id, id ≠ mbo.orderId → ob'.lookup id = ob.lookup id
  totals : ∀ b i, ob.Elsewhere mbo.orderId b i → ob'.Elsewhere mbo.orderId b i →
    (ob'.level b i).totalSize = (ob.level b i).totalSize
  /-- The total wraps at 2^64. -/
  shrinks : Lowers mbo → ∀ b i, sizesOf (ob'.queue b i) ≤ sizesOf (ob.queue b i) ∧
    (sizesOf (ob.queue b i) < 2 ^ 64 → (ob'.level b i).totalSize ≤ (ob.level b i).totalSize)

variable {ob : OrderBook} {mbo : MboMsg} {b : Bool} {i : ℕ} {n n' : Node Order}

theorem mem_revise_of_other (ho : ob.Other mbo.orderId n) (hn : n ∈ ob.queue b i) :
    n ∈ (ob.effect mbo).revise mbo.orderId (ob.queue b i) := by
  unfold Effect.revise
  split
  · exact hn
  · rename_i ref he
    exact Nodes.mem_revise_of_ne hn (ho ref (effect_ref he))

theorem pair_sublist_of_other (ho : ob.Other mbo.orderId n) (ho' : ob.Other mbo.orderId n')
    (hl : [n, n'].Sublist (ob.queue b i)) :
    [n, n'].Sublist ((ob.effect mbo).revise mbo.orderId (ob.queue b i)) := by
  unfold Effect.revise
  split
  · exact hl
  · rename_i ref he
    exact Nodes.pair_sublist_revise hl (ho ref (effect_ref he)) (ho' ref (effect_ref he))

theorem addrs_effect_revise_sublist (e : Effect) (id : UInt64) (q : Nodes Order) :
    (e.revise id q).addrs.Sublist q.addrs := by
  unfold Effect.revise
  split
  · exact List.Sublist.refl _
  · exact Nodes.addrs_revise_sublist ..

theorem WellFormed.effect_revise_of_elsewhere (h : ob.WellFormed)
    (hout : ob.Elsewhere mbo.orderId b i) :
    (ob.effect mbo).revise mbo.orderId (ob.queue b i) = ob.queue b i := by
  unfold Effect.revise
  split
  · rfl
  · rename_i ref he
    exact Nodes.revise_of_notMem (h.notMem_addrs (effect_ref he) (hout ref (effect_ref he)))

theorem WellFormed.total_le_of_sizesOf_le {ob' : OrderBook} (h : ob.WellFormed)
    (h' : ob'.WellFormed) (hle : sizesOf (ob'.queue b i) ≤ sizesOf (ob.queue b i))
    (hlt : sizesOf (ob.queue b i) < 2 ^ 64) :
    (ob'.level b i).totalSize ≤ (ob.level b i).totalSize := by
  rw [UInt64.le_iff_toNat_le, h.total_toNat, h'.total_toNat, Nat.mod_eq_of_lt hlt,
    Nat.mod_eq_of_lt (by omega)]
  exact hle

theorem WellFormed.framed (h : ob.WellFormed) (hreset : mbo.action ≠ 'R') (hi : ob.Indexed mbo) :
    ob.Framed mbo (ob.perform mbo (ob.effect mbo)) := by
  have hqueue : ∀ b i, _ = _ ++ _ := fun b i => h.queue_perform (b := b) (i := i) hreset hi
  constructor
  · intro b i n hn ho
    rw [hqueue]
    exact List.mem_append_left _ (mem_revise_of_other ho hn)
  · intro b i n n' ho ho' hl
    rw [hqueue]
    exact (pair_sublist_of_other ho ho' hl).trans (List.sublist_append_left ..)
  · intro b i hback
    obtain ⟨ref, href, hb, hi, hnode⟩ := exists_lookup_of_putsBack hback
    refine ⟨ref, _, href, hb, hi, ?_, fun n hn ho => mem_revise_of_other ho hn⟩
    rw [hqueue, back_of_slot (backSlot_eq_some_iff.mpr hback), hnode]
  · intro b i hback
    rw [hqueue, back_of_ne (mt backSlot_eq_some_iff.mp hback), List.append_nil]
    exact addrs_effect_revise_sublist ..
  · intro id hid
    exact lookup_perform_of_ne hreset hid
  · intro b i hold hnew
    have hback : ¬ ob.PutsBack mbo b i := by
      intro hback
      obtain ⟨ref, href, hb, hi, _⟩ := exists_lookup_of_putsBack hback
      exact hnew ref href ⟨hb.symm, hi.symm⟩
    rw [(h.perform hi).total_eq, h.total_eq, hqueue,
      back_of_ne (mt backSlot_eq_some_iff.mp hback), List.append_nil,
      h.effect_revise_of_elsewhere hold]
  · intro hw b i
    have hle := h.sizesOf_lowers hw hi (b := b) (i := i)
    exact ⟨hle, h.total_le_of_sizesOf_le (h.perform hi) hle⟩

end Framing

section Reachable

variable {priceMin priceMax tick : Int64} {ob₀ ob : OrderBook} {msgs : List MboMsg} {mbo : MboMsg}

theorem bookOf_of_run (hnew : new priceMin priceMax tick = some ob₀)
    (hrun : ob₀.run msgs = .ok ob) : BookOf ob₀.config ob := by
  refine run_invariant ?_ (bookOf_new hnew) hrun
  rintro ob mbo ob' ⟨hwf, hconfig⟩ hok
  exact ⟨hwf.step hok, (hwf.config_step hok).trans hconfig⟩

/-- In every reachable state a message other than a reset is framed, and is applied if its price
is in range. -/
theorem framed_of_run (hnew : new priceMin priceMax tick = some ob₀)
    (hrun : ob₀.run msgs = .ok ob) (hreset : mbo.action ≠ 'R') :
    (∀ ob', ob.step mbo = .ok ob' → ob.Framed mbo ob') ∧
      (0 < tick → priceMin ≤ priceMax → PriceInRange ob₀.config mbo →
        ∃ ob', ob.step mbo = .ok ob') := by
  obtain ⟨h, hconfig⟩ := bookOf_of_run hnew hrun
  constructor
  · intro ob' hok
    obtain ⟨hi, rfl⟩ := h.step_ok_iff.mp hok
    exact h.framed hreset hi
  · intro ht hp hrange
    rw [← hconfig] at hrange
    have hc : ob.config.Valid := by
      rw [hconfig]
      exact valid_new hnew ht hp
    exact ⟨_, h.step_of_indexed (hrange.indexes hc).indexed⟩

/-- The second of two bids moves to a level of the other side. -/
theorem framed_of_run_twoAdds : ∃ ob,
    threeLevels.run [⟨1, 100, 5, 'A', 'B'⟩, ⟨2, 100, 4, 'A', 'B'⟩] = .ok ob ∧
    (∀ ob', ob.step ⟨2, 200, 9, 'M', 'A'⟩ = .ok ob' → ob.Framed ⟨2, 200, 9, 'M', 'A'⟩ ob') ∧
      ((0 : Int64) < 100 → (0 : Int64) ≤ 200 →
        PriceInRange threeLevels.config ⟨2, 200, 9, 'M', 'A'⟩ →
        ∃ ob', ob.step ⟨2, 200, 9, 'M', 'A'⟩ = .ok ob') := by
  obtain ⟨ob, hrun, _⟩ := (bookOf_new new_threeLevels).run
    (by decide : ∀ mbo ∈ [(⟨1, 100, 5, 'A', 'B'⟩ : MboMsg), ⟨2, 100, 4, 'A', 'B'⟩], Indexes _ mbo)
  exact ⟨ob, hrun, framed_of_run new_threeLevels hrun (by decide)⟩

end Reachable

section Overfull

/-- One id, added again and again with the largest size. -/
def fullAdd : MboMsg := ⟨7, 0, 4294967295, 'A', 'B'⟩

def fullCancel : MboMsg := ⟨7, 0, 4294967295, 'C', 'B'⟩

/-- `n` orders of the largest size rest in the first bid level, and one is known. -/
structure Filled (n : ℕ) (ob : OrderBook) : Prop where
  bookOf : BookOf threeLevels.config ob
  sizes : sizesOf (ob.queue true 0) = n * 4294967295
  known : 0 < n → ∃ ref, ob.lookup 7 = some ref ∧ ref.isBid = true ∧ ref.index = 0 ∧
    ob.sizeAt ref = 4294967295

theorem Filled.step {n : ℕ} {ob : OrderBook} (hf : Filled n ob) :
    ∃ ob', ob.step fullAdd = .ok ob' ∧ Filled (n + 1) ob' := by
  obtain ⟨⟨h, hconfig⟩, hsizes, _⟩ := hf
  have hm : Indexes ob.config fullAdd := by
    rw [hconfig]
    decide
  have hindex : ob.msgIndex fullAdd = 0 := by
    rw [msgIndex, hconfig]
    decide
  have hlt : ob.msgIndex fullAdd < ob.config.numLevels := by
    rw [hindex, hconfig]
    decide
  have hplace : ob.effect fullAdd = .place := effect_add (by decide) rfl
  have hstep := h.step_of_indexed hm.indexed
  have h' := h.perform hm.indexed
  rw [hplace] at hstep h'
  refine ⟨_, hstep, ⟨h', (config_perform ..).trans hconfig⟩, ?_, fun _ => ?_⟩
  · simp only [perform]
    rw [h.queue_place hlt, if_pos ⟨rfl, hindex.symm⟩, sizesOf_pushBack, hindex]
    change sizesOf (ob.queue true 0) + 4294967295 = _
    omega
  · have href : (ob.perform fullAdd .place).lookup 7 = some ⟨true, ob.msgIndex fullAdd,
        ob.nextNode, 0⟩ := (lookup_place _).trans (if_pos rfl)
    refine ⟨_, href, rfl, hindex, ?_⟩
    have hplaces : (ob.effect fullAdd).places := by
      rw [hplace]
      rfl
    have hnode := h.exists_placed hplaces hm.indexed
    rw [hplace] at hnode
    have hval := Nodes.node_unique (h'.addr_nodup _ _) (h'.node_mem href) hnode
    exact congrArg Order.size hval

theorem exists_filled (n : ℕ) :
    ∃ ob, threeLevels.run (List.replicate n fullAdd) = .ok ob ∧ Filled n ob := by
  have hgrow : ∀ k ob, Filled k ob →
      ∃ ob', ob.run (List.replicate n fullAdd) = .ok ob' ∧ Filled (k + n) ob' := by
    induction n with
    | zero => exact fun k ob hf => ⟨ob, rfl, hf⟩
    | succ n ih =>
      intro k ob hf
      obtain ⟨ob₁, hok, hf₁⟩ := hf.step
      obtain ⟨ob', hrun, hf'⟩ := ih (k + 1) ob₁ hf₁
      refine ⟨ob', ?_, by rwa [Nat.add_assoc, Nat.add_comm 1] at hf'⟩
      rw [List.replicate_succ, run, run_cons_of_ok hok]
      exact hrun
  have hempty : Filled 0 threeLevels :=
    ⟨bookOf_new new_threeLevels, rfl, fun hpos => absurd hpos (Nat.lt_irrefl 0)⟩
  simpa using hgrow 0 threeLevels hempty

theorem size_add_inj {size : UInt32} {left : ℕ} (hsize : size = 4294967295)
    (hsum : size.toNat + left = 4294967298 * 4294967295) : left = 18446744073709551615 := by
  have hone : size.toNat = 4294967295 := by
    rw [hsize]
    rfl
  omega

/-- A level of more than 2^32 orders can hold more than its total can count, and a Cancel then
makes the total larger. -/
theorem not_shrinks_overfull : ∃ ob ob',
    threeLevels.run (List.replicate 4294967298 fullAdd) = .ok ob ∧
      PriceInRange threeLevels.config fullCancel ∧ ob.step fullCancel = .ok ob' ∧
      ¬ (ob'.level true 0).totalSize ≤ (ob.level true 0).totalSize := by
  obtain ⟨ob, hrun, ⟨h, hconfig⟩, hsizes, hknown⟩ := exists_filled 4294967298
  obtain ⟨ref, href, hb, hi, hsize⟩ := hknown (by decide)
  have href' : ob.lookup fullCancel.orderId = some ref := href
  have heffect : ob.effect fullCancel = .remove ref := by
    rw [effect_cancel (by decide) rfl, takeEffect, href']
    exact if_pos (by rw [hsize]; decide)
  have hindexed : ob.Indexed fullCancel := by
    intro hp
    rw [heffect] at hp
    cases hp
  have h' := h.perform hindexed
  have hstep := h.step_of_indexed hindexed
  rw [heffect] at hstep h'
  refine ⟨ob, _, hrun, by decide, hstep, ?_⟩
  have hsum := sizesOf_erase (h.addr_nodup _ _) (h.node_mem href)
  have hqueue := h.queue_remove href true 0
  rw [if_pos ⟨hb.symm, hi.symm⟩] at hqueue
  rw [← hqueue, hb, hi, hsizes] at hsum
  have hleft : sizesOf ((ob.remove 7 ref).queue true 0) = 18446744073709551615 :=
    size_add_inj hsize hsum
  rw [UInt64.le_iff_toNat_le, h.total_toNat, h'.total_toNat, hsizes]
  change ¬ sizesOf ((ob.remove 7 ref).queue true 0) % _ ≤ _
  rw [hleft]
  decide

end Overfull

end OrderBook

end OrderBookServer
