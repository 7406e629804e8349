import OrderBookServer.Effects

/-!
On a well-formed book `apply` performs the effect of the message, or faults
exactly when it would place an order past the level arrays. Every iterator it
follows is valid, and its subtractions stay within what they subtract from.
-/
namespace OrderBookServer.OrderBook

open NodeList

/-- Order sizes never go below zero, and a total is reduced by at most the sum
of the sizes in its queue. -/
def Modest (ob : OrderBook) : Subtraction → Prop
  | .orderSize value amount => amount ≤ value
  | .totalSize value amount =>
    ∃ b i, value = (ob.level b i).totalSize ∧ amount.toNat ≤ sizesOf (ob.queue b i)

/-- The computation ends in `ob'` and its subtractions are modest. -/
def Yields (ob : OrderBook) (x : Exec OrderBook) (ob' : OrderBook) : Prop :=
  ∃ subs, (∀ log, x.run log = .ok (ob', log ++ subs)) ∧ ∀ s ∈ subs, ob.Modest s

namespace Yields

variable {ob ob' : OrderBook}

theorem pure (ob ob' : OrderBook) : ob.Yields (pure ob') ob' := by
  refine ⟨[], fun log => ?_, by simp⟩
  rw [List.append_nil]
  rfl

theorem subOrderSize {value amount : UInt32} {k : UInt32 → Exec OrderBook}
    (hle : amount ≤ value) (hk : ob.Yields (k (value - amount)) ob') :
    ob.Yields (subOrderSize value amount >>= k) ob' := by
  obtain ⟨subs, hrun, hmodest⟩ := hk
  refine ⟨.orderSize value amount :: subs, fun log => ?_, ?_⟩
  · change (k (value - amount)).run (log ++ [.orderSize value amount]) = _
    rw [hrun, List.append_assoc, List.singleton_append]
  · intro s hs
    rcases List.mem_cons.mp hs with rfl | hs
    · exact hle
    · exact hmodest s hs

theorem subTotalSize {b : Bool} {i : ℕ} {amount : UInt64} {k : UInt64 → Exec OrderBook}
    (hle : amount.toNat ≤ sizesOf (ob.queue b i))
    (hk : ob.Yields (k ((ob.level b i).totalSize - amount)) ob') :
    ob.Yields (subTotalSize (ob.level b i).totalSize amount >>= k) ob' := by
  obtain ⟨subs, hrun, hmodest⟩ := hk
  refine ⟨.totalSize (ob.level b i).totalSize amount :: subs, fun log => ?_, ?_⟩
  · change (k ((ob.level b i).totalSize - amount)).run (log ++ [.totalSize _ amount]) = _
    rw [hrun, List.append_assoc, List.singleton_append]
  · intro s hs
    rcases List.mem_cons.mp hs with rfl | hs
    · exact ⟨b, i, rfl, hle⟩
    · exact hmodest s hs

theorem bind {ob₁ : OrderBook} {x : Exec OrderBook} {k : OrderBook → Exec OrderBook}
    (hx : ob.Yields x ob₁) (hk : ob.Yields (k ob₁) ob') : ob.Yields (x >>= k) ob' := by
  obtain ⟨subs, hrun, hmodest⟩ := hx
  obtain ⟨subs', hrun', hmodest'⟩ := hk
  refine ⟨subs ++ subs', fun log => ?_, ?_⟩
  · rw [StateT.run_bind, hrun, ← List.append_assoc]
    exact hrun' _
  · intro s hs
    rcases List.mem_append.mp hs with hs | hs
    · exact hmodest s hs
    · exact hmodest' s hs

end Yields

section Reads

variable {ob : OrderBook} {b : Bool} {i : ℕ} {l : Level} {a : ℕ} {o : Order}

theorem getSide_of_lt (h : i < (ob.side b).length) : ob.getSide b i = pure (ob.level b i) := by
  simp [getSide, level, List.getD_eq_getElem?_getD, h]

theorem getSide_of_length_le (h : (ob.side b).length ≤ i) :
    ob.getSide b i = throw .levelIndex := by
  simp [getSide, h]

theorem readOrder_of_mem (hl : l.queue.addrs.Nodup) (ho : (⟨a, o⟩ : Node Order) ∈ l.queue) :
    readOrder l a = pure o := by
  simp [readOrder, (Nodes.read_eq_some_iff hl).mpr ho]

theorem eraseNode_of_mem (ho : (⟨a, o⟩ : Node Order) ∈ l.queue) :
    eraseNode l a = pure (l.queue.erase a) := by
  simp [eraseNode, Nodes.mem_addrs.mpr ⟨o, ho⟩]

end Reads

theorem setLevel_with_ordersRef (ob : OrderBook) (b : Bool) (i : ℕ) (l : Level) :
    { ob.setLevel b i l with ordersRef := ob.ordersRef } = ob.setLevel b i l := by
  cases b <;> rfl

theorem insert_same_ref {ob : OrderBook} {id : UInt64} {ref : Ref}
    (href : ob.lookup id = some ref) :
    ob.ordersRef.insert id ref = ob.ordersRef := by
  apply Finmap.ext_lookup
  intro x
  by_cases hx : x = id
  · subst hx
    exact (Finmap.lookup_insert _).trans href.symm
  · exact Finmap.lookup_insert_of_ne _ hx

namespace WellFormed

variable {ob : OrderBook} {b : Bool} {i : ℕ} {id : UInt64} {ref : Ref} {mbo : MboMsg}
variable (h : ob.WellFormed)
include h

theorem total_eq (b : Bool) (i : ℕ) :
    (ob.level b i).totalSize = UInt64.ofNat (sizesOf (ob.queue b i)) :=
  congrArg Level.totalSize (h.level_eq b i)

theorem total_toNat (b : Bool) (i : ℕ) :
    (ob.level b i).totalSize.toNat = sizesOf (ob.queue b i) % 2 ^ 64 := by
  rw [h.total_eq]
  exact UInt64.toNat_ofNat ..

theorem add_of_lt (hi : i < ob.config.numLevels) : ob.add mbo b i = pure (ob.place mbo b i) := by
  have hget : ob.getSide b i = pure (ob.level b i) := getSide_of_lt (by rwa [h.length_eq])
  have htotal : (ob.level b i).totalSize + mbo.size.toUInt64 =
      UInt64.ofNat (sizesOf ((ob.queue b i).pushBack ob.nextNode ⟨mbo.orderId, mbo.size⟩)) := by
    rw [sizesOf_pushBack, UInt64.ofNat_add, h.total_eq, UInt64.ofNat_uInt32ToNat]
  simp only [add, hget, pure_bind, htotal]
  rfl

theorem add_of_le (hi : ob.config.numLevels ≤ i) : ob.add mbo b i = throw .levelIndex := by
  have hget : ob.getSide b i = throw .levelIndex := getSide_of_length_le (by rwa [h.length_eq])
  simp only [add, hget]
  rfl

/-- What the three first statements of every operation on a known order read. -/
theorem reads (href : ob.lookup id = some ref) :
    ob.getSide ref.isBid ref.index = pure (ob.level ref.isBid ref.index) ∧
      readOrder (ob.level ref.isBid ref.index) ref.it = pure ⟨id, ob.sizeAt ref⟩ :=
  ⟨getSide_of_lt (h.index_lt href),
    readOrder_of_mem (h.addr_nodup _ _) (h.node_mem href)⟩

theorem size_le_sizes (href : ob.lookup id = some ref) :
    (ob.sizeAt ref).toNat ≤ sizesOf (ob.queue ref.isBid ref.index) := by
  have hsum := sizesOf_erase (h.addr_nodup _ _) (h.node_mem href)
  simp only at hsum
  omega

/-- Writing a size reduced by `cut` takes `cut` off the total. -/
theorem total_write_sub (href : ob.lookup id = some ref) {size cut : UInt32}
    (hcut : size.toNat + cut.toNat = (ob.sizeAt ref).toNat) :
    (ob.level ref.isBid ref.index).totalSize - cut.toUInt64 = UInt64.ofNat (sizesOf
      ((ob.queue ref.isBid ref.index).write ref.it ⟨id, size⟩)) := by
  have hsum := sizesOf_write (h.addr_nodup _ _) (h.node_mem href) ⟨id, size⟩
  simp only at hsum
  have hle := h.size_le_sizes href
  have heq : sizesOf (ob.queue ref.isBid ref.index) = sizesOf
      ((ob.queue ref.isBid ref.index).write ref.it ⟨id, size⟩) + cut.toNat := by omega
  rw [h.total_eq, heq, UInt64.ofNat_add, UInt64.ofNat_uInt32ToNat, UInt64.add_sub_cancel]

/-- Writing a size increased by `growth` adds `growth` to the total. -/
theorem total_write_add (href : ob.lookup id = some ref) {size growth : UInt32}
    (hgrowth : (ob.sizeAt ref).toNat + growth.toNat = size.toNat) :
    (ob.level ref.isBid ref.index).totalSize + growth.toUInt64 = UInt64.ofNat (sizesOf
      (((ob.queue ref.isBid ref.index).write ref.it ⟨id, size⟩).spliceBack ref.it)) := by
  have hsum := sizesOf_write (h.addr_nodup _ _) (h.node_mem href) ⟨id, size⟩
  simp only at hsum
  have heq : sizesOf ((ob.queue ref.isBid ref.index).write ref.it ⟨id, size⟩) =
      sizesOf (ob.queue ref.isBid ref.index) + growth.toNat := by omega
  rw [sizesOf_spliceBack, heq, h.total_eq, UInt64.ofNat_add, UInt64.ofNat_uInt32ToNat]

theorem dropOrder_yields (href : ob.lookup id = some ref) :
    ob.Yields (ob.dropOrder id ref (ob.level ref.isBid ref.index) (ob.sizeAt ref))
      (ob.remove id ref) := by
  have herase := eraseNode_of_mem (l := ob.level ref.isBid ref.index) (h.node_mem href)
  have htotal : (ob.level ref.isBid ref.index).totalSize - (ob.sizeAt ref).toUInt64 =
      UInt64.ofNat (sizesOf ((ob.queue ref.isBid ref.index).erase ref.it)) := by
    have hsum := sizesOf_erase (h.addr_nodup _ _) (h.node_mem href)
    rw [h.total_eq, ← hsum, UInt64.ofNat_add, UInt64.ofNat_uInt32ToNat, UInt64.add_comm,
      UInt64.add_sub_cancel]
  refine Yields.subTotalSize ?_ ?_
  · rw [UInt32.toNat_toUInt64]
    exact h.size_le_sizes href
  · simp only [herase, pure_bind, htotal]
    exact Yields.pure ..

theorem takeSize_yields : ob.Yields (ob.takeSize mbo) (ob.perform mbo (ob.takeEffect mbo)) := by
  cases href : ob.lookup mbo.orderId with
  | none =>
    have hfind : ob.ordersRef.lookup mbo.orderId = none := href
    simp only [takeSize, takeEffect, hfind, href, perform]
    exact Yields.pure ob ob
  | some ref =>
    have hfind : ob.ordersRef.lookup mbo.orderId = some ref := href
    obtain ⟨hget, hread⟩ := h.reads href
    simp only [takeSize, takeEffect, hfind, href, hget, hread, pure_bind]
    by_cases hsize : mbo.size ≥ ob.sizeAt ref
    · simp only [if_pos hsize, perform]
      exact h.dropOrder_yields href
    · simp only [if_neg hsize, perform]
      have hlt : mbo.size.toNat < (ob.sizeAt ref).toNat := by
        simpa [UInt32.le_iff_toNat_le] using hsize
      have hle : mbo.size ≤ ob.sizeAt ref := UInt32.le_iff_toNat_le.mpr hlt.le
      have hsub := UInt32.toNat_sub_of_le _ _ hle
      have hcut : (ob.sizeAt ref - mbo.size).toNat + mbo.size.toNat = (ob.sizeAt ref).toNat := by
        omega
      have hsizes := h.size_le_sizes href
      refine Yields.subOrderSize hle (Yields.subTotalSize ?_ ?_)
      · rw [UInt32.toNat_toUInt64]
        omega
      · rw [h.total_write_sub href hcut]
        exact Yields.pure ..

theorem handleFullFill_yields :
    ob.Yields (ob.handleFullFill mbo) (ob.perform mbo (ob.fillEffect mbo)) := by
  cases href : ob.lookup mbo.orderId with
  | none =>
    have hfind : ob.ordersRef.lookup mbo.orderId = none := href
    simp only [handleFullFill, fillEffect, hfind, href, perform]
    exact Yields.pure ob ob
  | some ref =>
    have hfind : ob.ordersRef.lookup mbo.orderId = some ref := href
    obtain ⟨hget, hread⟩ := h.reads href
    simp only [handleFullFill, fillEffect, hfind, href, hget, hread, pure_bind, perform]
    exact h.dropOrder_yields href

/-- `modify` on a known id, in the order of its four cases. -/
theorem modify_yields_of_known (href : ob.lookup mbo.orderId = some ref)
    (hi : (ob.modifyEffect mbo).places → ob.msgIndex mbo < ob.config.numLevels) :
    ob.Yields (ob.modify mbo mbo.isBid (ob.msgIndex mbo))
      (ob.perform mbo (ob.modifyEffect mbo)) := by
  have hfind : ob.ordersRef.lookup mbo.orderId = some ref := href
  obtain ⟨hget, hread⟩ := h.reads href
  have hsizes := h.size_le_sizes href
  simp only [modifyEffect, href] at hi ⊢
  simp only [modify, hfind, hget, hread, pure_bind]
  by_cases hzero : mbo.size = 0
  · simp only [if_pos hzero, perform]
    exact h.dropOrder_yields href
  simp only [if_neg hzero] at hi ⊢
  by_cases hprice : mbo.price ≠ ref.price
  · simp only [if_pos hprice, perform] at hi ⊢
    refine (h.dropOrder_yields href).bind ?_
    rw [(h.remove href).add_of_lt (by simpa [Effect.places] using hi)]
    exact Yields.pure ..
  simp only [if_neg hprice]
  have hsame : ob.ordersRef.insert mbo.orderId { ref with price := mbo.price } = ob.ordersRef := by
    rw [not_not.mp hprice]
    exact insert_same_ref href
  rw [hsame]
  by_cases hgrow : mbo.size > ob.sizeAt ref
  · simp only [if_pos hgrow, perform]
    have hle : ob.sizeAt ref ≤ mbo.size := UInt32.le_of_lt hgrow
    have hle' := UInt32.le_iff_toNat_le.mp hle
    have hsub := UInt32.toNat_sub_of_le _ _ hle
    have hgrowth : (ob.sizeAt ref).toNat + (mbo.size - ob.sizeAt ref).toNat = mbo.size.toNat := by
      omega
    refine Yields.subOrderSize hle ?_
    rw [h.total_write_add href hgrowth, setLevel_with_ordersRef]
    exact Yields.pure ..
  simp only [if_neg hgrow]
  by_cases hshrink : mbo.size < ob.sizeAt ref
  · simp only [if_pos hshrink, perform]
    have hle : mbo.size ≤ ob.sizeAt ref := UInt32.le_of_lt hshrink
    have hle' := UInt32.le_iff_toNat_le.mp hle
    have hsub := UInt32.toNat_sub_of_le _ _ hle
    have hcut : mbo.size.toNat + (ob.sizeAt ref - mbo.size).toNat = (ob.sizeAt ref).toNat := by
      omega
    refine Yields.subOrderSize hle (Yields.subTotalSize ?_ ?_)
    · rw [UInt32.toNat_toUInt64]
      omega
    · rw [h.total_write_sub href hcut, setLevel_with_ordersRef]
      exact Yields.pure ..
  · simp only [if_neg hshrink, perform]
    exact Yields.pure ..

/-- `modify` on an unknown id is `add`. -/
theorem modify_yields (hi : (ob.modifyEffect mbo).places → ob.msgIndex mbo < ob.config.numLevels) :
    ob.Yields (ob.modify mbo mbo.isBid (ob.msgIndex mbo))
      (ob.perform mbo (ob.modifyEffect mbo)) := by
  cases href : ob.lookup mbo.orderId with
  | none =>
    have hfind : ob.ordersRef.lookup mbo.orderId = none := href
    simp only [modifyEffect, href] at hi ⊢
    simp only [modify, hfind, perform]
    rw [h.add_of_lt (hi rfl)]
    exact Yields.pure ..
  | some ref => exact h.modify_yields_of_known href hi

theorem mem_of_mem_remove (href : ob.lookup id = some ref) {n : Node Order}
    (hn : n ∈ (ob.remove id ref).queue b i) : n ∈ ob.queue b i := by
  rw [h.queue_remove href] at hn
  split at hn
  · rename_i hslot
    rw [hslot.1, hslot.2]
    exact (Nodes.mem_erase.mp hn).1
  · exact hn

/-- Unless it places an order past the level arrays, a message has its effect. -/
theorem apply_yields (hi : ob.Indexed mbo) :
    ob.Yields (ob.apply mbo) (ob.perform mbo (ob.effect mbo)) := by
  unfold Indexed at hi
  unfold apply
  by_cases hreset : mbo.action = 'R'
  · rw [if_pos hreset, effect_reset hreset]
    exact Yields.pure ..
  rw [if_neg hreset]
  by_cases hs : mbo.Sided
  · rw [if_neg hs.not_other]
    rw [effect_of_sided hs] at hi ⊢
    split <;> rename_i hact
    · simp only [hact] at hi ⊢
      exact h.takeSize_yields
    · simp only [hact] at hi ⊢
      exact h.handleFullFill_yields
    · simp only [hact] at hi ⊢
      exact h.takeSize_yields
    · simp only [hact] at hi ⊢
      change ob.Yields (ob.add mbo mbo.isBid (ob.msgIndex mbo)) _
      rw [h.add_of_lt (hi rfl)]
      exact Yields.pure ..
    · simp only [hact] at hi ⊢
      exact h.takeSize_yields
    · simp only [hact] at hi ⊢
      exact h.modify_yields hi
    · simp only
      exact Yields.pure ..
  · rw [if_pos (MboMsg.other_of_not_sided hreset hs), effect_of_not_sided hreset hs]
    exact Yields.pure ..

theorem step_of_indexed (hi : ob.Indexed mbo) :
    ob.step mbo = .ok (ob.perform mbo (ob.effect mbo)) := by
  obtain ⟨subs, hrun, _⟩ := h.apply_yields hi
  rw [step, hrun]
  rfl

theorem modify_run_of_le (hp : (ob.modifyEffect mbo).places)
    (hi : ob.config.numLevels ≤ ob.msgIndex mbo) (log : List Subtraction) :
    (ob.modify mbo mbo.isBid (ob.msgIndex mbo)).run log = .error .levelIndex := by
  cases href : ob.lookup mbo.orderId with
  | none =>
    have hfind : ob.ordersRef.lookup mbo.orderId = none := href
    simp only [modify, hfind, h.add_of_le hi]
    rfl
  | some ref =>
    have hfind : ob.ordersRef.lookup mbo.orderId = some ref := href
    obtain ⟨hget, hread⟩ := h.reads href
    simp only [modifyEffect, href] at hp
    simp only [modify, hfind, hget, hread, pure_bind]
    by_cases hzero : mbo.size = 0
    · simp [hzero, Effect.places] at hp
    by_cases hprice : mbo.price ≠ ref.price
    · obtain ⟨subs, hrun, _⟩ := h.dropOrder_yields href
      have hadd : (ob.remove mbo.orderId ref).add mbo mbo.isBid (ob.msgIndex mbo) =
          throw .levelIndex := (h.remove href).add_of_le (by simpa using hi)
      simp only [if_neg hzero, if_pos hprice, StateT.run_bind, hrun]
      exact congrArg (fun x : Exec OrderBook => x.run (log ++ subs)) hadd
    · simp only [if_neg hzero, if_neg hprice] at hp
      repeat' split at hp
      all_goals simp [Effect.places] at hp

/-- The one fault of a well-formed book: an order placed past the level arrays. -/
theorem step_of_not_indexed (hi : ¬ ob.Indexed mbo) : ob.step mbo = .error .levelIndex := by
  simp only [Indexed, Classical.not_imp, Nat.not_lt] at hi
  obtain ⟨hp, hle⟩ := hi
  have hs := sided_of_places hp
  have hrun : (ob.apply mbo).run [] = .error .levelIndex := by
    rw [apply, if_neg hs.1, if_neg hs.not_other]
    rcases action_of_places hp with hact | hact
    · simp only [hact]
      change (ob.add mbo mbo.isBid (ob.msgIndex mbo)).run [] = _
      rw [h.add_of_le hle]
      rfl
    · rw [effect_modify hs hact] at hp
      simp only [hact]
      exact h.modify_run_of_le hp hle []
  rw [step, hrun]
  rfl

theorem step_ok_iff {ob' : OrderBook} :
    ob.step mbo = .ok ob' ↔ ob.Indexed mbo ∧ ob' = ob.perform mbo (ob.effect mbo) := by
  by_cases hi : ob.Indexed mbo
  · rw [h.step_of_indexed hi]
    constructor
    · intro heq
      cases heq
      exact ⟨hi, rfl⟩
    · rintro ⟨_, rfl⟩
      rfl
  · rw [h.step_of_not_indexed hi]
    simp [hi]

theorem perform (hi : ob.Indexed mbo) : (ob.perform mbo (ob.effect mbo)).WellFormed := by
  unfold Indexed at hi
  have href : ∀ ref, (ob.effect mbo).ref = some ref → ob.lookup mbo.orderId = some ref :=
    fun ref he => effect_ref he
  cases he : ob.effect mbo with
  | idle => exact h
  | clear => exact h.clear
  | place => exact h.place (hi (by rw [he]; rfl)) rfl
  | remove ref => exact h.remove (href ref (by rw [he]; rfl))
  | resize ref size => exact h.resize (href ref (by rw [he]; rfl)) size
  | requeue ref size => exact h.requeue (href ref (by rw [he]; rfl)) size
  | replace ref =>
    refine (h.remove (href ref (by rw [he]; rfl))).place ?_ ?_
    · rw [config_remove]
      exact hi (by rw [he]; rfl)
    · rw [config_remove]
      rfl

/-- Where a node of the new book comes from: it was there before, or it is the node of the
message's id with the size that the effect gives it, rewritten in place or newly placed. -/
theorem mem_queue_perform (hi : ob.Indexed mbo) {n : Node Order}
    (hn : n ∈ (ob.perform mbo (ob.effect mbo)).queue b i) :
    n ∈ ob.queue b i ∨ (ob.effect mbo).size mbo = some n.val.size ∧
      (n.addr ∈ (ob.queue b i).addrs ∨ (ob.effect mbo).places ∧ n.addr = ob.nextNode) := by
  have href : ∀ ref, (ob.effect mbo).ref = some ref → ob.lookup mbo.orderId = some ref :=
    fun ref he => effect_ref he
  have hwrite : ∀ ref, ob.lookup mbo.orderId = some ref → ∀ size,
      n ∈ (if b = ref.isBid ∧ i = ref.index
        then (ob.queue ref.isBid ref.index).write ref.it ⟨mbo.orderId, size⟩
        else ob.queue b i) →
      n ∈ ob.queue b i ∨ some size = some n.val.size ∧ n.addr ∈ (ob.queue b i).addrs := by
    intro ref hknown size hn
    split at hn
    · rename_i hslot
      rw [hslot.1, hslot.2]
      rcases (Nodes.mem_write (h.node_mem hknown)).mp hn with ⟨hold, _⟩ | rfl
      · exact Or.inl hold
      · exact Or.inr ⟨rfl, Nodes.mem_addrs.mpr ⟨_, h.node_mem hknown⟩⟩
    · exact Or.inl hn
  unfold Indexed at hi
  cases he : ob.effect mbo with
  | idle =>
    rw [he] at hn
    exact Or.inl hn
  | clear => simp [he, OrderBook.perform] at hn
  | place =>
    simp only [he, OrderBook.perform] at hn
    rw [h.queue_place (hi (by rw [he]; rfl))] at hn
    split at hn
    · rename_i hslot
      rcases Nodes.mem_pushBack.mp hn with hold | rfl
      · rw [hslot.1, hslot.2]
        exact Or.inl hold
      · exact Or.inr ⟨rfl, Or.inr ⟨rfl, rfl⟩⟩
    · exact Or.inl hn
  | remove ref =>
    simp only [he, OrderBook.perform] at hn
    exact Or.inl (h.mem_of_mem_remove (href ref (by rw [he]; rfl)) hn)
  | resize ref size =>
    have hknown := href ref (by rw [he]; rfl)
    simp only [he, OrderBook.perform] at hn
    rw [h.queue_resize hknown] at hn
    rcases hwrite ref hknown size hn with hold | ⟨hsize, haddr⟩
    · exact Or.inl hold
    · exact Or.inr ⟨hsize, Or.inl haddr⟩
  | requeue ref size =>
    have hknown := href ref (by rw [he]; rfl)
    simp only [he, OrderBook.perform] at hn
    rw [h.queue_requeue hknown] at hn
    have hn' : n ∈ if b = ref.isBid ∧ i = ref.index
        then (ob.queue ref.isBid ref.index).write ref.it ⟨mbo.orderId, size⟩
        else ob.queue b i := by
      split at hn
      · rename_i hslot
        rw [if_pos hslot]
        exact Nodes.mem_spliceBack.mp hn
      · rename_i hslot
        rwa [if_neg hslot]
    rcases hwrite ref hknown size hn' with hold | ⟨hsize, haddr⟩
    · exact Or.inl hold
    · exact Or.inr ⟨hsize, Or.inl haddr⟩
  | replace ref =>
    have hknown := href ref (by rw [he]; rfl)
    have hlt : ob.msgIndex mbo < (ob.remove mbo.orderId ref).config.numLevels := by
      rw [config_remove]
      exact hi (by rw [he]; rfl)
    have hnext : (ob.remove mbo.orderId ref).nextNode = ob.nextNode := nextNode_setLevel ..
    simp only [he, OrderBook.perform] at hn
    rw [(h.remove hknown).queue_place hlt, hnext] at hn
    split at hn
    · rename_i hslot
      rcases Nodes.mem_pushBack.mp hn with hold | rfl
      · rw [hslot.1, hslot.2]
        exact Or.inl (h.mem_of_mem_remove hknown hold)
      · exact Or.inr ⟨rfl, Or.inr ⟨rfl, rfl⟩⟩
    · exact Or.inl (h.mem_of_mem_remove hknown hn)

/-- The address of a node of the new book was in its queue before, or is that of a new node. -/
theorem addr_mem_queue_perform (hi : ob.Indexed mbo) {n : Node Order}
    (hn : n ∈ (ob.perform mbo (ob.effect mbo)).queue b i) :
    n.addr ∈ (ob.queue b i).addrs ∨ (ob.effect mbo).places ∧ n.addr = ob.nextNode := by
  rcases h.mem_queue_perform hi hn with hold | ⟨_, haddr⟩
  · exact Or.inl (List.mem_map_of_mem hold)
  · exact haddr

theorem step {ob' : OrderBook} (hok : ob.step mbo = .ok ob') : ob'.WellFormed := by
  obtain ⟨hi, rfl⟩ := h.step_ok_iff.mp hok
  exact h.perform hi

theorem config_step {ob' : OrderBook} (hok : ob.step mbo = .ok ob') :
    ob'.config = ob.config := by
  obtain ⟨_, rfl⟩ := h.step_ok_iff.mp hok
  exact config_perform ..

end WellFormed

section New

variable {priceMin priceMax tick : Int64} {ob : OrderBook}

theorem new_eq (hnew : new priceMin priceMax tick = some ob) :
    ∃ levels, Config.levelCount priceMin priceMax tick = some levels ∧
      ob = ⟨⟨priceMin, priceMax, tick, levels⟩, List.replicate levels .new,
        List.replicate levels .new, ∅, 0⟩ := by
  obtain ⟨levels, hlevels, heq⟩ := Option.map_eq_some_iff.mp hnew
  exact ⟨levels, hlevels, heq.symm⟩

theorem side_new (hnew : new priceMin priceMax tick = some ob) (b : Bool) :
    ob.side b = List.replicate ob.config.numLevels .new := by
  obtain ⟨levels, _, rfl⟩ := new_eq hnew
  cases b <;> rfl

theorem level_new (hnew : new priceMin priceMax tick = some ob) (b : Bool) (i : ℕ) :
    ob.level b i = .new := by
  rw [level, side_new hnew, List.getD_eq_getElem?_getD, List.getElem?_replicate]
  split <;> rfl

theorem queue_new (hnew : new priceMin priceMax tick = some ob) (b : Bool) (i : ℕ) :
    ob.queue b i = [] := by
  rw [queue, level_new hnew]
  rfl

theorem lookup_new (hnew : new priceMin priceMax tick = some ob) (id : UInt64) :
    ob.lookup id = none := by
  obtain ⟨levels, _, rfl⟩ := new_eq hnew
  exact Finmap.lookup_empty id

theorem wellFormed_new (hnew : new priceMin priceMax tick = some ob) : ob.WellFormed where
  length_eq b := by rw [side_new hnew, List.length_replicate]
  level_eq b i := by
    rw [level_new hnew, queue_new hnew]
    rfl
  ref_index id ref href := by simp [lookup_new hnew] at href
  ref_node id ref href := by simp [lookup_new hnew] at href
  addr_lt b i n hn := by simp [queue_new hnew] at hn
  addr_nodup b i := by simp [queue_new hnew, Nodes.addrs]
  addr_slot b i b' i' n n' hn := by simp [queue_new hnew] at hn

end New

end OrderBookServer.OrderBook
