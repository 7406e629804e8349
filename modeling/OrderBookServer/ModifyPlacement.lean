import OrderBookServer.Reference

/-!
Where a Modify leaves its order. `modify` compares the price of the message with that of the order,
and not the side: an order that changes its side at its old price stays on its old side.
-/
namespace OrderBookServer.OrderBook

open NodeList KeyedList Runs

/-- The order of the message rests where the message says, with a size that is large enough. -/
def RestsAlready (ob : OrderBook) (mbo : MboMsg) : Prop :=
  ∃ o ∈ (ob.queue mbo.isBid (ob.msgIndex mbo)).vals, o.orderId = mbo.orderId ∧ mbo.size ≤ o.size

/-- `ob'` has the order of the message where the message says. -/
structure Put (ob : OrderBook) (mbo : MboMsg) (ob' : OrderBook) : Prop where
  once : (ob'.nodes.map fun n => n.val.orderId).count mbo.orderId = 1
  rests : ⟨mbo.orderId, mbo.size⟩ ∈ (ob'.queue mbo.isBid (ob.msgIndex mbo)).vals
  entry : ∃ ref, ob'.lookup mbo.orderId = some ref ∧ ref.isBid = mbo.isBid ∧
    ref.index = ob.msgIndex mbo ∧ ref.price = mbo.price
  last : ¬ ob.RestsAlready mbo →
    (ob'.queue mbo.isBid (ob.msgIndex mbo)).vals.getLast? = some ⟨mbo.orderId, mbo.size⟩
  keeps : ob.RestsAlready mbo → (ob'.queue mbo.isBid (ob.msgIndex mbo)).vals.map Order.orderId =
    (ob.queue mbo.isBid (ob.msgIndex mbo)).vals.map Order.orderId

def PutsOrder (ob : OrderBook) (mbo : MboMsg) : Prop :=
  ∃ ob', ob.step mbo = .ok ob' ∧ ob.Put mbo ob'

/-- The order of the message rests at the price of the message, on the other side. -/
def RestsAcross (ob : OrderBook) (mbo : MboMsg) : Prop :=
  ∃ ref, ob.lookup mbo.orderId = some ref ∧ ref.price = mbo.price ∧ ref.isBid ≠ mbo.isBid

/-- The prices of the table are prices of levels. -/
def RefsPriced (c : Config) (ob : OrderBook) : Prop :=
  ∀ id ref, ob.lookup id = some ref → c.InRange ref.price ∧ c.OnGrid ref.price

section Steps

variable {c : Config} {ob ob' : OrderBook} {mbo : MboMsg} {ref : Ref}

theorem RefsPriced.perform (h : RefsPriced c ob) (hrange : PriceInRange c mbo)
    (hgrid : PriceOnGrid c mbo) : RefsPriced c (ob.perform mbo (ob.effect mbo)) := by
  have hplace : (ob.effect mbo).places → c.InRange mbo.price ∧ c.OnGrid mbo.price :=
    fun hp => ⟨hrange (action_of_places hp), hgrid (action_of_places hp)⟩
  intro id ref href
  cases he : ob.effect mbo with
  | idle =>
    rw [he] at href
    exact h id ref href
  | clear =>
    rw [he] at href
    simp [OrderBook.perform] at href
  | place =>
    rw [he, OrderBook.perform, lookup_place] at href
    split at href
    · cases href
      exact hplace (by rw [he]; rfl)
    · exact h id ref href
  | remove old =>
    rw [he, OrderBook.perform, lookup_remove] at href
    split at href
    · cases href
    · exact h id ref href
  | resize old size =>
    rw [he, OrderBook.perform, lookup_resize] at href
    exact h id ref href
  | requeue old size =>
    rw [he, OrderBook.perform, lookup_requeue] at href
    exact h id ref href
  | replace old =>
    rw [he, OrderBook.perform, lookup_place] at href
    split at href
    · cases href
      exact hplace (by rw [he]; rfl)
    · rw [lookup_remove] at href
      split at href
      · cases href
      · exact h id ref href

/-- The order that rests already is the one the table knows. -/
theorem Owned.restsAlready_iff (ho : ob.Owned) (h : ob.WellFormed) : ob.RestsAlready mbo ↔
    ∃ ref, ob.lookup mbo.orderId = some ref ∧ ref.isBid = mbo.isBid ∧
      ref.index = ob.msgIndex mbo ∧ mbo.size ≤ ob.sizeAt ref := by
  constructor
  · rintro ⟨o, hmem, hid, hsize⟩
    obtain ⟨a, hn⟩ := Nodes.mem_vals.mp hmem
    obtain ⟨ref, href, hb, hi, hit⟩ := ho _ _ _ hn
    rw [hid] at href
    refine ⟨ref, href, hb, hi, ?_⟩
    have hnode := h.node_mem href
    rw [hb, hi, hit] at hnode
    rw [Nodes.node_unique (h.addr_nodup _ _) hn hnode] at hsize
    exact hsize
  · rintro ⟨ref, href, hb, hi, hsize⟩
    have hnode := h.node_mem href
    rw [hb, hi] at hnode
    exact ⟨_, Nodes.mem_vals.mpr ⟨_, hnode⟩, rfl, hsize⟩

/-- An order that the table knows rests once. -/
theorem count_eq_one (ho : ob.Owned) (h : ob.WellFormed) {id : UInt64}
    (href : ob.lookup id = some ref) : (ob.nodes.map fun n => n.val.orderId).count id = 1 :=
  List.count_eq_one_of_mem (ho.once h)
    (List.mem_map.mpr ⟨_, (mem_nodes _).mpr ⟨_, _, h.node_mem href⟩, rfl⟩)

/-- A new node for an order that is not there yet. -/
theorem put_place {ob₁ : OrderBook} (ho : ob₁.Owned) (h : ob₁.WellFormed)
    (hi : ob.msgIndex mbo < ob₁.config.numLevels) (hconfig : ob₁.config = ob.config)
    (hfresh : ob₁.lookup mbo.orderId = none) (hnot : ¬ ob.RestsAlready mbo) :
    ob.Put mbo (ob₁.place mbo mbo.isBid (ob.msgIndex mbo)) := by
  have hlookup : (ob₁.place mbo mbo.isBid (ob.msgIndex mbo)).lookup mbo.orderId =
      some ⟨mbo.isBid, ob.msgIndex mbo, ob₁.nextNode, mbo.price⟩ := by
    rw [lookup_place, if_pos rfl]
  have hidx : ob.msgIndex mbo = ob₁.config.priceToIndex mbo.price := by
    rw [hconfig]
    rfl
  have hvals : ((ob₁.place mbo mbo.isBid (ob.msgIndex mbo)).queue mbo.isBid
      (ob.msgIndex mbo)).vals =
      (ob₁.queue mbo.isBid (ob.msgIndex mbo)).vals ++ [⟨mbo.orderId, mbo.size⟩] := by
    rw [h.vals_place hi, if_pos ⟨rfl, rfl⟩]
  refine ⟨count_eq_one (ho.place h hi hfresh) (h.place hi hidx) hlookup, ?_,
    ⟨_, hlookup, rfl, rfl, rfl⟩, fun _ => ?_, fun hrests => absurd hrests hnot⟩
  · rw [hvals]
    exact List.mem_append_right _ (List.mem_singleton_self _)
  · rw [hvals, List.getLast?_concat]

section Known

variable (ho : ob.Owned) (h : ob.WellFormed) (href : ob.lookup mbo.orderId = some ref)
  (hb : ref.isBid = mbo.isBid) (hi : ref.index = ob.msgIndex mbo) (hprice : ref.price = mbo.price)
include ho h href hb hi hprice

theorem put_requeue (hsize : ob.sizeAt ref < mbo.size) :
    ob.Put mbo (ob.requeue mbo.orderId ref mbo.size) := by
  have hvals : ((ob.requeue mbo.orderId ref mbo.size).queue mbo.isBid (ob.msgIndex mbo)).vals =
      delete Order.orderId (ob.queue mbo.isBid (ob.msgIndex mbo)).vals mbo.orderId ++
        [⟨mbo.orderId, mbo.size⟩] := by
    rw [ho.vals_requeue h href, if_pos ⟨hb, hi.symm⟩]
  have hlookup : (ob.requeue mbo.orderId ref mbo.size).lookup mbo.orderId = some ref := by
    rw [lookup_requeue, href]
  refine ⟨count_eq_one (ho.requeue h href _) (h.requeue href _) hlookup, ?_,
    ⟨ref, hlookup, hb, hi, hprice⟩, fun _ => ?_, fun hrests => ?_⟩
  · rw [hvals]
    exact List.mem_append_right _ (List.mem_singleton_self _)
  · rw [hvals, List.getLast?_concat]
  · obtain ⟨ref', href', _, _, hle⟩ := (ho.restsAlready_iff h).mp hrests
    rw [href] at href'
    cases href'
    exact absurd hsize (UInt32.not_lt.mpr hle)

theorem put_resize (hsize : mbo.size < ob.sizeAt ref) :
    ob.Put mbo (ob.resize mbo.orderId ref mbo.size) := by
  have hlookup : (ob.resize mbo.orderId ref mbo.size).lookup mbo.orderId = some ref := by
    rw [lookup_resize, href]
  have hrests : ob.RestsAlready mbo :=
    (ho.restsAlready_iff h).mpr ⟨ref, href, hb, hi, UInt32.le_of_lt hsize⟩
  refine ⟨count_eq_one (ho.resize h href _) (h.resize href _) hlookup, ?_,
    ⟨ref, hlookup, hb, hi, hprice⟩, fun hnot => absurd hrests hnot, fun _ => ?_⟩
  · obtain ⟨o, hmem, hid, _⟩ := hrests
    rw [ho.vals_resize h href]
    refine List.mem_map.mpr ⟨o, hmem, ?_⟩
    rw [if_pos hid]
    exact congrArg (Order.mk · mbo.size) hid
  · rw [ho.vals_resize h href]
    exact keys_update fun _ => rfl

theorem put_idle (hsize : mbo.size = ob.sizeAt ref) : ob.Put mbo ob := by
  have hnode := h.node_mem href
  rw [hb, hi, ← hsize] at hnode
  refine ⟨count_eq_one ho h href, Nodes.mem_vals.mpr ⟨_, hnode⟩, ⟨ref, href, hb, hi, hprice⟩,
    fun hnot => absurd ?_ hnot, fun _ => rfl⟩
  exact ⟨_, Nodes.mem_vals.mpr ⟨_, hnode⟩, rfl, UInt32.le_refl _⟩

end Known

/-- An order at the price of a level is at that level's index only. -/
theorem msgIndex_eq_iff (hc : ob.config.Valid) (hpriced : RefsPriced ob.config ob)
    (h : ob.WellFormed) (hrange : ob.config.InRange mbo.price) (hgrid : ob.config.OnGrid mbo.price)
    {id : UInt64} (href : ob.lookup id = some ref) :
    ref.index = ob.msgIndex mbo ↔ ref.price = mbo.price := by
  obtain ⟨hrange', hgrid'⟩ := hpriced id ref href
  rw [(h.ref_index id ref href).2]
  constructor
  · intro heq
    apply Int64.toInt_inj.mp
    rw [← hc.levelPrice_priceToIndex hrange' hgrid', ← hc.levelPrice_priceToIndex hrange hgrid]
    exact congrArg _ heq
  · intro heq
    rw [heq]
    rfl

section Modifies

variable (ho : ob.Owned) (h : ob.WellFormed)
  (hstep : ob.step mbo = .ok (ob.perform mbo (ob.modifyEffect mbo)))
include ho h hstep

/-- An order that is not known is placed. -/
theorem puts_of_unknown (hlt : ob.msgIndex mbo < ob.config.numLevels)
    (href : ob.lookup mbo.orderId = none) : ob.PutsOrder mbo := by
  unfold modifyEffect at hstep
  simp only [href] at hstep
  refine ⟨_, hstep, put_place ho h hlt rfl href ?_⟩
  rw [ho.restsAlready_iff h]
  rintro ⟨ref, href', _⟩
  rw [href] at href'
  cases href'

variable (hzero : mbo.size ≠ 0) (href : ob.lookup mbo.orderId = some ref)
include hzero href

/-- An order at the place of the message gets its size there. -/
theorem puts_of_here (hprice : mbo.price = ref.price) (hb : ref.isBid = mbo.isBid)
    (hi : ref.index = ob.msgIndex mbo) : ob.PutsOrder mbo := by
  unfold modifyEffect at hstep
  simp only [href, if_neg hzero, hprice, ne_eq, not_true_eq_false, if_false] at hstep
  by_cases hgt : ob.sizeAt ref < mbo.size
  · simp only [gt_iff_lt, if_pos hgt] at hstep
    exact ⟨_, hstep, put_requeue ho h href hb hi hprice.symm hgt⟩
  · by_cases hless : mbo.size < ob.sizeAt ref
    · simp only [gt_iff_lt, if_neg hgt, if_pos hless] at hstep
      exact ⟨_, hstep, put_resize ho h href hb hi hprice.symm hless⟩
    · simp only [gt_iff_lt, if_neg hgt, if_neg hless] at hstep
      exact ⟨_, hstep, put_idle ho h href hb hi hprice.symm
        (UInt32.le_antisymm (UInt32.not_lt.mp hgt) (UInt32.not_lt.mp hless))⟩

omit ho h in
/-- An order at the price of the message stays on its side, as its entry says. -/
theorem not_puts_of_across (hprice : mbo.price = ref.price) (hb : ref.isBid ≠ mbo.isBid) :
    ¬ ob.PutsOrder mbo := by
  rintro ⟨ob', hok, hput⟩
  obtain ⟨ref', href', hb', _⟩ := hput.entry
  unfold modifyEffect at hstep
  simp only [href, if_neg hzero, hprice, ne_eq, not_true_eq_false, if_false] at hstep
  have hsame : ob'.lookup mbo.orderId = ob.lookup mbo.orderId := by
    rw [hok] at hstep
    cases hstep
    split
    · exact lookup_requeue _
    · split
      · exact lookup_resize _
      · rfl
  rw [hsame, href] at href'
  cases href'
  exact hb hb'

/-- An order at another price is taken away and placed. -/
theorem puts_of_moved (hlt : ob.msgIndex mbo < ob.config.numLevels)
    (hprice : mbo.price ≠ ref.price) (hi : ref.index ≠ ob.msgIndex mbo) : ob.PutsOrder mbo := by
  unfold modifyEffect at hstep
  simp only [href, if_neg hzero, ne_eq, if_pos hprice] at hstep
  refine ⟨_, hstep, put_place (ho.remove h href) (h.remove href) ?_ config_remove ?_ ?_⟩
  · rw [config_remove]
    exact hlt
  · rw [lookup_remove, if_pos rfl]
  · rw [ho.restsAlready_iff h]
    rintro ⟨ref', href', _, hi', _⟩
    rw [href] at href'
    cases href'
    exact hi hi'

end Modifies

theorem putsOrder_iff (ho : ob.Owned) (h : ob.WellFormed) (hc : ob.config.Valid)
    (hpriced : RefsPriced ob.config ob) (ha : mbo.action = 'M')
    (hside : mbo.side = 'A' ∨ mbo.side = 'B') (hpos : 0 < mbo.size)
    (hrange : ob.config.InRange mbo.price) (hgrid : ob.config.OnGrid mbo.price) :
    ob.PutsOrder mbo ↔ ¬ ob.RestsAcross mbo := by
  have hs : mbo.Sided := ⟨by rw [ha]; decide, hside⟩
  have hlt : ob.msgIndex mbo < ob.config.numLevels := hc.priceToIndex_lt hrange
  have hstep : ob.step mbo = _ := h.step_of_indexed fun _ => hlt
  have hzero : mbo.size ≠ 0 := fun hzero => by simp [hzero] at hpos
  rw [effect_modify hs ha] at hstep
  cases href : ob.lookup mbo.orderId with
  | none =>
    refine iff_of_true (puts_of_unknown ho h hstep hlt href) ?_
    rintro ⟨ref, href', _⟩
    rw [href] at href'
    cases href'
  | some ref =>
    have hindex := msgIndex_eq_iff hc hpriced h hrange hgrid href
    have hknown : ∀ ref', ob.lookup mbo.orderId = some ref' → ref' = ref := by
      intro ref' href'
      rw [href] at href'
      exact (Option.some.inj href').symm
    by_cases hprice : mbo.price = ref.price
    · by_cases hb : ref.isBid = mbo.isBid
      · have hi := hindex.mpr hprice.symm
        refine iff_of_true (puts_of_here ho h hstep hzero href hprice hb hi) ?_
        rintro ⟨ref', href', _, hne⟩
        rw [hknown ref' href'] at hne
        exact hne hb
      · refine iff_of_false (not_puts_of_across hstep hzero href hprice hb) ?_
        exact fun hnot => hnot ⟨ref, href, hprice.symm, hb⟩
    · have hi : ref.index ≠ ob.msgIndex mbo := fun hi => hprice (hindex.mp hi).symm
      refine iff_of_true (puts_of_moved ho h hstep hzero href hlt hprice hi) ?_
      rintro ⟨ref', href', hprice', _⟩
      rw [hknown ref' href'] at hprice'
      exact hprice hprice'.symm

end Steps

section Reachable

variable {priceMin priceMax tick : Int64} {ob₀ ob : OrderBook} {mbo : MboMsg}

/-- After every run without an Add of a resting id, a Modify puts its order where it says exactly
when the order does not rest at the same price on the other side. -/
theorem putsOrder_iff_not_restsAcross (hnew : new priceMin priceMax tick = some ob₀)
    (ht : 0 < tick) (hp : priceMin ≤ priceMax) (msgs : List MboMsg)
    (hmsgs : ∀ mbo ∈ msgs, PriceInRange ob₀.config mbo ∧ PriceOnGrid ob₀.config mbo)
    (hfresh : Along step FreshAdd ob₀ msgs) (hrun : ob₀.run msgs = .ok ob)
    (ha : mbo.action = 'M') (hside : mbo.side = 'A' ∨ mbo.side = 'B') (hpos : 0 < mbo.size)
    (hrange : ob₀.config.InRange mbo.price) (hgrid : ob₀.config.OnGrid mbo.price) :
    ob.PutsOrder mbo ↔ ¬ ob.RestsAcross mbo := by
  have hc := valid_new hnew ht hp
  have hstep : ∀ ob mbo ob', BookOf ob₀.config ob ∧ ob.Owned ∧ RefsPriced ob₀.config ob →
      PriceInRange ob₀.config mbo ∧ PriceOnGrid ob₀.config mbo → ob.FreshAdd mbo →
      ob.step mbo = .ok ob' → BookOf ob₀.config ob' ∧ ob'.Owned ∧ RefsPriced ob₀.config ob' := by
    rintro ob mbo ob' ⟨⟨h, hconfig⟩, ho, hpriced⟩ ⟨hrange, hgrid⟩ hfresh hok
    obtain ⟨hi, rfl⟩ := h.step_ok_iff.mp hok
    exact ⟨⟨h.perform hi, (config_perform ..).trans hconfig⟩, ho.perform h hi hfresh,
      hpriced.perform hrange hgrid⟩
  have hfirst : RefsPriced ob₀.config ob₀ := by
    intro id ref href
    rw [lookup_new hnew] at href
    cases href
  obtain ⟨⟨h, hconfig⟩, ho, hpriced⟩ := run_invariant_along _ hstep
    ⟨bookOf_new hnew, owned_new hnew, hfirst⟩ hmsgs hfresh hrun
  rw [← hconfig] at hc hpriced hrange hgrid
  exact putsOrder_iff ho h hc hpriced ha hside hpos hrange hgrid

/-- Two bids at one price. -/
def twoBids : List MboMsg := [⟨1, 100, 5, 'A', 'B'⟩, ⟨2, 100, 4, 'A', 'B'⟩]

theorem freshAdds_twoBids : Along step FreshAdd threeLevels twoBids := by
  refine ⟨fun _ _ => rfl, fun ob hok => ⟨fun _ _ => ?_, fun _ _ => trivial⟩⟩
  have hfound : (threeLevels.step ⟨1, 100, 5, 'A', 'B'⟩).map (fun ob => ob.lookup 2) =
      .ok none := by decide
  rw [hok] at hfound
  exact Except.ok.inj hfound

/-- The first bid becomes an ask at another price. -/
theorem putsOrder_iff_not_restsAcross_twoBids : ∃ ob, threeLevels.run twoBids = .ok ob ∧
    (ob.PutsOrder ⟨1, 200, 5, 'M', 'A'⟩ ↔ ¬ ob.RestsAcross ⟨1, 200, 5, 'M', 'A'⟩) := by
  obtain ⟨ob, hrun, _⟩ := (bookOf_new new_threeLevels).run
    (by decide : ∀ mbo ∈ twoBids, Indexes _ mbo)
  exact ⟨ob, hrun, putsOrder_iff_not_restsAcross new_threeLevels (by decide) (by decide) twoBids
    (by decide) freshAdds_twoBids hrun rfl (Or.inl rfl) (by decide) (by decide) (by decide)⟩

/-- The first bid becomes an ask at its price. -/
theorem not_putsOrder_across : ∃ ob, threeLevels.run twoBids = .ok ob ∧
    Along step FreshAdd threeLevels twoBids ∧ ¬ ob.PutsOrder ⟨1, 100, 5, 'M', 'A'⟩ := by
  obtain ⟨ob, hrun, _⟩ := (bookOf_new new_threeLevels).run
    (by decide : ∀ mbo ∈ twoBids, Indexes _ mbo)
  refine ⟨ob, hrun, freshAdds_twoBids, fun ⟨ob', hok, hput⟩ => ?_⟩
  have hside : ((threeLevels.run twoBids).bind fun ob => ob.step ⟨1, 100, 5, 'M', 'A'⟩).map
      (fun ob => (ob.lookup 1).map Ref.isBid) = .ok (some true) := by decide
  rw [hrun] at hside
  change (ob.step ⟨1, 100, 5, 'M', 'A'⟩).map _ = _ at hside
  rw [hok] at hside
  obtain ⟨ref, href, hb, _⟩ := hput.entry
  change Except.ok ((ob'.lookup 1).map Ref.isBid) = _ at hside
  rw [href] at hside
  cases hb.symm.trans (Option.some.inj (Except.ok.inj hside))

end Reachable

end OrderBookServer.OrderBook
