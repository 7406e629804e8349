import Mathlib.Data.List.Nodup
import OrderBookServer.Safety

/-!
Liquidity that no id reaches any more. A node is owned when the lookup table
refers to it under its order id. One message disowns a node: an Add with the id
of a resting order, which overwrites the entry and leaves the old node behind.
-/
namespace OrderBookServer.OrderBook

open NodeList Runs

/-- Every resting order is the node that the table holds for its id. -/
def Owned (ob : OrderBook) : Prop :=
  ∀ b i, ∀ n ∈ ob.queue b i, ∃ ref, ob.lookup n.val.orderId = some ref ∧
    ref.isBid = b ∧ ref.index = i ∧ ref.it = n.addr

/-- An Add that the book does not skip carries an id that the table does not hold. -/
def FreshAdd (ob : OrderBook) (mbo : MboMsg) : Prop :=
  mbo.Sided → mbo.action = 'A' → ob.lookup mbo.orderId = none

section Ownership

variable {ob : OrderBook} {mbo : MboMsg} {b : Bool} {i : ℕ} {id : UInt64} {ref : Ref}

theorem owned_new {priceMin priceMax tick : Int64} (hnew : new priceMin priceMax tick = some ob) :
    ob.Owned := by
  intro b i n hn
  simp [queue_new hnew] at hn

theorem Owned.clear : ob.clear.Owned := by
  intro b i n hn
  simp at hn

/-- A node of an owned book carries an id exactly when it is the node of that id. -/
theorem Owned.orderId_eq_iff (ho : ob.Owned) (h : ob.WellFormed) {n : Node Order}
    (hn : n ∈ ob.queue b i) (href : ob.lookup id = some ref) :
    n.val.orderId = id ↔ (b = ref.isBid ∧ i = ref.index) ∧ n.addr = ref.it := by
  constructor
  · rintro rfl
    obtain ⟨ref', href', hb, hi, hit⟩ := ho b i n hn
    rw [href] at href'
    cases href'
    exact ⟨⟨hb.symm, hi.symm⟩, hit.symm⟩
  · rintro ⟨⟨rfl, rfl⟩, haddr⟩
    obtain ⟨a, o⟩ := n
    simp only at haddr
    subst haddr
    exact congrArg Order.orderId (Nodes.node_unique (h.addr_nodup _ _) hn (h.node_mem href))

theorem Owned.place (ho : ob.Owned) (h : ob.WellFormed) (hi : i < ob.config.numLevels)
    (hfresh : ob.lookup mbo.orderId = none) : (ob.place mbo b i).Owned := by
  have hold : ∀ b' i', ∀ n ∈ ob.queue b' i', ∃ ref,
      (ob.place mbo b i).lookup n.val.orderId = some ref ∧
        ref.isBid = b' ∧ ref.index = i' ∧ ref.it = n.addr := by
    intro b' i' n hn
    obtain ⟨ref, href, hslot⟩ := ho b' i' n hn
    have hne : n.val.orderId ≠ mbo.orderId := by
      intro heq
      rw [heq, hfresh] at href
      cases href
    exact ⟨ref, by rw [lookup_place, if_neg hne, href], hslot⟩
  intro b' i' n hn
  rw [h.queue_place hi] at hn
  split at hn
  · rename_i hslot
    obtain ⟨rfl, rfl⟩ := hslot
    rcases Nodes.mem_pushBack.mp hn with hn | rfl
    · exact hold _ _ n hn
    · exact ⟨_, by rw [lookup_place, if_pos rfl], rfl, rfl, rfl⟩
  · exact hold b' i' n hn

theorem Owned.remove (ho : ob.Owned) (h : ob.WellFormed) (href : ob.lookup id = some ref) :
    (ob.remove id ref).Owned := by
  intro b i n hn
  have hmem : n ∈ ob.queue b i ∧ n.val.orderId ≠ id := by
    rw [h.queue_remove href] at hn
    split at hn
    · rename_i hslot
      obtain ⟨hn, haddr⟩ := Nodes.mem_erase.mp hn
      rw [← hslot.1, ← hslot.2] at hn
      exact ⟨hn, fun hid => haddr ((ho.orderId_eq_iff h hn href).mp hid).2⟩
    · rename_i hslot
      exact ⟨hn, fun hid => hslot ((ho.orderId_eq_iff h hn href).mp hid).1⟩
  obtain ⟨ref', href', hslot'⟩ := ho b i n hmem.1
  exact ⟨ref', by rw [lookup_remove, if_neg hmem.2, href'], hslot'⟩

/-- A rewritten node is still the node of its id. -/
theorem Owned.of_write (ho : ob.Owned) (h : ob.WellFormed) (href : ob.lookup id = some ref)
    (size : UInt32) {n : Node Order}
    (hn : n ∈ if b = ref.isBid ∧ i = ref.index
      then (ob.queue ref.isBid ref.index).write ref.it ⟨id, size⟩ else ob.queue b i) :
    ∃ ref', ob.lookup n.val.orderId = some ref' ∧
      ref'.isBid = b ∧ ref'.index = i ∧ ref'.it = n.addr := by
  split at hn
  · rename_i hslot
    rcases (Nodes.mem_write (h.node_mem href)).mp hn with ⟨hold, _⟩ | rfl
    · rw [← hslot.1, ← hslot.2] at hold
      exact ho b i n hold
    · exact ⟨ref, href, hslot.1.symm, hslot.2.symm, rfl⟩
  · exact ho b i n hn

theorem Owned.resize (ho : ob.Owned) (h : ob.WellFormed) (href : ob.lookup id = some ref)
    (size : UInt32) : (ob.resize id ref size).Owned := by
  intro b i n hn
  rw [h.queue_resize href] at hn
  rw [lookup_resize]
  exact ho.of_write h href size hn

theorem Owned.requeue (ho : ob.Owned) (h : ob.WellFormed) (href : ob.lookup id = some ref)
    (size : UInt32) : (ob.requeue id ref size).Owned := by
  intro b i n hn
  rw [h.queue_requeue href] at hn
  rw [lookup_requeue]
  refine ho.of_write h href size ?_
  split at hn
  · rename_i hslot
    rw [if_pos hslot]
    exact Nodes.mem_spliceBack.mp hn
  · rename_i hslot
    rwa [if_neg hslot]

/-- A message other than an Add of a resting id leaves no node behind. -/
theorem Owned.perform (ho : ob.Owned) (h : ob.WellFormed) (hi : ob.Indexed mbo)
    (hfresh : ob.FreshAdd mbo) : (ob.perform mbo (ob.effect mbo)).Owned := by
  have href : ∀ ref, (ob.effect mbo).ref = some ref → ob.lookup mbo.orderId = some ref :=
    fun ref he => effect_ref he
  unfold Indexed at hi
  cases he : ob.effect mbo with
  | idle => exact ho
  | clear => exact Owned.clear
  | place =>
    refine ho.place h (hi (by rw [he]; rfl)) ?_
    obtain ⟨hs, ha | ⟨_, hlook⟩⟩ := effect_eq_place_iff.mp he
    · exact hfresh hs ha
    · exact hlook
  | remove ref => exact ho.remove h (href ref (by rw [he]; rfl))
  | resize ref size => exact ho.resize h (href ref (by rw [he]; rfl)) size
  | requeue ref size => exact ho.requeue h (href ref (by rw [he]; rfl)) size
  | replace ref =>
    have hknown := href ref (by rw [he]; rfl)
    refine (ho.remove h hknown).place (h.remove hknown) ?_ ?_
    · rw [config_remove]
      exact hi (by rw [he]; rfl)
    · rw [lookup_remove, if_pos rfl]

/-- An Add of a resting id disowns the node that rests. -/
theorem freshAdd_of_owned (h : ob.WellFormed) (hi : ob.Indexed mbo)
    (ho : (ob.perform mbo (ob.effect mbo)).Owned) : ob.FreshAdd mbo := by
  intro hs ha
  by_contra hlook
  obtain ⟨ref, href⟩ := Option.ne_none_iff_exists'.mp hlook
  have he : ob.effect mbo = .place := effect_add hs ha
  have hlt : ob.msgIndex mbo < ob.config.numLevels := hi (by rw [he]; rfl)
  rw [he, OrderBook.perform] at ho
  have hnode := h.node_mem href
  have hold : (⟨ref.it, ⟨mbo.orderId, ob.sizeAt ref⟩⟩ : Node Order) ∈
      (ob.place mbo mbo.isBid (ob.msgIndex mbo)).queue ref.isBid ref.index := by
    rw [h.queue_place hlt]
    split
    · rename_i hslot
      rw [← hslot.1, ← hslot.2]
      exact Nodes.mem_pushBack.mpr (Or.inl hnode)
    · exact hnode
  obtain ⟨ref', href', _, _, hit⟩ := ho _ _ _ hold
  rw [lookup_place, if_pos rfl] at href'
  cases href'
  have hlt' := h.addr_lt _ _ _ hnode
  simp only at hit hlt'
  omega

end Ownership

section Accounts

/-- All resting orders of both sides, level by level. -/
def nodes (ob : OrderBook) : Nodes Order := (ob.bids ++ ob.asks).flatMap Level.queue

/-- A message with which the owner of an order of size `size` takes it off the book. -/
def Withdraws (mbo : MboMsg) (size : UInt32) : Prop :=
  mbo.Sided ∧ (mbo.action = 'F' ∨ mbo.action = 'C' ∧ size ≤ mbo.size ∨
    mbo.action = 'M' ∧ mbo.size = 0)

structure Accounted (ob : OrderBook) : Prop where
  owned : ob.Owned
  once : (ob.nodes.map (fun n => n.val.orderId)).Nodup
  count : ob.nodes.length = ob.ordersRef.keys.card
  reachable : ∀ b i, ∀ n ∈ ob.queue b i, ∀ mbo, mbo.orderId = n.val.orderId →
    Withdraws mbo n.val.size → ∃ ob', ob.step mbo = .ok ob' ∧ n ∉ ob'.queue b i

variable {ob : OrderBook} {mbo : MboMsg}

theorem mem_side_iff (b : Bool) (l : Level) :
    l ∈ ob.side b ↔ ∃ i < (ob.side b).length, ob.level b i = l := by
  rw [List.mem_iff_getElem]
  constructor
  · rintro ⟨i, hi, rfl⟩
    exact ⟨i, hi, by simp [level, List.getD_eq_getElem?_getD, hi]⟩
  · rintro ⟨i, hi, rfl⟩
    exact ⟨i, hi, by simp [level, List.getD_eq_getElem?_getD, hi]⟩

theorem mem_nodes (n : Node Order) : n ∈ ob.nodes ↔ ∃ b i, n ∈ ob.queue b i := by
  have hside : ∀ b, (∃ l ∈ ob.side b, n ∈ l.queue) ↔ ∃ i, n ∈ ob.queue b i := by
    intro b
    constructor
    · rintro ⟨l, hl, hn⟩
      obtain ⟨i, _, rfl⟩ := (mem_side_iff b l).mp hl
      exact ⟨i, hn⟩
    · rintro ⟨i, hn⟩
      have hi : i < (ob.side b).length := by
        by_contra hge
        rw [queue_of_length_le (Nat.not_lt.mp hge)] at hn
        cases hn
      exact ⟨_, (mem_side_iff b _).mpr ⟨i, hi, rfl⟩, hn⟩
  simp only [nodes, List.mem_flatMap, List.mem_append, or_and_right, exists_or, Bool.exists_bool]
  exact (or_congr (hside true) (hside false)).trans or_comm

/-- No node is listed twice: levels of one side, and the two sides, are disjoint. -/
theorem WellFormed.nodes_nodup (h : ob.WellFormed) : ob.nodes.Nodup := by
  have hside : ∀ b, (ob.side b).Pairwise (fun l l' => List.Disjoint l.queue l'.queue) := by
    intro b
    rw [List.pairwise_iff_getElem]
    intro i j hi hj hij n hn hn'
    have hqi : n ∈ ob.queue b i := by simpa [queue, level, hi] using hn
    have hqj : n ∈ ob.queue b j := by simpa [queue, level, hj] using hn'
    have := (h.addr_slot b i b j n n hqi hqj rfl).2
    omega
  refine List.nodup_flatMap.mpr ⟨fun l hl => ?_, List.pairwise_append.mpr
    ⟨hside true, hside false, fun l hl l' hl' n hn hn' => ?_⟩⟩
  · rcases List.mem_append.mp hl with hl | hl
    · obtain ⟨i, _, rfl⟩ := (mem_side_iff true l).mp hl
      exact (h.addr_nodup true i).of_map _
    · obtain ⟨i, _, rfl⟩ := (mem_side_iff false l).mp hl
      exact (h.addr_nodup false i).of_map _
  · obtain ⟨i, _, rfl⟩ := (mem_side_iff true l).mp hl
    obtain ⟨j, _, rfl⟩ := (mem_side_iff false l').mp hl'
    have := (h.addr_slot true i false j n n hn hn' rfl).1
    cases this

theorem Owned.orderId_inj (ho : ob.Owned) (h : ob.WellFormed) {n n' : Node Order}
    (hn : n ∈ ob.nodes) (hn' : n' ∈ ob.nodes) (heq : n.val.orderId = n'.val.orderId) :
    n = n' := by
  obtain ⟨b, i, hn⟩ := (mem_nodes n).mp hn
  obtain ⟨b', i', hn'⟩ := (mem_nodes n').mp hn'
  obtain ⟨ref, href, _⟩ := ho b i n hn
  obtain ⟨⟨rfl, rfl⟩, haddr⟩ := (ho.orderId_eq_iff h hn href).mp rfl
  obtain ⟨⟨rfl, rfl⟩, haddr'⟩ := (ho.orderId_eq_iff h hn' href).mp heq.symm
  exact List.inj_on_of_nodup_map (h.addr_nodup _ _) hn hn' (haddr.trans haddr'.symm)

theorem Owned.once (ho : ob.Owned) (h : ob.WellFormed) :
    (ob.nodes.map (fun n => n.val.orderId)).Nodup :=
  h.nodes_nodup.map_on fun _ hn _ hn' heq => ho.orderId_inj h hn hn' heq

theorem Owned.count (ho : ob.Owned) (h : ob.WellFormed) :
    ob.nodes.length = ob.ordersRef.keys.card := by
  have hkeys : (ob.nodes.map (fun n => n.val.orderId)).toFinset = ob.ordersRef.keys := by
    ext id
    rw [List.mem_toFinset, List.mem_map, Finmap.mem_keys, ← Finmap.lookup_isSome,
      Option.isSome_iff_exists]
    constructor
    · rintro ⟨n, hn, rfl⟩
      obtain ⟨b, i, hn⟩ := (mem_nodes n).mp hn
      obtain ⟨ref, href, _⟩ := ho b i n hn
      exact ⟨ref, href⟩
    · rintro ⟨ref, href⟩
      exact ⟨_, (mem_nodes _).mpr ⟨_, _, h.node_mem href⟩, rfl⟩
  rw [← hkeys, List.toFinset_card_of_nodup (ho.once h), List.length_map]

theorem Owned.reachable (ho : ob.Owned) (h : ob.WellFormed) {b : Bool} {i : ℕ} {n : Node Order}
    (hn : n ∈ ob.queue b i) (hid : mbo.orderId = n.val.orderId)
    (hw : Withdraws mbo n.val.size) : ∃ ob', ob.step mbo = .ok ob' ∧ n ∉ ob'.queue b i := by
  obtain ⟨ref, href, rfl, rfl, hit⟩ := ho b i n hn
  rw [← hid] at href
  obtain ⟨a, o⟩ := n
  simp only at hit hid hw
  subst hit
  have hval := Nodes.node_unique (h.addr_nodup _ _) hn (h.node_mem href)
  have he : ob.effect mbo = .remove ref := by
    obtain ⟨hs, ha | ⟨ha, hsize⟩ | ⟨ha, hsize⟩⟩ := hw
    · rw [effect_fill hs ha, fillEffect, href]
    · rw [hval] at hsize
      simp [effect_cancel hs ha, takeEffect, href, hsize]
    · simp [effect_modify hs ha, modifyEffect, href, hsize]
  have hi : ob.Indexed mbo := by
    intro hp
    rw [he] at hp
    cases hp
  refine ⟨_, h.step_of_indexed hi, fun hmem => ?_⟩
  rw [he, OrderBook.perform, h.queue_remove href, if_pos ⟨rfl, rfl⟩] at hmem
  exact (Nodes.mem_erase.mp hmem).2 rfl

theorem WellFormed.accounted_iff (h : ob.WellFormed) : ob.Accounted ↔ ob.Owned :=
  ⟨Accounted.owned, fun ho =>
    ⟨ho, ho.once h, ho.count h, fun _ _ _ hn _ hid hw => ho.reachable h hn hid hw⟩⟩

/-- All resting orders stay accounted for throughout a run exactly when none of its
messages is an Add of a resting id. -/
theorem accounted_iff_freshAdds {priceMin priceMax tick : Int64} {ob₀ : OrderBook}
    (hnew : new priceMin priceMax tick = some ob₀) (ht : 0 < tick) (hp : priceMin ≤ priceMax)
    (msgs : List MboMsg)
    (hmsgs : ∀ mbo ∈ msgs, PriceInRange ob₀.config mbo ∧ PriceOnGrid ob₀.config mbo) :
    (∀ pre ob, pre <+: msgs → ob₀.run pre = .ok ob → ob.Accounted) ↔
      Along step FreshAdd ob₀ msgs := by
  have hvalid := valid_new hnew ht hp
  refine forall_prefix_iff_along (BookOf ob₀.config)
    (fun mbo => PriceInRange ob₀.config mbo ∧ PriceOnGrid ob₀.config mbo)
    (fun ob mbo hs hm => hs.step (hm.1.indexes hvalid)) ?_ (bookOf_new hnew) ?_ hmsgs
  · rintro ob mbo ob' ⟨h, hconfig⟩ hm hgood hok
    have hi : ob.Indexed mbo := (hconfig ▸ hm.1.indexes hvalid : Indexes ob.config mbo).indexed
    obtain ⟨_, rfl⟩ := h.step_ok_iff.mp hok
    rw [(h.perform hi).accounted_iff]
    exact ⟨freshAdd_of_owned h hi, (h.accounted_iff.mp hgood).perform h hi⟩
  · exact (wellFormed_new hnew).accounted_iff.mpr (owned_new hnew)

theorem accounted_iff_freshAdds_reusedId :
    (∀ pre ob, pre <+: reusedId → threeLevels.run pre = .ok ob → ob.Accounted) ↔
      Along step FreshAdd threeLevels reusedId :=
  accounted_iff_freshAdds new_threeLevels (by decide) (by decide) reusedId (by decide)

/-- After a second Add of one id two orders rest and the table holds one entry. -/
theorem not_accounted_after_second_add :
    ∃ ob, threeLevels.run [⟨7, 100, 5, 'A', 'B'⟩, ⟨7, 100, 4, 'A', 'B'⟩] = .ok ob ∧
      ¬ ob.Accounted := by
  obtain ⟨ob, hrun, _⟩ := (bookOf_new new_threeLevels).run
    (by decide : ∀ mbo ∈ [⟨7, 100, 5, 'A', 'B'⟩, ⟨7, 100, 4, 'A', 'B'⟩], Indexes _ mbo)
  refine ⟨ob, hrun, fun hacc => ?_⟩
  have hcounts : (threeLevels.run [⟨7, 100, 5, 'A', 'B'⟩, ⟨7, 100, 4, 'A', 'B'⟩]).map
      (fun ob => (ob.nodes.length, ob.ordersRef.keys.card)) = .ok (2, 1) := by decide
  have hlengths : ob.nodes.length = 2 ∧ ob.ordersRef.keys.card = 1 := by
    simpa [hrun, Except.map] using hcounts
  have hcount := hacc.count
  omega

end Accounts

end OrderBookServer.OrderBook
