import OrderBookServer.Commuting
import OrderBookServer.PairStaging
import OrderBookServer.Reference

/-!
What a book keeps of its history. Two admitted feeds lead to one book exactly when they leave the
same orders in the same priority at each price, whatever else they did, and no later message tells
the two apart. So a feed may be compacted: one Add for each order that rests, level by level.
-/
namespace OrderBookServer

open NodeList KeyedList Runs

/-- The order that an Add puts into the book. -/
def MboMsg.order (mbo : MboMsg) : RestingOrder := ⟨mbo.orderId, mbo.isBid, mbo.price, mbo.size⟩

namespace ReferenceBook

/-- At each price the same orders in the same priority. How the orders of different prices follow
each other does not matter. -/
def SamePriorities (book book' : ReferenceBook) : Prop :=
  ∀ b px, book.ordersAt b px = book'.ordersAt b px

/-- What admitted feeds keep of the reference book. -/
structure Standing (c : Config) (book : ReferenceBook) : Prop where
  ids_nodup : (book.map RestingOrder.orderId).Nodup
  priced : ∀ o ∈ book, c.InRange o.price ∧ c.OnGrid o.price

section Standing

variable {c : Config} {book : ReferenceBook} {mbo : MboMsg} {id : UInt64} {o : RestingOrder}

theorem standing_nil : Standing c [] := ⟨List.nodup_nil, nofun⟩

theorem Standing.delete (h : Standing c book) (id : UInt64) : Standing c (book.delete id) :=
  ⟨keys_delete_nodup h.ids_nodup, fun o ho => h.priced o (mem_delete.mp ho).1⟩

theorem Standing.setSize (h : Standing c book) (id : UInt64) (size : UInt32) :
    Standing c (book.setSize id size) := by
  constructor
  · rw [ReferenceBook.setSize, keys_update (RestingOrder.orderId_withSize size)]
    exact h.ids_nodup
  · intro o ho
    obtain ⟨old, hold, rfl⟩ := List.mem_map.mp ho
    split
    · exact h.priced old hold
    · exact h.priced old hold

theorem Standing.append (h : Standing c book) (hfresh : book.find o.orderId = none)
    (hprice : c.InRange o.price ∧ c.OnGrid o.price) : Standing c (book.append o) := by
  refine ⟨keys_append_singleton_nodup h.ids_nodup hfresh, fun other hother => ?_⟩
  rcases List.mem_append.mp hother with hold | hnew
  · exact h.priced other hold
  · rwa [List.mem_singleton.mp hnew]

theorem find_delete_self : (book.delete id).find id = none := by
  rw [find, delete, find_delete, if_pos rfl]

theorem Standing.cancel (h : Standing c book) : Standing c (book.cancel mbo) := by
  unfold ReferenceBook.cancel
  cases book.find mbo.orderId with
  | none => exact h
  | some o =>
    simp only
    split
    · exact h.delete _
    · exact h.setSize _ _

theorem Standing.modify (h : Standing c book) (hprice : c.InRange mbo.price ∧ c.OnGrid mbo.price) :
    Standing c (book.modify mbo) := by
  unfold ReferenceBook.modify
  cases hfind : book.find mbo.orderId with
  | none => exact h.append hfind hprice
  | some o =>
    have hid : o.orderId = mbo.orderId := ((find_eq_some_iff h.ids_nodup).mp hfind).2
    simp only
    split
    · exact h.delete _
    split
    · refine (h.delete _).append ?_ hprice
      rw [hid]
      exact find_delete_self
    · exact h.setSize _ _

theorem Standing.apply (h : Standing c book) (hm : book.Admits c mbo) :
    Standing c (book.apply mbo) := by
  by_cases hreset : mbo.action = 'R'
  · rw [ReferenceBook.apply, if_pos hreset]
    exact standing_nil
  by_cases hs : mbo.Sided
  · obtain ⟨ha | ha | ha, hprice, hfresh, _⟩ := hm hs
    · rw [apply_add hs ha]
      exact h.append (find_eq_none_iff.mpr (hfresh ha)) (hprice (.inl ha))
    · rw [apply_cancel hs ha]
      exact h.cancel
    · rw [apply_modify hs ha]
      exact h.modify (hprice (.inr ha))
  · rw [apply_of_not_sided hreset hs]
    exact h

/-- There are no orders at a price that no level stands for. -/
theorem Standing.ordersAt_eq_nil (hs : Standing c book) (hc : c.Valid) {b : Bool} {px : ℤ}
    (hpx : ∀ i < c.numLevels, c.levelPrice i ≠ px) : book.ordersAt b px = [] := by
  rw [ordersAt, List.map_eq_nil_iff, List.filter_eq_nil_iff]
  intro o ho hplace
  obtain ⟨hrange, hgrid⟩ := hs.priced o ho
  have hprice : o.price.toInt = px := by simpa using (of_decide_eq_true hplace).2
  exact hpx _ (hc.priceToIndex_lt hrange)
    ((hc.levelPrice_priceToIndex hrange hgrid).trans hprice)

end Standing

section SamePriorities

variable {c : Config} {book book' : ReferenceBook} {mbo : MboMsg} {id : UInt64} {o : RestingOrder}

theorem SamePriorities.symm (h : SamePriorities book book') : SamePriorities book' book :=
  fun b px => (h b px).symm

theorem mem_of_samePriorities (h : SamePriorities book book') (ho : o ∈ book) : o ∈ book' := by
  have hmem : (⟨o.orderId, o.size⟩ : Order) ∈ book.ordersAt o.isBid o.price.toInt :=
    List.mem_map.mpr ⟨o, List.mem_filter.mpr ⟨ho, by simp⟩, rfl⟩
  rw [h] at hmem
  obtain ⟨other, hother, heq⟩ := List.mem_map.mp hmem
  obtain ⟨hin, hplace⟩ := List.mem_filter.mp hother
  obtain ⟨hbid, hprice⟩ : other.isBid = o.isBid ∧ other.price.toInt = o.price.toInt := by
    simpa using hplace
  obtain ⟨hid, hsize⟩ := Order.mk.inj heq
  have hsame : other = o := by
    cases other
    cases o
    simp only [RestingOrder.mk.injEq]
    exact ⟨hid, hbid, Int64.toInt_inj.mp hprice, hsize⟩
  exact hsame ▸ hin

theorem SamePriorities.mem_iff (h : SamePriorities book book') : o ∈ book ↔ o ∈ book' :=
  ⟨mem_of_samePriorities h, mem_of_samePriorities h.symm⟩

theorem SamePriorities.find_eq (h : SamePriorities book book') (hs : Standing c book)
    (hs' : Standing c book') (id : UInt64) : book.find id = book'.find id := by
  ext o
  rw [find, find, find_eq_some_iff hs.ids_nodup, find_eq_some_iff hs'.ids_nodup, h.mem_iff]

theorem SamePriorities.delete (h : SamePriorities book book') (id : UInt64) :
    SamePriorities (book.delete id) (book'.delete id) := fun b px => by
  rw [ordersAt_delete, ordersAt_delete, h]

theorem SamePriorities.setSize (h : SamePriorities book book') (id : UInt64) (size : UInt32) :
    SamePriorities (book.setSize id size) (book'.setSize id size) := fun b px => by
  rw [ordersAt_setSize, ordersAt_setSize, h]

theorem SamePriorities.append (h : SamePriorities book book') (o : RestingOrder) :
    SamePriorities (book.append o) (book'.append o) := fun b px => by
  rw [ordersAt_append, ordersAt_append, h]

theorem SamePriorities.cancel (h : SamePriorities book book') (hs : Standing c book)
    (hs' : Standing c book') : SamePriorities (book.cancel mbo) (book'.cancel mbo) := by
  unfold ReferenceBook.cancel
  rw [← h.find_eq hs hs']
  cases book.find mbo.orderId with
  | none => exact h
  | some o =>
    simp only
    split
    · exact h.delete _
    · exact h.setSize _ _

theorem SamePriorities.modify (h : SamePriorities book book') (hs : Standing c book)
    (hs' : Standing c book') : SamePriorities (book.modify mbo) (book'.modify mbo) := by
  unfold ReferenceBook.modify
  rw [← h.find_eq hs hs']
  cases book.find mbo.orderId with
  | none => exact h.append _
  | some o =>
    simp only
    split
    · exact h.delete _
    split
    · exact (h.delete _).append _
    · exact h.setSize _ _

/-- The same message leads to the same priorities again. -/
theorem SamePriorities.apply (h : SamePriorities book book') (hs : Standing c book)
    (hs' : Standing c book') (hm : book.Admits c mbo) :
    SamePriorities (book.apply mbo) (book'.apply mbo) := by
  by_cases hreset : mbo.action = 'R'
  · rw [ReferenceBook.apply, ReferenceBook.apply, if_pos hreset, if_pos hreset]
    exact fun _ _ => rfl
  by_cases hsided : mbo.Sided
  · obtain ⟨ha | ha | ha, _⟩ := hm hsided
    · rw [apply_add hsided ha, apply_add hsided ha]
      exact h.append _
    · rw [apply_cancel hsided ha, apply_cancel hsided ha]
      exact h.cancel hs hs'
    · rw [apply_modify hsided ha, apply_modify hsided ha]
      exact h.modify hs hs'
  · rw [apply_of_not_sided hreset hsided, apply_of_not_sided hreset hsided]
    exact h

theorem SamePriorities.admits (h : SamePriorities book book') (hm : book.Admits c mbo) :
    book'.Admits c mbo := by
  intro hs
  obtain ⟨haction, hprice, hfresh, hside⟩ := hm hs
  exact ⟨haction, hprice, fun ha o ho => hfresh ha o (h.mem_iff.mpr ho),
    fun ha o ho => hside ha o (h.mem_iff.mpr ho)⟩

theorem SamePriorities.feeds (h : SamePriorities book book') (hs : Standing c book)
    (hs' : Standing c book') {msgs : List MboMsg}
    (hmsgs : Feeds ReferenceBook.apply (Admits c) book msgs) :
    Feeds ReferenceBook.apply (Admits c) book' msgs ∧
      SamePriorities (msgs.foldl ReferenceBook.apply book)
        (msgs.foldl ReferenceBook.apply book') := by
  induction msgs generalizing book book' with
  | nil => exact ⟨trivial, h⟩
  | cons mbo msgs ih =>
    obtain ⟨hm, hrest⟩ := hmsgs
    have hm' := h.admits hm
    obtain ⟨hfeeds, hlast⟩ := ih (h.apply hs hs' hm) (hs.apply hm) (hs'.apply hm') hrest
    exact ⟨⟨hm', hfeeds⟩, hlast⟩

end SamePriorities

section Adds

variable {c : Config} {book : ReferenceBook} {msgs : List MboMsg}

theorem Standing.feeds (h : Standing c book)
    (hmsgs : Feeds ReferenceBook.apply (Admits c) book msgs) :
    Standing c (msgs.foldl ReferenceBook.apply book) := by
  induction msgs generalizing book with
  | nil => exact h
  | cons mbo msgs ih => exact ih (h.apply hmsgs.1) hmsgs.2

/-- Adds put their orders behind all others. -/
theorem foldl_adds (hadds : ∀ mbo ∈ msgs, mbo.Sided ∧ mbo.action = 'A') :
    msgs.foldl ReferenceBook.apply book = book ++ msgs.map MboMsg.order := by
  induction msgs generalizing book with
  | nil => exact (List.append_nil _).symm
  | cons mbo msgs ih =>
    obtain ⟨hs, ha⟩ := hadds mbo (List.mem_cons_self ..)
    rw [List.foldl_cons, apply_add hs ha, ih fun m hm => hadds m (List.mem_cons_of_mem _ hm)]
    exact List.append_assoc book [mbo.order] _

theorem feeds_adds (hadds : ∀ mbo ∈ msgs, mbo.Sided ∧ mbo.action = 'A')
    (hids : ((book ++ msgs.map MboMsg.order).map RestingOrder.orderId).Nodup)
    (hprice : ∀ mbo ∈ msgs, c.InRange mbo.price ∧ c.OnGrid mbo.price) :
    Feeds ReferenceBook.apply (Admits c) book msgs := by
  induction msgs generalizing book with
  | nil => trivial
  | cons mbo msgs ih =>
    obtain ⟨hs, ha⟩ := hadds mbo (List.mem_cons_self ..)
    refine ⟨fun _ => ⟨.inl ha, fun _ => hprice mbo (List.mem_cons_self ..), fun _ o ho heq => ?_,
      fun hm => absurd (ha.symm.trans hm) (by decide)⟩, ?_⟩
    · rw [List.map_append, List.nodup_append] at hids
      exact hids.2.2 _ (List.mem_map_of_mem ho) mbo.orderId (List.mem_cons_self ..) heq
    · rw [apply_add hs ha]
      refine ih (fun m hm => hadds m (List.mem_cons_of_mem _ hm)) ?_
        fun m hm => hprice m (List.mem_cons_of_mem _ hm)
      rwa [List.map_cons, List.append_cons] at hids

theorem ordersAt_append_list (more : ReferenceBook) (b : Bool) (px : ℤ) :
    ordersAt (book ++ more) b px = book.ordersAt b px ++ more.ordersAt b px := by
  rw [ordersAt, ordersAt, ordersAt, List.filter_append, List.map_append]

theorem ordersAt_flatMap {α : Type} (l : List α) (f : α → ReferenceBook) (b : Bool) (px : ℤ) :
    ordersAt (l.flatMap f) b px = l.flatMap fun x => (f x).ordersAt b px := by
  induction l with
  | nil => rfl
  | cons x l ih => rw [List.flatMap_cons, List.flatMap_cons, ordersAt_append_list, ih]

end Adds

end ReferenceBook

namespace OrderBook

section Histories

variable {c : Config} {ob ob' : OrderBook} {book book' : ReferenceBook} {id : UInt64} {ref : Ref}

/-- The position of an entry's node is that of its id among the ids of the queue. -/
theorem Owned.idxOf_it (ho : ob.Owned) (h : ob.WellFormed) (href : ob.lookup id = some ref) :
    (ob.queue ref.isBid ref.index).addrs.idxOf ref.it =
      ((ob.queue ref.isBid ref.index).vals.map Order.orderId).idxOf id := by
  have hnode : ∀ n ∈ ob.queue ref.isBid ref.index, n.val.orderId = id ↔ n.addr = ref.it :=
    fun n hn => (ho.orderId_eq_iff h hn href).trans (and_iff_right ⟨rfl, rfl⟩)
  revert hnode
  generalize ob.queue ref.isBid ref.index = q
  intro hnode
  induction q with
  | nil => rfl
  | cons n q ih =>
    have hrest := ih fun m hm => hnode m (List.mem_cons_of_mem n hm)
    have hhead := hnode n (List.mem_cons_self ..)
    simp only [Nodes.addrs, Nodes.vals, List.map_cons, List.map_map] at hrest ⊢
    by_cases hn : n.addr = ref.it
    · rw [hn, hhead.mpr hn, List.idxOf_cons_self, List.idxOf_cons_self]
    · rw [List.idxOf_cons_ne _ hn, List.idxOf_cons_ne _ fun hid => hn (hhead.mp hid), hrest]

/-- The table can be read off the reference book. -/
theorem Refines.entry_eq (hR : Refines c ob book) (hc : c.Valid) (hs : book.Standing c)
    (id : UInt64) : ob.entry id = (book.find id).map fun o =>
      (o.isBid, c.priceToIndex o.price, o.price,
        ((book.ordersAt o.isBid o.price.toInt).map Order.orderId).idxOf id) := by
  have hwf := hR.bookOf.1
  unfold entry
  cases href : ob.lookup id with
  | none => rw [hR.find_none.mp href, Option.map_none, Option.map_none]
  | some ref =>
    have hfind := hR.find_some href
    have hprice := hs.priced _ ((find_eq_some_iff hs.ids_nodup).mp hfind).1
    obtain ⟨hlt, hindex⟩ := hwf.ref_index id ref href
    rw [hR.config_eq] at hlt hindex
    rw [hfind, Option.map_some, Option.map_some, hR.owned.idxOf_it hwf href,
      hR.queues _ _ hlt, hindex, hc.levelPrice_priceToIndex hprice.1 hprice.2]

theorem Refines.sameBook (hR : Refines c ob book) (hR' : Refines c ob' book') (hc : c.Valid)
    (hs : book.Standing c) (hs' : book'.Standing c) (h : book.SamePriorities book') :
    SameBook ob ob' := by
  have hvals : ∀ b i, (ob.queue b i).vals = (ob'.queue b i).vals := by
    intro b i
    by_cases hi : i < c.numLevels
    · rw [hR.queues b i hi, hR'.queues b i hi, h]
    · have hle := Nat.le_of_not_lt hi
      have hlen : (ob.side b).length = c.numLevels := by rw [hR.bookOf.1.length_eq, hR.config_eq]
      have hlen' : (ob'.side b).length = c.numLevels := by
        rw [hR'.bookOf.1.length_eq, hR'.config_eq]
      rw [queue_of_length_le (hlen ▸ hle), queue_of_length_le (hlen' ▸ hle)]
  refine ⟨hvals, fun b i => ?_, fun id => ?_⟩
  · rw [hR.bookOf.1.total_eq, hR'.bookOf.1.total_eq, sizesOf_eq_of_vals_eq (hvals b i)]
  · rw [hR.entry_eq hc hs, hR'.entry_eq hc hs', h.find_eq hs hs']
    simp only [h _ _]

theorem Refines.sameBook_iff (hR : Refines c ob book) (hR' : Refines c ob' book') (hc : c.Valid)
    (hs : book.Standing c) (hs' : book'.Standing c) :
    SameBook ob ob' ↔ book.SamePriorities book' := by
  refine ⟨fun h b px => ?_, hR.sameBook hR' hc hs hs'⟩
  by_cases hpx : ∃ i < c.numLevels, c.levelPrice i = px
  · obtain ⟨i, hi, rfl⟩ := hpx
    rw [← hR.queues b i hi, ← hR'.queues b i hi, h.queues]
  · push Not at hpx
    rw [hs.ordersAt_eq_nil hc hpx, hs'.ordersAt_eq_nil hc hpx]

end Histories

section Compaction

/-- One Add for each order of a level, in the order of its queue. -/
def levelAdds (ob : OrderBook) (b : Bool) (i : ℕ) : List MboMsg :=
  (ob.queue b i).vals.map fun o => ⟨o.orderId, ob.bidPrice i, o.size, 'A', if b then 'B' else 'A'⟩

/-- One Add for each order that rests, level by level. -/
def compacted (ob : OrderBook) : List MboMsg :=
  [true, false].flatMap fun b => (List.range ob.config.numLevels).flatMap fun i => ob.levelAdds b i

variable {c : Config} {ob : OrderBook} {book : ReferenceBook} {mbo : MboMsg} {b : Bool} {i : ℕ}

theorem mem_levelAdds (hm : mbo ∈ ob.levelAdds b i) :
    mbo.Sided ∧ mbo.action = 'A' ∧ mbo.isBid = b ∧ mbo.price = ob.bidPrice i := by
  obtain ⟨o, _, rfl⟩ := List.mem_map.mp hm
  cases b with
  | false => exact ⟨by simp [MboMsg.Sided], rfl, rfl, rfl⟩
  | true => exact ⟨by simp [MboMsg.Sided], rfl, rfl, rfl⟩

theorem mem_compacted : mbo ∈ ob.compacted ↔
    ∃ b, ∃ i < ob.config.numLevels, mbo ∈ ob.levelAdds b i := by
  simp [compacted, or_comm]

/-- The Adds name the nodes of the book one after the other. -/
theorem WellFormed.orderIds_compacted (h : ob.WellFormed) :
    ob.compacted.map MboMsg.orderId = ob.nodes.map fun n => n.val.orderId := by
  have hside : ∀ b, (List.range ob.config.numLevels).flatMap (fun i => ob.queue b i) =
      (ob.side b).flatMap Level.queue := by
    intro b
    have hlevels : ob.side b = (List.range ob.config.numLevels).map (ob.level b) := by
      refine List.ext_getElem (by rw [h.length_eq, List.length_map, List.length_range]) ?_
      intro i hi _
      simp [level, hi]
    rw [hlevels, List.flatMap_map]
    rfl
  have hids : ∀ b i, (ob.levelAdds b i).map MboMsg.orderId =
      (ob.queue b i).map fun n => n.val.orderId := by
    intro b i
    simp [levelAdds, Nodes.vals]
  have hnodes : ob.nodes = (ob.side true).flatMap Level.queue ++
      (ob.side false).flatMap Level.queue := List.flatMap_append
  rw [hnodes, ← hside true, ← hside false]
  simp [compacted, List.map_flatMap, hids]

theorem ordersAt_levelAdds (b' : Bool) (px : ℤ) :
    ReferenceBook.ordersAt ((ob.levelAdds b i).map MboMsg.order) b' px =
      if b = b' ∧ (ob.bidPrice i).toInt = px then (ob.queue b i).vals else [] := by
  have hplaced : ∀ o ∈ (ob.levelAdds b i).map MboMsg.order,
      o.isBid = b ∧ o.price = ob.bidPrice i := by
    intro o ho
    obtain ⟨mbo, hm, rfl⟩ := List.mem_map.mp ho
    exact (mem_levelAdds hm).2.2
  rw [ReferenceBook.ordersAt]
  split
  · rename_i hslot
    rw [List.filter_eq_self.mpr]
    · rw [levelAdds, List.map_map, List.map_map]
      exact List.map_id _
    · intro o ho
      obtain ⟨hbid, hprice⟩ := hplaced o ho
      rw [hbid, hprice]
      exact decide_eq_true hslot
  · rename_i hslot
    rw [List.filter_eq_nil_iff.mpr, List.map_nil]
    intro o ho
    obtain ⟨hbid, hprice⟩ := hplaced o ho
    rw [hbid, hprice, decide_eq_true_iff]
    exact hslot

theorem onGrid_bidPrice (hc : ob.config.Valid) (hi : i < ob.config.numLevels) :
    ob.config.OnGrid (ob.bidPrice i) := by
  refine ⟨i, ?_⟩
  rw [toInt_bidPrice hc hi, Config.levelPrice, Int.mul_comm]
  omega

theorem flatMap_ite_eq {α β : Type} [DecidableEq α] {l : List α} (hl : l.Nodup) {x : α}
    (hx : x ∈ l) (f : α → List β) : (l.flatMap fun y => if y = x then f y else []) = f x := by
  induction l with
  | nil => cases hx
  | cons y l ih =>
    obtain ⟨hy, htail⟩ := List.nodup_cons.mp hl
    rw [List.flatMap_cons]
    rcases List.mem_cons.mp hx with rfl | hx
    · have hrest : (l.flatMap fun y => if y = x then f y else []) = [] := by
        rw [List.flatMap_eq_nil_iff]
        intro z hz
        have hne : z ≠ x := fun heq => hy (heq ▸ hz)
        rw [if_neg hne]
      rw [if_pos rfl, hrest, List.append_nil]
    · have hne : y ≠ x := fun heq => hy (heq ▸ hx)
      rw [if_neg hne, ih htail hx, List.nil_append]

/-- The Adds leave at each level what rests there. -/
theorem ordersAt_compacted (hc : ob.config.Valid) (hi : i < ob.config.numLevels) :
    ReferenceBook.ordersAt (ob.compacted.map MboMsg.order) b (ob.config.levelPrice i) =
      (ob.queue b i).vals := by
  have hlevel : ∀ b', (List.range ob.config.numLevels).flatMap (fun j =>
      ReferenceBook.ordersAt ((ob.levelAdds b' j).map MboMsg.order) b (ob.config.levelPrice i)) =
        if b' = b then (ob.queue b i).vals else [] := by
    intro b'
    have hslot : ∀ j ∈ List.range ob.config.numLevels,
        ReferenceBook.ordersAt ((ob.levelAdds b' j).map MboMsg.order) b
          (ob.config.levelPrice i) =
            if j = i then (if b' = b then (ob.queue b i).vals else []) else [] := by
      intro j hj
      simp only [ordersAt_levelAdds, toInt_bidPrice hc (List.mem_range.mp hj), hc.levelPrice_inj]
      by_cases hji : j = i
      · subst hji
        by_cases hb : b' = b
        · subst hb
          simp
        · simp [hb]
      · simp [hji]
    rw [List.flatMap_congr hslot]
    exact flatMap_ite_eq List.nodup_range (List.mem_range.mpr hi) _
  simp only [compacted, List.map_flatMap, ReferenceBook.ordersAt_flatMap, hlevel]
  cases b <;> simp

theorem Refines.compacted (hR : Refines c ob book) (hc : c.Valid) (hs : book.Standing c) :
    Feeds ReferenceBook.apply (ReferenceBook.Admits c) [] ob.compacted ∧
      book.SamePriorities (ob.compacted.foldl ReferenceBook.apply []) ∧
        ob.compacted.length = ob.ordersRef.keys.card := by
  have hwf := hR.bookOf.1
  have hconfig := hR.config_eq
  subst hconfig
  have hadds : ∀ mbo ∈ ob.compacted, mbo.Sided ∧ mbo.action = 'A' := by
    intro mbo hm
    obtain ⟨b, i, _, hm⟩ := mem_compacted.mp hm
    exact ⟨(mem_levelAdds hm).1, (mem_levelAdds hm).2.1⟩
  have hids : (([] ++ ob.compacted.map MboMsg.order).map RestingOrder.orderId).Nodup := by
    rw [List.nil_append, List.map_map]
    show (ob.compacted.map MboMsg.orderId).Nodup
    rw [hwf.orderIds_compacted]
    exact hR.owned.once hwf
  have hprice : ∀ mbo ∈ ob.compacted,
      ob.config.InRange mbo.price ∧ ob.config.OnGrid mbo.price := by
    intro mbo hm
    obtain ⟨b, i, hi, hm⟩ := mem_compacted.mp hm
    rw [(mem_levelAdds hm).2.2.2]
    exact ⟨inRange_bidPrice hc hi, onGrid_bidPrice hc hi⟩
  have hfeeds := ReferenceBook.feeds_adds hadds hids hprice
  refine ⟨hfeeds, fun b px => ?_, ?_⟩
  · have hs' := ReferenceBook.standing_nil.feeds hfeeds
    by_cases hpx : ∃ i < ob.config.numLevels, ob.config.levelPrice i = px
    · obtain ⟨i, hi, rfl⟩ := hpx
      rw [ReferenceBook.foldl_adds hadds, List.nil_append, ordersAt_compacted hc hi,
        hR.queues b i hi]
    · push Not at hpx
      rw [hs.ordersAt_eq_nil hc hpx, hs'.ordersAt_eq_nil hc hpx]
  · rw [← hR.owned.count hwf, ← List.length_map MboMsg.orderId, hwf.orderIds_compacted,
      List.length_map]

end Compaction

section Reachable

variable {priceMin priceMax tick : Int64} {ob₀ : OrderBook}

theorem Refines.run {c : Config} {ob : OrderBook} {book : ReferenceBook}
    (hR : Refines c ob book) (hc : c.Valid) {msgs : List MboMsg}
    (hmsgs : Feeds ReferenceBook.apply (ReferenceBook.Admits c) book msgs) :
    ∃ t, ob.run msgs = .ok t ∧ Refines c t (msgs.foldl ReferenceBook.apply book) := by
  have hstep : ∀ ob book mbo, Refines c ob book → ReferenceBook.Admits c book mbo →
      ∃ t, ob.step mbo = .ok t ∧ Refines c t (ReferenceBook.apply book mbo) :=
    fun _ _ _ hR hm => hR.step hc hm
  exact run_simulation (Refines c) hstep hR hmsgs (List.prefix_refl _)

theorem refines_new (hnew : new priceMin priceMax tick = some ob₀) : Refines ob₀.config ob₀ [] :=
  refines_nil (bookOf_new hnew) (queue_new hnew) (lookup_new hnew)

/-- No feed tells two books apart that hold the same priorities. -/
theorem Refines.sameBook_run {c : Config} {ob ob' : OrderBook} {book book' : ReferenceBook}
    (hR : Refines c ob book) (hR' : Refines c ob' book') (hc : c.Valid) (hs : book.Standing c)
    (hs' : book'.Standing c) (h : book.SamePriorities book') {more : List MboMsg}
    (hmore : Feeds ReferenceBook.apply (ReferenceBook.Admits c) book more) :
    ∃ t t', ob.run more = .ok t ∧ ob'.run more = .ok t' ∧ SameBook t t' := by
  obtain ⟨hmore', hlast⟩ := h.feeds hs hs' hmore
  obtain ⟨t, hrun, hT⟩ := hR.run hc hmore
  obtain ⟨t', hrun', hT'⟩ := hR'.run hc hmore'
  exact ⟨t, t', hrun, hrun', hT.sameBook hT' hc (hs.feeds hmore) (hs'.feeds hmore') hlast⟩

/-- Two admitted feeds lead to one book exactly when they leave the same orders in the same
priority at each price, and no admitted feed tells the two books apart after that. -/
theorem sameBook_iff_samePriorities (hnew : new priceMin priceMax tick = some ob₀) (ht : 0 < tick)
    (hp : priceMin ≤ priceMax) (msgs msgs' : List MboMsg)
    (hmsgs : Feeds ReferenceBook.apply (ReferenceBook.Admits ob₀.config) [] msgs)
    (hmsgs' : Feeds ReferenceBook.apply (ReferenceBook.Admits ob₀.config) [] msgs') :
    ∃ ob ob', ob₀.run msgs = .ok ob ∧ ob₀.run msgs' = .ok ob' ∧
      (SameBook ob ob' ↔ (msgs.foldl ReferenceBook.apply []).SamePriorities
        (msgs'.foldl ReferenceBook.apply [])) ∧
      (SameBook ob ob' → ∀ more, Feeds ReferenceBook.apply (ReferenceBook.Admits ob₀.config)
        (msgs.foldl ReferenceBook.apply []) more →
          ∃ t t', ob.run more = .ok t ∧ ob'.run more = .ok t' ∧ SameBook t t') := by
  have hc := valid_new hnew ht hp
  obtain ⟨ob, hrun, hR⟩ := (refines_new hnew).run hc hmsgs
  obtain ⟨ob', hrun', hR'⟩ := (refines_new hnew).run hc hmsgs'
  have hs := ReferenceBook.standing_nil.feeds hmsgs
  have hs' := ReferenceBook.standing_nil.feeds hmsgs'
  have hiff := hR.sameBook_iff hR' hc hs hs'
  exact ⟨ob, ob', hrun, hrun', hiff, fun hsame more hmore =>
    hR.sameBook_run hR' hc hs hs' (hiff.mp hsame) hmore⟩

/-- The orders that `priorities` leaves, added in another order. -/
theorem sameBook_iff_samePriorities_priorities : ∃ ob ob', threeLevels.run priorities = .ok ob ∧
    threeLevels.run [⟨3, 0, 6, 'A', 'A'⟩, ⟨1, 200, 7, 'A', 'B'⟩, ⟨2, 100, 1, 'A', 'B'⟩] = .ok ob' ∧
      (SameBook ob ob' ↔ (priorities.foldl ReferenceBook.apply []).SamePriorities
        ([⟨3, 0, 6, 'A', 'A'⟩, ⟨1, 200, 7, 'A', 'B'⟩, ⟨2, 100, 1, 'A', 'B'⟩].foldl
          ReferenceBook.apply [])) := by
  obtain ⟨ob, ob', hrun, hrun', hiff, _⟩ := sameBook_iff_samePriorities new_threeLevels (by decide)
    (by decide) priorities [⟨3, 0, 6, 'A', 'A'⟩, ⟨1, 200, 7, 'A', 'B'⟩, ⟨2, 100, 1, 'A', 'B'⟩]
    (by decide) (by decide)
  exact ⟨ob, ob', hrun, hrun', hiff⟩

/-- After any admitted feed the book can be built anew by one Add for each order that rests, and
no admitted feed tells the new book from the old. -/
theorem compacted_sameBook (hnew : new priceMin priceMax tick = some ob₀) (ht : 0 < tick)
    (hp : priceMin ≤ priceMax) (msgs : List MboMsg)
    (hmsgs : Feeds ReferenceBook.apply (ReferenceBook.Admits ob₀.config) [] msgs) :
    ∃ ob ob', ob₀.run msgs = .ok ob ∧ ob₀.run ob.compacted = .ok ob' ∧
      Feeds ReferenceBook.apply (ReferenceBook.Admits ob₀.config) [] ob.compacted ∧
      ob.compacted.length = ob.ordersRef.keys.card ∧ SameBook ob ob' ∧
      ∀ more, Feeds ReferenceBook.apply (ReferenceBook.Admits ob₀.config)
        (msgs.foldl ReferenceBook.apply []) more →
          ∃ t t', ob.run more = .ok t ∧ ob'.run more = .ok t' ∧ SameBook t t' := by
  have hc := valid_new hnew ht hp
  obtain ⟨ob, hrun, hR⟩ := (refines_new hnew).run hc hmsgs
  have hs := ReferenceBook.standing_nil.feeds hmsgs
  obtain ⟨hfeeds, hsame, hlength⟩ := hR.compacted hc hs
  obtain ⟨ob', hrun', hR'⟩ := (refines_new hnew).run hc hfeeds
  have hs' := ReferenceBook.standing_nil.feeds hfeeds
  exact ⟨ob, ob', hrun, hrun', hfeeds, hlength, hR.sameBook hR' hc hs hs' hsame,
    fun more hmore => hR.sameBook_run hR' hc hs hs' hsame hmore⟩

theorem compacted_sameBook_priorities : ∃ ob ob', threeLevels.run priorities = .ok ob ∧
    threeLevels.run ob.compacted = .ok ob' ∧ SameBook ob ob' := by
  obtain ⟨ob, ob', hrun, hrun', _, _, hsame, _⟩ :=
    compacted_sameBook new_threeLevels (by decide) (by decide) priorities (by decide)
  exact ⟨ob, ob', hrun, hrun', hsame⟩

end Reachable

end OrderBook

end OrderBookServer
