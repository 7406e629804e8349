import OrderBookServer.KeyedList
import OrderBookServer.Liquidity

/-!
The reference book: all resting orders in one list, in priority order. The book
refines it as long as prices lie on the grid inside the range, an Add never
reuses the id of a resting order and a Modify keeps the side of its order: each
queue is then the part of the reference list with its side and its price.
-/
namespace OrderBookServer

open NodeList KeyedList Runs

structure RestingOrder where
  orderId : UInt64
  isBid : Bool
  price : Int64
  size : UInt32
deriving DecidableEq, Repr

theorem RestingOrder.orderId_withSize (size : UInt32) (o : RestingOrder) :
    ({ o with size := size } : RestingOrder).orderId = o.orderId := rfl

abbrev ReferenceBook := List RestingOrder

namespace ReferenceBook

def find (book : ReferenceBook) (id : UInt64) : Option RestingOrder :=
  KeyedList.find RestingOrder.orderId book id

def delete (book : ReferenceBook) (id : UInt64) : ReferenceBook :=
  KeyedList.delete RestingOrder.orderId book id

def setSize (book : ReferenceBook) (id : UInt64) (size : UInt32) : ReferenceBook :=
  update RestingOrder.orderId book id (fun o => { o with size := size })

def append (book : ReferenceBook) (o : RestingOrder) : ReferenceBook := book ++ [o]

def add (book : ReferenceBook) (mbo : MboMsg) : ReferenceBook :=
  book.append ⟨mbo.orderId, mbo.isBid, mbo.price, mbo.size⟩

def cancel (book : ReferenceBook) (mbo : MboMsg) : ReferenceBook :=
  match book.find mbo.orderId with
  | none => book
  | some o =>
    let rest := o.size - min mbo.size o.size
    if rest = 0 then book.delete mbo.orderId else book.setSize mbo.orderId rest

def modify (book : ReferenceBook) (mbo : MboMsg) : ReferenceBook :=
  match book.find mbo.orderId with
  | none => book.add mbo
  | some o =>
    if mbo.size = 0 then book.delete mbo.orderId
    else if mbo.price ≠ o.price ∨ mbo.size > o.size then
      append (book.delete mbo.orderId) { o with price := mbo.price, size := mbo.size }
    else book.setSize mbo.orderId mbo.size

def apply (book : ReferenceBook) (mbo : MboMsg) : ReferenceBook :=
  if mbo.action = 'R' then []
  else if mbo.side ≠ 'A' ∧ mbo.side ≠ 'B' then book
  else
    match mbo.action with
    | 'A' => book.add mbo
    | 'C' => book.cancel mbo
    | 'M' => book.modify mbo
    | _ => book

/-- The orders of one side at one price, in priority order. -/
def ordersAt (book : ReferenceBook) (b : Bool) (px : ℤ) : List Order :=
  (book.filter (fun o => o.isBid = b ∧ o.price.toInt = px)).map (fun o => ⟨o.orderId, o.size⟩)

/-- What is assumed of the feed about a message that the book does not skip. -/
def Admits (c : Config) (book : ReferenceBook) (mbo : MboMsg) : Prop :=
  mbo.Sided →
    (mbo.action = 'A' ∨ mbo.action = 'C' ∨ mbo.action = 'M') ∧
    (mbo.action = 'A' ∨ mbo.action = 'M' → c.InRange mbo.price ∧ c.OnGrid mbo.price) ∧
    (mbo.action = 'A' → ∀ o ∈ book, o.orderId ≠ mbo.orderId) ∧
    (mbo.action = 'M' → ∀ o ∈ book, o.orderId = mbo.orderId → o.isBid = mbo.isBid)

instance (c : Config) (book : ReferenceBook) (mbo : MboMsg) : Decidable (Admits c book mbo) := by
  unfold Admits
  infer_instance

section OrdersAt

variable (book : ReferenceBook) (b : Bool) (px : ℤ)

theorem ordersAt_delete (id : UInt64) :
    ordersAt (book.delete id) b px = KeyedList.delete Order.orderId (book.ordersAt b px) id :=
  select_delete fun _ => rfl

theorem ordersAt_setSize (id : UInt64) (size : UInt32) : ordersAt (book.setSize id size) b px =
    update Order.orderId (book.ordersAt b px) id (fun o => { o with size := size }) :=
  select_update (fun _ => rfl) (fun _ => rfl) (fun _ => rfl)

theorem ordersAt_append (o : RestingOrder) : ordersAt (book.append o) b px =
    book.ordersAt b px ++
      if o.isBid = b ∧ o.price.toInt = px then [⟨o.orderId, o.size⟩] else [] := by
  by_cases h : o.isBid = b ∧ o.price.toInt = px
  · simp [ordersAt, append, List.filter_append, h]
  · have hfilter : [o].filter (fun o => o.isBid = b ∧ o.price.toInt = px) = [] := by simpa using h
    rw [ordersAt, append, List.filter_append, hfilter, if_neg h, List.append_nil, List.append_nil]
    rfl

end OrdersAt

section Cases

variable {book : ReferenceBook} {mbo : MboMsg} {id : UInt64} {o : RestingOrder}

theorem setSize_self (hl : (book.map RestingOrder.orderId).Nodup) (ho : book.find id = some o) :
    book.setSize id o.size = book := by
  obtain ⟨hmem, rfl⟩ := (find_eq_some_iff hl).mp ho
  have hmap : book.setSize o.orderId o.size = book.map (fun x => x) := by
    apply List.map_congr_left
    intro x hx
    split
    · rename_i hid
      rw [List.inj_on_of_nodup_map hl hx hmem hid]
    · rfl
  rw [hmap, List.map_id']

theorem apply_of_not_sided (ha : mbo.action ≠ 'R') (hs : ¬ mbo.Sided) : book.apply mbo = book := by
  rw [apply, if_neg ha, if_pos (MboMsg.other_of_not_sided ha hs)]

theorem apply_of_sided (hs : mbo.Sided) : book.apply mbo =
    match mbo.action with
    | 'A' => book.add mbo
    | 'C' => book.cancel mbo
    | 'M' => book.modify mbo
    | _ => book := by
  rw [apply, if_neg hs.1, if_neg hs.not_other]

theorem apply_add (hs : mbo.Sided) (ha : mbo.action = 'A') : book.apply mbo = book.add mbo := by
  rw [apply_of_sided hs]
  simp only [ha]

theorem apply_cancel (hs : mbo.Sided) (ha : mbo.action = 'C') :
    book.apply mbo = book.cancel mbo := by
  rw [apply_of_sided hs]
  simp only [ha]

theorem apply_modify (hs : mbo.Sided) (ha : mbo.action = 'M') :
    book.apply mbo = book.modify mbo := by
  rw [apply_of_sided hs]
  simp only [ha]

end Cases

end ReferenceBook

/-- An on-grid price inside the range is the price of exactly its own level. -/
theorem Config.Valid.toInt_eq_levelPrice_iff {c : Config} (hc : c.Valid) {px : Int64} {i : ℕ}
    (hpx : c.InRange px) (hgrid : c.OnGrid px) :
    px.toInt = c.levelPrice i ↔ i = c.priceToIndex px := by
  rw [← hc.levelPrice_priceToIndex hpx hgrid]
  exact hc.levelPrice_inj.trans eq_comm

namespace OrderBook

section Values

variable {ob : OrderBook} {mbo : MboMsg} {b b' : Bool} {i i' : ℕ} {id : UInt64} {ref : Ref}

theorem WellFormed.vals_place (h : ob.WellFormed) (hi : i < ob.config.numLevels) :
    ((ob.place mbo b i).queue b' i').vals =
      (ob.queue b' i').vals ++ if b = b' ∧ i' = i then [⟨mbo.orderId, mbo.size⟩] else [] := by
  rw [h.queue_place hi]
  by_cases hslot : b' = b ∧ i' = i
  · obtain ⟨rfl, rfl⟩ := hslot
    simp [Nodes.vals, Nodes.pushBack]
  · have hslot' : ¬ (b = b' ∧ i' = i) := fun h => hslot ⟨h.1.symm, h.2⟩
    rw [if_neg hslot, if_neg hslot', List.append_nil]

variable (ho : ob.Owned) (h : ob.WellFormed) (href : ob.lookup id = some ref)
include ho h href

/-- The part of a queue without an id: the node is erased, or was not there. -/
theorem Owned.vals_erase : delete Order.orderId (ob.queue b i).vals id =
    (if b = ref.isBid ∧ i = ref.index
      then (ob.queue ref.isBid ref.index).erase ref.it else ob.queue b i).vals := by
  have hvals : delete Order.orderId (ob.queue b i).vals id =
      Nodes.vals ((ob.queue b i).filter (fun n => n.val.orderId ≠ id)) := by
    simp only [delete, Nodes.vals, List.filter_map]
    rfl
  rw [hvals]
  congr 1
  split
  · rename_i hslot
    obtain ⟨rfl, rfl⟩ := hslot
    apply List.filter_congr
    intro n hn
    simp [ho.orderId_eq_iff h hn href]
  · rename_i hslot
    rw [List.filter_eq_self]
    intro n hn
    have hid : n.val.orderId ≠ id := fun hid => hslot ((ho.orderId_eq_iff h hn href).mp hid).1
    simpa using hid

theorem Owned.vals_remove : ((ob.remove id ref).queue b i).vals =
    delete Order.orderId (ob.queue b i).vals id := by
  rw [ho.vals_erase h href, h.queue_remove href]

theorem Owned.vals_resize (size : UInt32) : ((ob.resize id ref size).queue b i).vals =
    update Order.orderId (ob.queue b i).vals id (fun o => { o with size := size }) := by
  rw [h.queue_resize href]
  split
  · rename_i hslot
    obtain ⟨rfl, rfl⟩ := hslot
    simp only [Nodes.vals, Nodes.write, update, List.map_map]
    apply List.map_congr_left
    intro n hn
    have hiff := ho.orderId_eq_iff h hn href
    by_cases haddr : n.addr = ref.it
    · have hid : n.val.orderId = id := hiff.mpr ⟨⟨rfl, rfl⟩, haddr⟩
      simp [haddr, hid]
    · have hid : n.val.orderId ≠ id := fun hid => haddr (hiff.mp hid).2
      simp [haddr, hid]
  · rename_i hslot
    simp only [Nodes.vals, update, List.map_map]
    apply List.map_congr_left
    intro n hn
    have hid : n.val.orderId ≠ id := fun hid => hslot ((ho.orderId_eq_iff h hn href).mp hid).1
    simp [hid]

theorem Owned.vals_requeue (size : UInt32) : ((ob.requeue id ref size).queue b i).vals =
    delete Order.orderId (ob.queue b i).vals id ++
      if ref.isBid = b ∧ i = ref.index then [⟨id, size⟩] else [] := by
  rw [ho.vals_erase h href, h.queue_requeue href]
  by_cases hslot : b = ref.isBid ∧ i = ref.index
  · obtain ⟨rfl, rfl⟩ := hslot
    rw [if_pos ⟨rfl, rfl⟩, if_pos ⟨rfl, rfl⟩, if_pos ⟨rfl, rfl⟩,
      Nodes.spliceBack_write (h.addr_nodup _ _) (h.node_mem href)]
    simp [Nodes.vals]
  · have hslot' : ¬ (ref.isBid = b ∧ i = ref.index) := fun h => hslot ⟨h.1.symm, h.2⟩
    rw [if_neg hslot, if_neg hslot, if_neg hslot', List.append_nil]

end Values

section Refinement

/-- Orders that lose and keep their priority: a larger size, a smaller size, a new
price and a partial cancel. -/
def priorities : List MboMsg :=
  [⟨1, 100, 5, 'A', 'B'⟩, ⟨2, 100, 4, 'A', 'B'⟩, ⟨1, 100, 9, 'M', 'B'⟩, ⟨2, 100, 1, 'M', 'B'⟩,
    ⟨1, 200, 9, 'M', 'B'⟩, ⟨3, 0, 6, 'M', 'A'⟩, ⟨1, 0, 2, 'C', 'B'⟩]

/-- The book holds what the reference book holds, level by level. -/
structure Refines (c : Config) (ob : OrderBook) (book : ReferenceBook) : Prop where
  bookOf : BookOf c ob
  owned : ob.Owned
  ids_nodup : (book.map RestingOrder.orderId).Nodup
  known : ∀ id, (ob.lookup id).map (fun ref => (ref.isBid, ref.price)) =
    (book.find id).map (fun o => (o.isBid, o.price))
  queues : ∀ b i, i < c.numLevels → (ob.queue b i).vals = book.ordersAt b (c.levelPrice i)

variable {c : Config} {ob : OrderBook} {book : ReferenceBook} {mbo : MboMsg} {id : UInt64}
variable {ref : Ref} {o : RestingOrder} {size : UInt32}

theorem Refines.config_eq (hR : Refines c ob book) : ob.config = c := hR.bookOf.2

theorem refines_nil (hbook : BookOf c ob) (hqueue : ∀ b i, ob.queue b i = [])
    (hlookup : ∀ id, ob.lookup id = none) : Refines c ob [] where
  bookOf := hbook
  owned b i n hn := by simp [hqueue] at hn
  ids_nodup := List.nodup_nil
  known id := by
    rw [hlookup]
    rfl
  queues b i _ := by
    rw [hqueue]
    rfl

theorem Refines.find_none (hR : Refines c ob book) :
    ob.lookup id = none ↔ book.find id = none := by
  have h := hR.known id
  rw [← Option.map_eq_none_iff, h, Option.map_eq_none_iff]

/-- A known id names the same order in both books. -/
theorem Refines.find_some (hR : Refines c ob book) (href : ob.lookup id = some ref) :
    book.find id = some ⟨id, ref.isBid, ref.price, ob.sizeAt ref⟩ := by
  have hwf := hR.bookOf.1
  have hidx : ref.index < c.numLevels := by
    rw [← hR.config_eq]
    exact (hwf.ref_index id ref href).1
  have hval : (⟨id, ob.sizeAt ref⟩ : Order) ∈ (ob.queue ref.isBid ref.index).vals :=
    Nodes.mem_vals.mpr ⟨_, hwf.node_mem href⟩
  rw [hR.queues _ _ hidx] at hval
  obtain ⟨o, ho, heq⟩ := List.mem_map.mp hval
  have hid : o.orderId = id := congrArg Order.orderId heq
  have hsize : o.size = ob.sizeAt ref := congrArg Order.size heq
  have hfind : book.find id = some o :=
    (find_eq_some_iff hR.ids_nodup).mpr ⟨(List.mem_filter.mp ho).1, hid⟩
  have hknown := hR.known id
  rw [href, hfind] at hknown
  simp only [Option.map_some, Option.some.injEq, Prod.mk.injEq] at hknown
  rw [hfind, hknown.1, hknown.2, ← hid, ← hsize]

theorem Refines.remove (hR : Refines c ob book) (href : ob.lookup id = some ref) :
    Refines c (ob.remove id ref) (book.delete id) where
  bookOf := ⟨hR.bookOf.1.remove href, config_remove.trans hR.config_eq⟩
  owned := hR.owned.remove hR.bookOf.1 href
  ids_nodup := keys_delete_nodup hR.ids_nodup
  known id' := by
    rw [lookup_remove, ReferenceBook.find, ReferenceBook.delete, find_delete]
    split
    · rfl
    · exact hR.known id'
  queues b i hi := by
    rw [hR.owned.vals_remove hR.bookOf.1 href, hR.queues b i hi, ReferenceBook.ordersAt_delete]

theorem Refines.resize (hR : Refines c ob book) (href : ob.lookup id = some ref)
    (size : UInt32) : Refines c (ob.resize id ref size) (book.setSize id size) where
  bookOf := ⟨hR.bookOf.1.resize href size, config_resize.trans hR.config_eq⟩
  owned := hR.owned.resize hR.bookOf.1 href size
  ids_nodup := by
    rw [ReferenceBook.setSize, keys_update (RestingOrder.orderId_withSize size)]
    exact hR.ids_nodup
  known id' := by
    rw [lookup_resize, hR.known, ReferenceBook.find, ReferenceBook.find, ReferenceBook.setSize,
      find_update (RestingOrder.orderId_withSize size)]
    split
    · cases KeyedList.find RestingOrder.orderId book id' <;> rfl
    · rfl
  queues b i hi := by
    rw [hR.owned.vals_resize hR.bookOf.1 href, hR.queues b i hi, ReferenceBook.ordersAt_setSize]

/-- A new order at the back of its queue is a new order at the back of the list. -/
theorem Refines.place (hR : Refines c ob book) (hc : c.Valid)
    (hfresh : book.find mbo.orderId = none)
    (hpx : c.InRange mbo.price) (hgrid : c.OnGrid mbo.price) (b : Bool) :
    Refines c (ob.place mbo b (c.priceToIndex mbo.price))
      (book.append ⟨mbo.orderId, b, mbo.price, mbo.size⟩) := by
  have hwf := hR.bookOf.1
  have hidx : c.priceToIndex mbo.price < ob.config.numLevels := by
    rw [hR.config_eq]
    exact hc.priceToIndex_lt hpx
  refine ⟨⟨hwf.place hidx (by rw [hR.config_eq]), config_place.trans hR.config_eq⟩,
    hR.owned.place hwf hidx (hR.find_none.mpr hfresh),
    keys_append_singleton_nodup hR.ids_nodup hfresh, ?_, ?_⟩
  · intro id
    rw [lookup_place, ReferenceBook.find, ReferenceBook.append, find_append_singleton]
    split
    · rename_i hid
      subst hid
      rw [show KeyedList.find RestingOrder.orderId book mbo.orderId = none from hfresh]
      simp
    · rename_i hid
      rw [if_neg (Ne.symm hid), Option.or_none]
      exact hR.known id
  · intro b' i hi
    rw [hwf.vals_place hidx, hR.queues b' i hi, ReferenceBook.ordersAt_append]
    simp only [hc.toInt_eq_levelPrice_iff hpx hgrid]

/-- An order moved to the back of its own queue is moved to the back of the list. -/
theorem Refines.requeue (hR : Refines c ob book) (hc : c.Valid) (href : ob.lookup id = some ref)
    (hpx : c.InRange ref.price) (hgrid : c.OnGrid ref.price) (size : UInt32) :
    Refines c (ob.requeue id ref size)
      ((book.delete id).append ⟨id, ref.isBid, ref.price, size⟩) := by
  have hwf := hR.bookOf.1
  have hdel := hR.remove href
  have hfresh : ReferenceBook.find (book.delete id) id = none :=
    hdel.find_none.mp (by rw [lookup_remove, if_pos rfl])
  refine ⟨⟨hwf.requeue href size, config_requeue.trans hR.config_eq⟩,
    hR.owned.requeue hwf href size, keys_append_singleton_nodup hdel.ids_nodup hfresh, ?_, ?_⟩
  · intro id'
    rw [lookup_requeue, ReferenceBook.find, ReferenceBook.append, find_append_singleton]
    have hknown := hdel.known id'
    rw [lookup_remove] at hknown
    split at hknown
    · rename_i hid
      subst hid
      rw [show KeyedList.find RestingOrder.orderId (book.delete id') id' = none from hfresh, href]
      simp
    · rename_i hid
      rw [if_neg (Ne.symm hid), Option.or_none]
      exact hknown
  · intro b i hi
    rw [hR.owned.vals_requeue hwf href, hR.queues b i hi, ReferenceBook.ordersAt_append,
      ReferenceBook.ordersAt_delete]
    have hidx : ref.index = c.priceToIndex ref.price := by
      rw [← hR.config_eq]
      exact (hwf.ref_index id ref href).2
    simp only [hc.toInt_eq_levelPrice_iff hpx hgrid, hidx]

/-- What a cancel leaves of an order of size `a`. -/
theorem sub_min_eq_zero_iff {a b : UInt32} : a - min b a = 0 ↔ a ≤ b := by
  have hdef : min b a = if b ≤ a then b else a := rfl
  rw [hdef]
  split
  · rename_i hle
    rw [← UInt32.toNat_inj, UInt32.toNat_sub_of_le _ _ hle, UInt32.le_iff_toNat_le]
    have := UInt32.le_iff_toNat_le.mp hle
    simp only [UInt32.toNat_zero]
    omega
  · rename_i hle
    simp [UInt32.le_of_lt (UInt32.not_le.mp hle)]

theorem Refines.cancel (hR : Refines c ob book) :
    Refines c (ob.perform mbo (ob.takeEffect mbo)) (book.cancel mbo) := by
  unfold takeEffect ReferenceBook.cancel
  cases href : ob.lookup mbo.orderId with
  | none =>
    simp only [hR.find_none.mp href]
    exact hR
  | some ref =>
    simp only [hR.find_some href]
    by_cases hle : mbo.size ≥ ob.sizeAt ref
    · rw [if_pos hle, if_pos (sub_min_eq_zero_iff.mpr hle)]
      exact hR.remove href
    · have hlt : mbo.size < ob.sizeAt ref := UInt32.not_le.mp hle
      have hmin : min mbo.size (ob.sizeAt ref) = mbo.size := if_pos (UInt32.le_of_lt hlt)
      rw [if_neg hle, if_neg (fun hzero => hle (sub_min_eq_zero_iff.mp hzero)), hmin]
      exact hR.resize href _

theorem Refines.modify (hR : Refines c ob book) (hc : c.Valid) (hpx : c.InRange mbo.price)
    (hgrid : c.OnGrid mbo.price)
    (hside : ∀ o ∈ book, o.orderId = mbo.orderId → o.isBid = mbo.isBid) :
    Refines c (ob.perform mbo (ob.modifyEffect mbo)) (book.modify mbo) := by
  have hidx : ob.msgIndex mbo = c.priceToIndex mbo.price := by rw [msgIndex, hR.config_eq]
  unfold modifyEffect ReferenceBook.modify
  cases href : ob.lookup mbo.orderId with
  | none =>
    have hfind := hR.find_none.mp href
    simp only [hfind, perform, hidx]
    exact hR.place hc hfind hpx hgrid mbo.isBid
  | some ref =>
    have hfind := hR.find_some href
    have hbid : ref.isBid = mbo.isBid :=
      hside _ ((find_eq_some_iff hR.ids_nodup).mp hfind).1 rfl
    simp only [hfind]
    by_cases hzero : mbo.size = 0
    · simp only [if_pos hzero, perform]
      exact hR.remove href
    simp only [if_neg hzero]
    by_cases hprice : mbo.price ≠ ref.price
    · simp only [if_pos hprice, if_pos (Or.inl hprice), perform, hidx, hbid]
      have hdel := hR.remove href
      exact hdel.place hc (hdel.find_none.mp (by rw [lookup_remove, if_pos rfl])) hpx hgrid _
    have hsame : mbo.price = ref.price := not_not.mp hprice
    by_cases hgrow : mbo.size > ob.sizeAt ref
    · simp only [if_neg hprice, if_pos hgrow, if_pos (Or.inr hgrow), perform]
      rw [hsame] at hpx hgrid ⊢
      exact hR.requeue hc href hpx hgrid _
    have hneither : ¬ (mbo.price ≠ ref.price ∨ mbo.size > ob.sizeAt ref) := by tauto
    simp only [if_neg hprice, if_neg hgrow, if_neg hneither]
    by_cases hshrink : mbo.size < ob.sizeAt ref
    · simp only [if_pos hshrink, perform]
      exact hR.resize href _
    · -- The size is unchanged, so the reference list is rewritten with what it holds.
      simp only [if_neg hshrink, perform]
      have hsize : mbo.size = ob.sizeAt ref := 
        UInt32.le_antisymm (UInt32.not_lt.mp hgrow) (UInt32.not_lt.mp hshrink)
      rw [hsize, ReferenceBook.setSize_self hR.ids_nodup hfind]
      exact hR

/-- One message of the admitted feed keeps the refinement. -/
theorem Refines.step (hR : Refines c ob book) (hc : c.Valid) (hm : book.Admits c mbo) :
    ∃ ob', ob.step mbo = .ok ob' ∧ Refines c ob' (book.apply mbo) := by
  have hi : ob.Indexed mbo := by
    intro hp
    rw [msgIndex, hR.config_eq]
    exact hc.priceToIndex_lt ((hm (sided_of_places hp)).2.1 (action_of_places hp)).1
  refine ⟨_, hR.bookOf.1.step_of_indexed hi, ?_⟩
  by_cases hreset : mbo.action = 'R'
  · rw [effect_reset hreset, ReferenceBook.apply, if_pos hreset]
    exact refines_nil ⟨hR.bookOf.1.clear, hR.config_eq⟩ (queue_clear ob) lookup_clear
  by_cases hs : mbo.Sided
  · obtain ⟨ha | ha | ha, hprice, hfresh, hside⟩ := hm hs
    · have hfind : book.find mbo.orderId = none := find_eq_none_iff.mpr (hfresh ha)
      obtain ⟨hpx, hgrid⟩ := hprice (Or.inl ha)
      rw [effect_add hs ha, ReferenceBook.apply_add hs ha, OrderBook.perform, msgIndex,
        hR.config_eq]
      exact hR.place hc hfind hpx hgrid mbo.isBid
    · rw [effect_cancel hs ha, ReferenceBook.apply_cancel hs ha]
      exact hR.cancel
    · obtain ⟨hpx, hgrid⟩ := hprice (Or.inr ha)
      rw [effect_modify hs ha, ReferenceBook.apply_modify hs ha]
      exact hR.modify hc hpx hgrid (hside ha)
  · rw [effect_of_not_sided hreset hs, ReferenceBook.apply_of_not_sided hreset hs]
    exact hR

/-- After every message of an admitted feed, each queue is the part of the reference
list with the queue's side and the price of its level. -/
theorem run_refines_reference {priceMin priceMax tick : Int64} {ob₀ : OrderBook}
    (hnew : new priceMin priceMax tick = some ob₀) (ht : 0 < tick) (hp : priceMin ≤ priceMax)
    (msgs : List MboMsg)
    (hmsgs : Feeds ReferenceBook.apply (ReferenceBook.Admits ob₀.config) [] msgs) :
    ∀ pre, pre <+: msgs → ∃ ob, ob₀.run pre = .ok ob ∧ ∀ b i, i < ob₀.config.numLevels →
      (ob.queue b i).vals =
        (pre.foldl ReferenceBook.apply []).ordersAt b (ob₀.config.levelPrice i) := by
  intro pre hpre
  have hc := valid_new hnew ht hp
  have hR := refines_nil (bookOf_new hnew) (queue_new hnew) (lookup_new hnew)
  have hstep : ∀ ob book mbo, Refines ob₀.config ob book →
      ReferenceBook.Admits ob₀.config book mbo →
      ∃ ob', ob.step mbo = .ok ob' ∧ Refines ob₀.config ob' (ReferenceBook.apply book mbo) :=
    fun _ _ _ hR hm => hR.step hc hm
  obtain ⟨ob, hrun, hfinal⟩ := run_simulation (Refines ob₀.config) hstep hR hmsgs hpre
  exact ⟨ob, hrun, hfinal.queues⟩

theorem run_refines_reference_priorities :
    ∃ ob, threeLevels.run priorities = .ok ob ∧ ∀ b i, i < 3 → (ob.queue b i).vals =
      (priorities.foldl ReferenceBook.apply []).ordersAt b (threeLevels.config.levelPrice i) :=
  run_refines_reference new_threeLevels (by decide) (by decide) priorities (by decide)
    priorities (List.prefix_refl _)

end Refinement

end OrderBook

end OrderBookServer
