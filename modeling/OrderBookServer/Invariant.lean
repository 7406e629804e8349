import OrderBookServer.OrderBook

/-!
The representation invariant of the book and the four updates that keep it:
a new node at the back of a queue, the removal of a node, a size written in
place, and a node written and moved to the back. Every operation of the book
is composed of these updates, as module Effects shows.
-/
namespace OrderBookServer

open NodeList

/-- The sum of the order sizes in a queue, as a natural number. -/
def sizesOf (q : Nodes Order) : ℕ := Nodes.total (fun o => o.size.toNat) q

section Sizes

variable {q : Nodes Order} {a : ℕ} {o : Order}

@[simp] theorem sizesOf_nil : sizesOf [] = 0 := rfl

theorem sizesOf_pushBack : sizesOf (q.pushBack a o) = sizesOf q + o.size.toNat :=
  Nodes.total_pushBack ..

theorem sizesOf_spliceBack : sizesOf (q.spliceBack a) = sizesOf q := Nodes.total_spliceBack ..

theorem sizesOf_erase (hq : q.addrs.Nodup) (ho : (⟨a, o⟩ : Node Order) ∈ q) :
    o.size.toNat + sizesOf (q.erase a) = sizesOf q :=
  Nodes.total_erase (fun o : Order => o.size.toNat) hq ho

theorem sizesOf_write (hq : q.addrs.Nodup) (ho : (⟨a, o⟩ : Node Order) ∈ q) (o' : Order) :
    o.size.toNat + sizesOf (q.write a o') = sizesOf q + o'.size.toNat :=
  Nodes.total_write (fun o : Order => o.size.toNat) hq ho o'

end Sizes

/-- The level that a queue determines: its total is the sum modulo 2^64. -/
def Level.ofQueue (q : Nodes Order) : Level := ⟨q, UInt64.ofNat (sizesOf q)⟩

namespace OrderBook

def level (ob : OrderBook) (isBid : Bool) (idx : ℕ) : Level := (ob.side isBid).getD idx .new

def queue (ob : OrderBook) (isBid : Bool) (idx : ℕ) : Nodes Order := (ob.level isBid idx).queue

def lookup (ob : OrderBook) (id : UInt64) : Option Ref := ob.ordersRef.lookup id

structure WellFormed (ob : OrderBook) : Prop where
  length_eq : ∀ b, (ob.side b).length = ob.config.numLevels
  level_eq : ∀ b i, ob.level b i = .ofQueue (ob.queue b i)
  ref_index : ∀ id ref, ob.lookup id = some ref →
    ref.index < ob.config.numLevels ∧ ref.index = ob.config.priceToIndex ref.price
  ref_node : ∀ id ref, ob.lookup id = some ref →
    ∃ size, (⟨ref.it, ⟨id, size⟩⟩ : Node Order) ∈ ob.queue ref.isBid ref.index
  addr_lt : ∀ b i n, n ∈ ob.queue b i → n.addr < ob.nextNode
  addr_nodup : ∀ b i, (ob.queue b i).addrs.Nodup
  addr_slot : ∀ b i b' i' n n', n ∈ ob.queue b i → n' ∈ ob.queue b' i' → n.addr = n'.addr →
    b = b' ∧ i = i'

variable {ob ob' : OrderBook} {b b' : Bool} {i i' : ℕ} {id id' : UInt64} {ref ref' : Ref}

theorem level_of_length_le (h : (ob.side b).length ≤ i) : ob.level b i = .new := by
  simp [level, List.getD_eq_getElem?_getD, List.getElem?_eq_none h]

theorem queue_of_length_le (h : (ob.side b).length ≤ i) : ob.queue b i = [] := by
  rw [queue, level_of_length_le h]
  rfl

theorem side_setLevel (ob : OrderBook) (b : Bool) (i : ℕ) (l : Level) (b' : Bool) :
    (ob.setLevel b i l).side b' = if b' = b then (ob.side b).set i l else ob.side b' := by
  cases b <;> cases b' <;> rfl

theorem level_setLevel (h : i < (ob.side b).length) (l : Level) (b' : Bool) (i' : ℕ) :
    (ob.setLevel b i l).level b' i' = if b' = b ∧ i' = i then l else ob.level b' i' := by
  rw [level, side_setLevel]
  by_cases hb : b' = b
  · subst hb
    by_cases hi : i' = i
    · subst hi
      simp [List.getD_eq_getElem?_getD, h]
    · have hi' : i ≠ i' := Ne.symm hi
      simp [level, List.getD_eq_getElem?_getD, hi, List.getElem?_set_ne hi']
  · simp [level, hb]

/-- One slot gets a new queue, whose nodes are old nodes of that slot or fresh. -/
theorem WellFormed.update (h : ob.WellFormed) {q : Nodes Order}
    (hconfig : ob'.config = ob.config)
    (hlength : ∀ b', (ob'.side b').length = (ob.side b').length)
    (hlevel : ∀ b' i', ob'.level b' i' = if b' = b ∧ i' = i then .ofQueue q else ob.level b' i')
    (hnext : ob.nextNode ≤ ob'.nextNode)
    (hnodup : q.addrs.Nodup)
    (haddr : ∀ n ∈ q, n.addr ∈ (ob.queue b i).addrs ∨
      n.addr = ob.nextNode ∧ ob.nextNode < ob'.nextNode)
    (hrefs : ∀ id ref, ob'.lookup id = some ref →
      (ref.index < ob.config.numLevels ∧ ref.index = ob.config.priceToIndex ref.price) ∧
      ∃ size, (⟨ref.it, ⟨id, size⟩⟩ : Node Order) ∈ ob'.queue ref.isBid ref.index) :
    ob'.WellFormed := by
  have hqueue : ∀ b' i', ob'.queue b' i' = if b' = b ∧ i' = i then q else ob.queue b' i' := by
    intro b' i'
    rw [queue, hlevel]
    split <;> rfl
  have hslot : ∀ n ∈ q, ∀ b' i' n', n' ∈ ob.queue b' i' → n.addr = n'.addr →
      b' = b ∧ i' = i := by
    intro n hn b' i' n' hn' heq
    rcases haddr n hn with hold | ⟨hfresh, _⟩
    · obtain ⟨m, hm, hma⟩ := List.mem_map.mp hold
      exact h.addr_slot b' i' b i n' m hn' hm (heq.symm.trans hma.symm)
    · have := h.addr_lt b' i' n' hn'
      omega
  constructor
  · intro b'
    rw [hlength, hconfig, h.length_eq]
  · intro b' i'
    rw [hqueue, hlevel]
    split
    · rfl
    · exact h.level_eq b' i'
  · intro id ref href
    rw [hconfig]
    exact (hrefs id ref href).1
  · intro id ref href
    exact (hrefs id ref href).2
  · intro b' i' n hn
    rw [hqueue] at hn
    split at hn
    · rcases haddr n hn with hold | ⟨hfresh, hlt⟩
      · obtain ⟨m, hm, hma⟩ := List.mem_map.mp hold
        have := h.addr_lt b i m hm
        omega
      · omega
    · have := h.addr_lt b' i' n hn
      omega
  · intro b' i'
    rw [hqueue]
    split
    · exact hnodup
    · exact h.addr_nodup b' i'
  · intro c j c' j' n n' hn hn' heq
    rw [hqueue] at hn hn'
    split at hn
    · rename_i hcj
      split at hn'
      · rename_i hcj'
        exact ⟨hcj.1.trans hcj'.1.symm, hcj.2.trans hcj'.2.symm⟩
      · have hs := hslot n hn c' j' n' hn' heq
        exact ⟨hcj.1.trans hs.1.symm, hcj.2.trans hs.2.symm⟩
    · split at hn'
      · rename_i hcj'
        have hs := hslot n' hn' c j n hn heq.symm
        exact ⟨hs.1.trans hcj'.1.symm, hs.2.trans hcj'.2.symm⟩
      · exact h.addr_slot c j c' j' n n' hn hn' heq

/-- Different ids never refer to the same node. -/
theorem WellFormed.ref_it_ne (h : ob.WellFormed) (href : ob.lookup id = some ref)
    (href' : ob.lookup id' = some ref') (hid : id ≠ id') : ref.it ≠ ref'.it := by
  intro heq
  obtain ⟨size, hn⟩ := h.ref_node id ref href
  obtain ⟨size', hn'⟩ := h.ref_node id' ref' href'
  obtain ⟨hb, hi⟩ := h.addr_slot _ _ _ _ _ _ hn hn' heq
  rw [hb, hi, heq] at hn
  have hval := Nodes.node_unique (h.addr_nodup _ _) hn hn'
  exact hid (congrArg Order.orderId hval)

section Updates

/-- The size of the order at `ref`. -/
def sizeAt (ob : OrderBook) (ref : Ref) : UInt32 :=
  (((ob.queue ref.isBid ref.index).read ref.it).map Order.size).getD 0

def setQueue (ob : OrderBook) (b : Bool) (i : ℕ) (q : Nodes Order) : OrderBook :=
  ob.setLevel b i (.ofQueue q)

def place (ob : OrderBook) (mbo : MboMsg) (b : Bool) (i : ℕ) : OrderBook :=
  { ob.setQueue b i ((ob.queue b i).pushBack ob.nextNode ⟨mbo.orderId, mbo.size⟩) with
    ordersRef := ob.ordersRef.insert mbo.orderId ⟨b, i, ob.nextNode, mbo.price⟩
    nextNode := ob.nextNode + 1 }

def remove (ob : OrderBook) (id : UInt64) (ref : Ref) : OrderBook :=
  { ob.setQueue ref.isBid ref.index ((ob.queue ref.isBid ref.index).erase ref.it) with
    ordersRef := ob.ordersRef.erase id }

def resize (ob : OrderBook) (id : UInt64) (ref : Ref) (size : UInt32) : OrderBook :=
  ob.setQueue ref.isBid ref.index ((ob.queue ref.isBid ref.index).write ref.it ⟨id, size⟩)

def requeue (ob : OrderBook) (id : UInt64) (ref : Ref) (size : UInt32) : OrderBook :=
  ob.setQueue ref.isBid ref.index
    (((ob.queue ref.isBid ref.index).write ref.it ⟨id, size⟩).spliceBack ref.it)

variable {q : Nodes Order} {mbo : MboMsg} {size : UInt32}

@[simp] theorem config_setLevel (ob : OrderBook) (b : Bool) (i : ℕ) (l : Level) :
    (ob.setLevel b i l).config = ob.config := by
  cases b <;> rfl

@[simp] theorem ordersRef_setLevel (ob : OrderBook) (b : Bool) (i : ℕ) (l : Level) :
    (ob.setLevel b i l).ordersRef = ob.ordersRef := by
  cases b <;> rfl

@[simp] theorem nextNode_setLevel (ob : OrderBook) (b : Bool) (i : ℕ) (l : Level) :
    (ob.setLevel b i l).nextNode = ob.nextNode := by
  cases b <;> rfl

@[simp] theorem length_side_setLevel (ob : OrderBook) (b : Bool) (i : ℕ) (l : Level) (b' : Bool) :
    ((ob.setLevel b i l).side b').length = (ob.side b').length := by
  rw [side_setLevel]
  split
  · rename_i hb
    rw [hb, List.length_set]
  · rfl

@[simp] theorem config_place : (ob.place mbo b i).config = ob.config := config_setLevel ..
@[simp] theorem config_remove : (ob.remove id ref).config = ob.config := config_setLevel ..
@[simp] theorem config_resize : (ob.resize id ref size).config = ob.config := config_setLevel ..
@[simp] theorem config_requeue : (ob.requeue id ref size).config = ob.config := config_setLevel ..
@[simp] theorem config_clear : ob.clear.config = ob.config := rfl

theorem lookup_place (id : UInt64) : (ob.place mbo b i).lookup id =
    if id = mbo.orderId then some ⟨b, i, ob.nextNode, mbo.price⟩ else ob.lookup id := by
  by_cases h : id = mbo.orderId
  · subst h
    simp [lookup, place]
  · simp [lookup, place, h, Finmap.lookup_insert_of_ne _ h]

theorem lookup_remove (id' : UInt64) :
    (ob.remove id ref).lookup id' = if id' = id then none else ob.lookup id' := by
  by_cases h : id' = id
  · subst h
    simp [lookup, remove]
  · simp [lookup, remove, h, Finmap.lookup_erase_ne h]

@[simp] theorem lookup_resize (id' : UInt64) :
    (ob.resize id ref size).lookup id' = ob.lookup id' := by
  simp [lookup, resize, setQueue]

@[simp] theorem lookup_requeue (id' : UInt64) :
    (ob.requeue id ref size).lookup id' = ob.lookup id' := by
  simp [lookup, requeue, setQueue]

@[simp] theorem lookup_clear (id : UInt64) : ob.clear.lookup id = none := by
  simp [lookup, clear]

theorem side_clear (ob : OrderBook) (b : Bool) :
    ob.clear.side b = (ob.side b).map (fun _ => Level.new) := by
  cases b <;> rfl

@[simp] theorem level_clear (ob : OrderBook) (b : Bool) (i : ℕ) : ob.clear.level b i = .new := by
  rw [level, side_clear, List.getD_eq_getElem?_getD, List.getElem?_map]
  cases (ob.side b)[i]? <;> rfl

@[simp] theorem queue_clear (ob : OrderBook) (b : Bool) (i : ℕ) : ob.clear.queue b i = [] := by
  rw [queue, level_clear]
  rfl

theorem queue_setQueue (h : i < (ob.side b).length) (q : Nodes Order) (b' : Bool) (i' : ℕ) :
    (ob.setQueue b i q).queue b' i' = if b' = b ∧ i' = i then q else ob.queue b' i' := by
  rw [queue, setQueue, level_setLevel h]
  split <;> rfl

namespace WellFormed

variable (h : ob.WellFormed)
include h

theorem index_lt (href : ob.lookup id = some ref) :
    ref.index < (ob.side ref.isBid).length := by
  rw [h.length_eq]
  exact (h.ref_index id ref href).1

theorem nextNode_notMem (b : Bool) (i : ℕ) : ob.nextNode ∉ (ob.queue b i).addrs := by
  intro hmem
  obtain ⟨n, hn, heq⟩ := List.mem_map.mp hmem
  have := h.addr_lt b i n hn
  omega

/-- The lookup finds the node itself, with the size that `sizeAt` reads. -/
theorem node_mem (href : ob.lookup id = some ref) :
    (⟨ref.it, ⟨id, ob.sizeAt ref⟩⟩ : Node Order) ∈ ob.queue ref.isBid ref.index := by
  obtain ⟨size, hn⟩ := h.ref_node id ref href
  have hread := (Nodes.read_eq_some_iff (h.addr_nodup _ _)).mpr hn
  simpa [sizeAt, hread] using hn

theorem queue_place (hi : i < ob.config.numLevels) (b' : Bool) (i' : ℕ) :
    (ob.place mbo b i).queue b' i' = if b' = b ∧ i' = i
      then (ob.queue b i).pushBack ob.nextNode ⟨mbo.orderId, mbo.size⟩ else ob.queue b' i' :=
  queue_setQueue (by rwa [h.length_eq]) _ b' i'

theorem queue_remove (href : ob.lookup id = some ref) (b' : Bool) (i' : ℕ) :
    (ob.remove id ref).queue b' i' = if b' = ref.isBid ∧ i' = ref.index
      then (ob.queue ref.isBid ref.index).erase ref.it else ob.queue b' i' :=
  queue_setQueue (h.index_lt href) _ b' i'

theorem queue_resize (href : ob.lookup id = some ref) (b' : Bool) (i' : ℕ) :
    (ob.resize id ref size).queue b' i' = if b' = ref.isBid ∧ i' = ref.index
      then (ob.queue ref.isBid ref.index).write ref.it ⟨id, size⟩ else ob.queue b' i' :=
  queue_setQueue (h.index_lt href) _ b' i'

theorem queue_requeue (href : ob.lookup id = some ref) (b' : Bool) (i' : ℕ) :
    (ob.requeue id ref size).queue b' i' = if b' = ref.isBid ∧ i' = ref.index
      then ((ob.queue ref.isBid ref.index).write ref.it ⟨id, size⟩).spliceBack ref.it
      else ob.queue b' i' :=
  queue_setQueue (h.index_lt href) _ b' i'

theorem clear : ob.clear.WellFormed where
  length_eq b := by rw [side_clear, List.length_map, h.length_eq, config_clear]
  level_eq b i := by
    rw [level_clear, queue_clear]
    rfl
  ref_index id ref href := by simp at href
  ref_node id ref href := by simp at href
  addr_lt b i n hn := by simp at hn
  addr_nodup b i := by simp [Nodes.addrs]
  addr_slot b i b' i' n n' hn := by simp at hn

theorem place (hi : i < ob.config.numLevels) (hidx : i = ob.config.priceToIndex mbo.price) :
    (ob.place mbo b i).WellFormed := by
  have hlen : i < (ob.side b).length := by rwa [h.length_eq]
  refine h.update config_place (fun b' => length_side_setLevel ..)
    (level_setLevel hlen _) (Nat.le_succ _) ?_ ?_ ?_
  · exact Nodes.addrs_pushBack_nodup (h.addr_nodup b i) (h.nextNode_notMem b i) _
  · intro n hn
    rcases Nodes.mem_pushBack.mp hn with hold | rfl
    · exact Or.inl (List.mem_map_of_mem hold)
    · exact Or.inr ⟨rfl, Nat.lt_succ_self _⟩
  · intro id ref href
    rw [lookup_place] at href
    split at href
    · rename_i hid
      cases href
      refine ⟨⟨hi, hidx⟩, mbo.size, ?_⟩
      rw [h.queue_place hi, if_pos ⟨rfl, rfl⟩, hid]
      exact Nodes.mem_pushBack.mpr (Or.inr rfl)
    · refine ⟨h.ref_index id ref href, ?_⟩
      obtain ⟨size, hn⟩ := h.ref_node id ref href
      refine ⟨size, ?_⟩
      rw [h.queue_place hi]
      split
      · rename_i hslot
        rw [hslot.1, hslot.2] at hn
        exact Nodes.mem_pushBack.mpr (Or.inl hn)
      · exact hn

theorem remove (href : ob.lookup id = some ref) : (ob.remove id ref).WellFormed := by
  refine h.update config_remove (fun b' => length_side_setLevel ..)
    (level_setLevel (h.index_lt href) _) (le_of_eq (nextNode_setLevel ..).symm) ?_ ?_ ?_
  · exact Nodes.addrs_erase_nodup (h.addr_nodup _ _) _
  · intro n hn
    exact Or.inl (List.mem_map_of_mem (Nodes.mem_erase.mp hn).1)
  · intro id' ref' href'
    rw [lookup_remove] at href'
    split at href'
    · simp at href'
    · rename_i hid
      refine ⟨h.ref_index id' ref' href', ?_⟩
      obtain ⟨size, hn⟩ := h.ref_node id' ref' href'
      refine ⟨size, ?_⟩
      rw [h.queue_remove href]
      split
      · rename_i hslot
        rw [hslot.1, hslot.2] at hn
        exact Nodes.mem_erase.mpr ⟨hn, h.ref_it_ne href' href hid⟩
      · exact hn

/-- A rewritten node keeps its address, so every entry still finds its node. -/
theorem ref_node_write (href : ob.lookup id = some ref) (size : UInt32)
    (href' : ob.lookup id' = some ref') :
    ∃ size', (⟨ref'.it, ⟨id', size'⟩⟩ : Node Order) ∈
      if ref'.isBid = ref.isBid ∧ ref'.index = ref.index
      then (ob.queue ref.isBid ref.index).write ref.it ⟨id, size⟩
      else ob.queue ref'.isBid ref'.index := by
  have hmem := h.node_mem href
  by_cases hid : id' = id
  · subst hid
    rw [href] at href'
    cases href'
    refine ⟨size, ?_⟩
    rw [if_pos ⟨rfl, rfl⟩]
    exact (Nodes.mem_write hmem).mpr (Or.inr rfl)
  · obtain ⟨size', hn⟩ := h.ref_node id' ref' href'
    refine ⟨size', ?_⟩
    split
    · rename_i hslot
      rw [hslot.1, hslot.2] at hn
      exact (Nodes.mem_write hmem).mpr (Or.inl ⟨hn, h.ref_it_ne href' href hid⟩)
    · exact hn

theorem resize (href : ob.lookup id = some ref) (size : UInt32) :
    (ob.resize id ref size).WellFormed := by
  refine h.update config_resize (fun b' => length_side_setLevel ..)
    (level_setLevel (h.index_lt href) _) (le_of_eq (nextNode_setLevel ..).symm) ?_ ?_ ?_
  · rw [Nodes.addrs_write]
    exact h.addr_nodup _ _
  · exact fun n hn => Or.inl (Nodes.mem_addrs_of_mem_write hn)
  · intro id' ref' href'
    rw [lookup_resize] at href'
    refine ⟨h.ref_index id' ref' href', ?_⟩
    rw [h.queue_resize href]
    exact h.ref_node_write href size href'

theorem requeue (href : ob.lookup id = some ref) (size : UInt32) :
    (ob.requeue id ref size).WellFormed := by
  refine h.update config_requeue (fun b' => length_side_setLevel ..)
    (level_setLevel (h.index_lt href) _) (le_of_eq (nextNode_setLevel ..).symm) ?_ ?_ ?_
  · refine Nodes.addrs_spliceBack_nodup ?_ _
    rw [Nodes.addrs_write]
    exact h.addr_nodup _ _
  · exact fun n hn => Or.inl (Nodes.mem_addrs_of_mem_write (Nodes.mem_spliceBack.mp hn))
  · intro id' ref' href'
    rw [lookup_requeue] at href'
    refine ⟨h.ref_index id' ref' href', ?_⟩
    obtain ⟨size', hn⟩ := h.ref_node_write href size href'
    refine ⟨size', ?_⟩
    rw [h.queue_requeue href]
    split at hn
    · rename_i hslot
      rw [if_pos hslot]
      exact Nodes.mem_spliceBack.mpr hn
    · rename_i hslot
      rwa [if_neg hslot]

end WellFormed

end Updates

end OrderBook

end OrderBookServer
