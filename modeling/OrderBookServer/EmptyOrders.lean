import OrderBookServer.Safety

/-!
Orders of size zero. A Modify to size zero deletes the order it finds, a cancel
deletes what it empties, and only a new order can come to rest with size zero:
an Add, or a Modify of an unknown id, takes any size. A level whose sizes sum
to a multiple of 2^64 also reads as empty, since its total wraps.
-/
namespace OrderBookServer

namespace OrderBook

open NodeList Runs

structure NoEmptyOrders (ob : OrderBook) : Prop where
  size_pos : ∀ b i, ∀ n ∈ ob.queue b i, 0 < n.val.size
  nonempty_iff : ∀ b i, ob.queue b i ≠ [] ↔ 0 < (ob.level b i).totalSize

/-- The message leaves no empty order, and a Modify to size zero leaves no order of its id. -/
def LeavesNoEmpty (ob : OrderBook) (mbo : MboMsg) : Prop :=
  ∀ ob', ob.step mbo = .ok ob' → ob'.NoEmptyOrders ∧
    (mbo.action = 'M' → mbo.size = 0 → ∀ b i, ∀ n ∈ ob'.queue b i, n.val.orderId ≠ mbo.orderId)

/-- The sizes at a level without the order of `ref`. -/
def sizesWithout (ob : OrderBook) (ref : Ref) (b : Bool) (i : ℕ) : ℕ :=
  sizesOf (ob.queue b i) - if b = ref.isBid ∧ i = ref.index then (ob.sizeAt ref).toNat else 0

/-- What the message adds to the sizes at a level if it places an order. -/
def sizePlaced (ob : OrderBook) (mbo : MboMsg) (b : Bool) (i : ℕ) : ℕ :=
  if b = mbo.isBid ∧ i = ob.msgIndex mbo then mbo.size.toNat else 0

/-- The sum of the sizes at a level once the message has had its effect. -/
def sizesAfter (ob : OrderBook) (mbo : MboMsg) (b : Bool) (i : ℕ) : ℕ :=
  match ob.effect mbo with
  | .idle => sizesOf (ob.queue b i)
  | .clear => 0
  | .place => sizesOf (ob.queue b i) + ob.sizePlaced mbo b i
  | .remove ref => ob.sizesWithout ref b i
  | .resize ref size | .requeue ref size =>
    ob.sizesWithout ref b i + if b = ref.isBid ∧ i = ref.index then size.toNat else 0
  | .replace ref => ob.sizesWithout ref b i + ob.sizePlaced mbo b i

/-- No order comes to rest with size zero, a Modify to size zero names no order or one
order that the table holds, and no level comes to a total that wraps to zero. -/
def PlacesNoEmpty (ob : OrderBook) (mbo : MboMsg) : Prop :=
  (mbo.Sided → mbo.action = 'A' ∨ mbo.action = 'M' ∧ ob.lookup mbo.orderId = none →
    mbo.size ≠ 0) ∧
  (mbo.action = 'M' → mbo.size = 0 → ∀ b i, ∀ n ∈ ob.queue b i, n.val.orderId = mbo.orderId →
    mbo.Sided ∧ ∃ ref, ob.lookup mbo.orderId = some ref ∧
      ref.isBid = b ∧ ref.index = i ∧ ref.it = n.addr) ∧
  ∀ b i, 0 < ob.sizesAfter mbo b i → ¬ 2 ^ 64 ∣ ob.sizesAfter mbo b i

section Sizes

variable {ob : OrderBook} {mbo : MboMsg} {b : Bool} {i : ℕ} {id : UInt64} {ref : Ref}

/-- Only a new order is ever given size zero. -/
theorem size_pos_of_not_place {size : UInt32} (he : (ob.effect mbo).size mbo = some size)
    (hp : ob.effect mbo ≠ .place) : 0 < size := by
  have htake : ∀ {s}, (ob.takeEffect mbo).size mbo = some s → 0 < s := by
    intro s hs
    unfold takeEffect at hs
    cases href : ob.lookup mbo.orderId with
    | none => simp [href, Effect.size] at hs
    | some ref =>
      simp only [href] at hs
      split at hs
      · simp [Effect.size] at hs
      · rename_i hle
        have hlt : mbo.size < ob.sizeAt ref := UInt32.not_le.mp hle
        cases hs
        have hnat := UInt32.lt_iff_toNat_lt.mp hlt
        rw [UInt32.lt_iff_toNat_lt, UInt32.toNat_sub_of_le _ _ (UInt32.le_of_lt hlt)]
        simp only [UInt32.toNat_zero]
        omega
  by_cases hs : mbo.Sided
  · rw [effect_of_sided hs] at he hp
    split at he
    · exact htake he
    · unfold fillEffect at he
      cases href : ob.lookup mbo.orderId <;> simp [href, Effect.size] at he
    · exact htake he
    · simp_all
    · exact htake he
    · rename_i hact
      simp only [hact] at hp
      unfold modifyEffect at he hp
      cases href : ob.lookup mbo.orderId with
      | none => simp [href] at hp
      | some ref =>
        simp only [href] at he
        by_cases hzero : mbo.size = 0
        · simp [hzero, Effect.size] at he
        · have hpos : 0 < mbo.size := UInt32.pos_iff_ne_zero.mpr hzero
          simp only [if_neg hzero] at he
          repeat' split at he
          all_goals first | (cases he; exact hpos) | simp [Effect.size] at he
    · simp [Effect.size] at he
  · by_cases ha : mbo.action = 'R'
    · simp [effect_reset ha, Effect.size] at he
    · simp [effect_of_not_sided ha hs, Effect.size] at he

theorem sizesOf_queue_place (h : ob.WellFormed) {idx : ℕ} (hi : idx < ob.config.numLevels)
    (b : Bool) (i : ℕ) : sizesOf ((ob.place mbo mbo.isBid idx).queue b i) =
      sizesOf (ob.queue b i) + if b = mbo.isBid ∧ i = idx then mbo.size.toNat else 0 := by
  rw [h.queue_place hi]
  split
  · rename_i hslot
    rw [hslot.1, hslot.2, sizesOf_pushBack]
  · rfl

theorem sizesOf_queue_remove (h : ob.WellFormed) (href : ob.lookup id = some ref)
    (b : Bool) (i : ℕ) : sizesOf ((ob.remove id ref).queue b i) = ob.sizesWithout ref b i := by
  rw [h.queue_remove href, sizesWithout]
  split
  · rename_i hslot
    have herase := sizesOf_erase (h.addr_nodup _ _) (h.node_mem href)
    rw [hslot.1, hslot.2]
    simp only at herase
    omega
  · rfl

theorem sizesOf_write_at (h : ob.WellFormed) (href : ob.lookup id = some ref) (size : UInt32) :
    sizesOf ((ob.queue ref.isBid ref.index).write ref.it ⟨id, size⟩) =
      ob.sizesWithout ref ref.isBid ref.index + size.toNat := by
  have hwrite := sizesOf_write (h.addr_nodup _ _) (h.node_mem href) ⟨id, size⟩
  have hle := h.size_le_sizes href
  rw [sizesWithout, if_pos ⟨rfl, rfl⟩]
  simp only at hwrite
  omega

theorem sizesOf_queue_resize (h : ob.WellFormed) (href : ob.lookup id = some ref) (size : UInt32)
    (b : Bool) (i : ℕ) : sizesOf ((ob.resize id ref size).queue b i) =
      ob.sizesWithout ref b i + if b = ref.isBid ∧ i = ref.index then size.toNat else 0 := by
  rw [h.queue_resize href]
  split
  · rename_i hslot
    rw [hslot.1, hslot.2, sizesOf_write_at h href]
  · rename_i hslot
    rw [sizesWithout, if_neg hslot]
    rfl

theorem sizesOf_queue_requeue (h : ob.WellFormed) (href : ob.lookup id = some ref)
    (size : UInt32) (b : Bool) (i : ℕ) : sizesOf ((ob.requeue id ref size).queue b i) =
      ob.sizesWithout ref b i + if b = ref.isBid ∧ i = ref.index then size.toNat else 0 := by
  rw [h.queue_requeue href]
  split
  · rename_i hslot
    rw [hslot.1, hslot.2, sizesOf_spliceBack, sizesOf_write_at h href]
  · rename_i hslot
    rw [sizesWithout, if_neg hslot]
    rfl

theorem sizesOf_queue_perform (h : ob.WellFormed) (hi : ob.Indexed mbo) (b : Bool) (i : ℕ) :
    sizesOf ((ob.perform mbo (ob.effect mbo)).queue b i) = ob.sizesAfter mbo b i := by
  have href : ∀ ref, (ob.effect mbo).ref = some ref → ob.lookup mbo.orderId = some ref :=
    fun ref he => effect_ref he
  unfold Indexed at hi
  unfold sizesAfter
  cases he : ob.effect mbo with
  | idle => rfl
  | clear => simp [OrderBook.perform]
  | place => exact sizesOf_queue_place h (hi (by rw [he]; rfl)) b i
  | remove ref => exact sizesOf_queue_remove h (href ref (by rw [he]; rfl)) b i
  | resize ref size => exact sizesOf_queue_resize h (href ref (by rw [he]; rfl)) size b i
  | requeue ref size => exact sizesOf_queue_requeue h (href ref (by rw [he]; rfl)) size b i
  | replace ref =>
    have hknown := href ref (by rw [he]; rfl)
    have hlt : ob.msgIndex mbo < (ob.remove mbo.orderId ref).config.numLevels := by
      rw [config_remove]
      exact hi (by rw [he]; rfl)
    simp only [OrderBook.perform]
    rw [sizesOf_queue_place (h.remove hknown) hlt, sizesOf_queue_remove h hknown, sizePlaced]

theorem sizesOf_pos_iff {q : Nodes Order} (hq : ∀ n ∈ q, 0 < n.val.size) :
    0 < sizesOf q ↔ q ≠ [] := by
  cases q with
  | nil => simp
  | cons n q =>
    have hn := UInt32.lt_iff_toNat_lt.mp (hq n (List.mem_cons_self ..))
    have hcons : sizesOf (n :: q) = n.val.size.toNat + sizesOf q := by
      simp [sizesOf, Nodes.total]
    simp only [UInt32.toNat_zero] at hn
    simp only [ne_eq, reduceCtorEq, not_false_eq_true, iff_true]
    omega

theorem WellFormed.noEmptyOrders_iff (h : ob.WellFormed) : ob.NoEmptyOrders ↔
    (∀ b i, ∀ n ∈ ob.queue b i, 0 < n.val.size) ∧
      ∀ b i, 0 < sizesOf (ob.queue b i) → ¬ 2 ^ 64 ∣ sizesOf (ob.queue b i) := by
  have htotal : ∀ b i, 0 < (ob.level b i).totalSize ↔ ¬ 2 ^ 64 ∣ sizesOf (ob.queue b i) := by
    intro b i
    rw [UInt64.lt_iff_toNat_lt, h.total_toNat, UInt64.toNat_zero, Nat.pos_iff_ne_zero,
      Nat.dvd_iff_mod_eq_zero]
  constructor
  · intro hno
    refine ⟨hno.size_pos, fun b i hpos => ?_⟩
    exact (htotal b i).mp ((hno.nonempty_iff b i).mp ((sizesOf_pos_iff (hno.size_pos b i)).mp hpos))
  · rintro ⟨hpos, hwrap⟩
    refine ⟨hpos, fun b i => ⟨fun hne => ?_, fun hlt => ?_⟩⟩
    · exact (htotal b i).mpr (hwrap b i ((sizesOf_pos_iff (hpos b i)).mpr hne))
    · rintro hnil
      have hndvd := (htotal b i).mp hlt
      rw [hnil] at hndvd
      exact hndvd (dvd_zero _)

end Sizes

section Steps

variable {ob : OrderBook} {mbo : MboMsg}

/-- A message leaves positive sizes exactly when it places no order of size zero. -/
theorem WellFormed.sizes_pos_iff (h : ob.WellFormed) (hi : ob.Indexed mbo)
    (hno : ob.NoEmptyOrders) :
    (∀ b i, ∀ n ∈ (ob.perform mbo (ob.effect mbo)).queue b i, 0 < n.val.size) ↔
      (mbo.Sided → mbo.action = 'A' ∨ mbo.action = 'M' ∧ ob.lookup mbo.orderId = none →
        mbo.size ≠ 0) := by
  constructor
  · intro hpos hs hact
    have he := effect_eq_place_iff.mpr ⟨hs, hact⟩
    have hplaced := h.exists_placed (by rw [he]; rfl) hi
    exact UInt32.pos_iff_ne_zero.mp (hpos _ _ _ hplaced)
  · intro hsize b i n hn
    rcases h.mem_queue_perform hi hn with hold | ⟨hgiven, _⟩
    · exact hno.size_pos b i n hold
    · by_cases he : ob.effect mbo = .place
      · obtain ⟨hs, hact⟩ := effect_eq_place_iff.mp he
        rw [he] at hgiven
        have hsame : mbo.size = n.val.size := Option.some.inj hgiven
        rw [← hsame]
        exact UInt32.pos_iff_ne_zero.mpr (hsize hs hact)
      · exact size_pos_of_not_place hgiven he

/-- A Modify to size zero leaves no order of its id exactly when the order that the
table holds was the only one. -/
theorem WellFormed.gone_iff (h : ob.WellFormed) (ha : mbo.action = 'M') (hzero : mbo.size = 0)
    (hplace : mbo.Sided → ob.lookup mbo.orderId ≠ none) :
    (∀ b i, ∀ n ∈ (ob.perform mbo (ob.effect mbo)).queue b i, n.val.orderId ≠ mbo.orderId) ↔
      ∀ b i, ∀ n ∈ ob.queue b i, n.val.orderId = mbo.orderId →
        mbo.Sided ∧ ∃ ref, ob.lookup mbo.orderId = some ref ∧
          ref.isBid = b ∧ ref.index = i ∧ ref.it = n.addr := by
  by_cases hs : mbo.Sided
  · obtain ⟨ref, href⟩ := Option.ne_none_iff_exists'.mp (hplace hs)
    have he : ob.effect mbo = .remove ref := by
      simp [effect_modify hs ha, modifyEffect, href, hzero]
    rw [he, OrderBook.perform]
    constructor
    · intro hgone b i n hn hid
      refine ⟨hs, ref, href, ?_⟩
      by_contra hother
      refine hgone b i n ?_ hid
      rw [h.queue_remove href]
      split
      · rename_i hslot
        rw [hslot.1, hslot.2] at hn
        refine Nodes.mem_erase.mpr ⟨hn, fun haddr => hother ?_⟩
        exact ⟨hslot.1.symm, hslot.2.symm, haddr.symm⟩
      · exact hn
    · intro honly b i n hn hid
      rw [h.queue_remove href] at hn
      split at hn
      · rename_i hslot
        obtain ⟨hmem, haddr⟩ := Nodes.mem_erase.mp hn
        rw [← hslot.1, ← hslot.2] at hmem
        obtain ⟨_, ref', href', _, _, hit⟩ := honly b i n hmem hid
        rw [href] at href'
        cases href'
        exact haddr hit.symm
      · rename_i hslot
        obtain ⟨_, ref', href', hb, hidx, _⟩ := honly b i n hn hid
        rw [href] at href'
        cases href'
        exact hslot ⟨hb.symm, hidx.symm⟩
  · have hreset : mbo.action ≠ 'R' := by simp [ha]
    rw [effect_of_not_sided hreset hs]
    simp only [hs, false_and, imp_false]
    rfl

theorem WellFormed.leavesNoEmpty_iff (h : ob.WellFormed) (hi : ob.Indexed mbo)
    (hno : ob.NoEmptyOrders) : ob.LeavesNoEmpty mbo ↔ ob.PlacesNoEmpty mbo := by
  have hstep := h.step_of_indexed hi
  have hleaves : ob.LeavesNoEmpty mbo ↔ (ob.perform mbo (ob.effect mbo)).NoEmptyOrders ∧
      (mbo.action = 'M' → mbo.size = 0 → ∀ b i,
        ∀ n ∈ (ob.perform mbo (ob.effect mbo)).queue b i, n.val.orderId ≠ mbo.orderId) := by
    constructor
    · exact fun hleaves => hleaves _ hstep
    · intro hleaves ob' hok
      rw [hstep] at hok
      cases hok
      exact hleaves
  have hknown : (mbo.Sided → mbo.action = 'A' ∨
      mbo.action = 'M' ∧ ob.lookup mbo.orderId = none → mbo.size ≠ 0) →
      mbo.action = 'M' → mbo.size = 0 → mbo.Sided → ob.lookup mbo.orderId ≠ none :=
    fun hsize ha hzero hs hlook => hsize hs (Or.inr ⟨ha, hlook⟩) hzero
  rw [hleaves, (h.perform hi).noEmptyOrders_iff, h.sizes_pos_iff hi hno, PlacesNoEmpty]
  simp only [sizesOf_queue_perform h hi]
  constructor
  · rintro ⟨⟨hsize, hwrap⟩, hgone⟩
    exact ⟨hsize, fun ha hzero =>
      (h.gone_iff ha hzero (hknown hsize ha hzero)).mp (hgone ha hzero), hwrap⟩
  · rintro ⟨hsize, honly, hwrap⟩
    exact ⟨⟨hsize, hwrap⟩, fun ha hzero =>
      (h.gone_iff ha hzero (hknown hsize ha hzero)).mpr (honly ha hzero)⟩

end Steps

theorem noEmptyOrders_new {priceMin priceMax tick : Int64} {ob : OrderBook}
    (hnew : new priceMin priceMax tick = some ob) : ob.NoEmptyOrders :=
  (wellFormed_new hnew).noEmptyOrders_iff.mpr
    ⟨fun b i n hn => by simp [queue_new hnew] at hn,
      fun b i hpos => by simp [queue_new hnew] at hpos⟩

/-- Every message of a run leaves the book without empty orders exactly when every one
places none. -/
theorem leavesNoEmpty_iff_placesNoEmpty {priceMin priceMax tick : Int64} {ob₀ : OrderBook}
    (hnew : new priceMin priceMax tick = some ob₀) (ht : 0 < tick) (hp : priceMin ≤ priceMax)
    (msgs : List MboMsg) (hmsgs : ∀ mbo ∈ msgs, PriceInRange ob₀.config mbo) :
    ob₀.NoEmptyOrders ∧
      (Along step LeavesNoEmpty ob₀ msgs ↔ Along step PlacesNoEmpty ob₀ msgs) := by
  have hvalid := valid_new hnew ht hp
  refine ⟨noEmptyOrders_new hnew, ?_⟩
  refine along_iff (fun ob => BookOf ob₀.config ob ∧ ob.NoEmptyOrders) (PriceInRange ob₀.config)
    ?_ ?_ ⟨bookOf_new hnew, noEmptyOrders_new hnew⟩ hmsgs
  · rintro ob mbo ob' ⟨⟨h, hconfig⟩, _⟩ _ hleaves hok
    exact ⟨⟨h.step hok, (h.config_step hok).trans hconfig⟩, (hleaves ob' hok).1⟩
  · rintro ob mbo ⟨⟨h, hconfig⟩, hno⟩ hm
    have hi : Indexes ob.config mbo := by
      rw [hconfig]
      exact hm.indexes hvalid
    exact h.leavesNoEmpty_iff hi.indexed hno

theorem leavesNoEmpty_iff_placesNoEmpty_reusedId : threeLevels.NoEmptyOrders ∧
    (Along step LeavesNoEmpty threeLevels reusedId ↔
      Along step PlacesNoEmpty threeLevels reusedId) :=
  leavesNoEmpty_iff_placesNoEmpty new_threeLevels (by decide) (by decide) reusedId (by decide)

/-- A Modify to size zero of an unknown id brings an empty order to rest. -/
theorem not_leavesNoEmpty_modify_unknown :
    ¬ threeLevels.LeavesNoEmpty ⟨1, 100, 0, 'M', 'B'⟩ := by
  intro hleaves
  obtain ⟨ob, hok, _⟩ := (bookOf_new new_threeLevels).step
    (by decide : Indexes _ ⟨1, 100, 0, 'M', 'B'⟩)
  obtain ⟨_, hgone⟩ := hleaves ob hok
  have hqueue : (threeLevels.step ⟨1, 100, 0, 'M', 'B'⟩).map (fun ob => ob.queue true 1) =
      .ok [⟨0, 1, 0⟩] := by decide
  have hrests : ob.queue true 1 = [⟨0, 1, 0⟩] := by
    simpa [hok, Except.map] using hqueue
  exact hgone rfl rfl true 1 ⟨0, 1, 0⟩ (by simp [hrests]) rfl

end OrderBook

end OrderBookServer
