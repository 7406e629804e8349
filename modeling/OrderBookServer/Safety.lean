import OrderBookServer.Execution
import OrderBookServer.Prices
import OrderBookServer.Runs

/-!
Runs of the book: no iterator it follows is dangling, its totals are the sums of
its queues modulo 2^64, and its level accesses stay in range exactly as long as
every order it places carries a price between the two ends of the range.
-/
namespace OrderBookServer.OrderBook

open NodeList Runs

/-- The book after a sequence of messages. -/
abbrev run (ob : OrderBook) (msgs : List MboMsg) : Except Fault OrderBook := Runs.run step ob msgs

section Conditions

/-- An Add or a Modify carries a price that indexes a level. -/
def Indexes (c : Config) (mbo : MboMsg) : Prop :=
  mbo.action = 'A' ∨ mbo.action = 'M' → c.priceToIndex mbo.price < c.numLevels

/-- An Add or a Modify carries a price inside the range. -/
def PriceInRange (c : Config) (mbo : MboMsg) : Prop :=
  mbo.action = 'A' ∨ mbo.action = 'M' → c.InRange mbo.price

/-- An Add or a Modify carries a price on the tick grid. -/
def PriceOnGrid (c : Config) (mbo : MboMsg) : Prop :=
  mbo.action = 'A' ∨ mbo.action = 'M' → c.OnGrid mbo.price

instance (c : Config) (mbo : MboMsg) : Decidable (Indexes c mbo) := by
  unfold Indexes
  infer_instance

instance (c : Config) (mbo : MboMsg) : Decidable (PriceInRange c mbo) := by
  unfold PriceInRange
  infer_instance

instance (c : Config) (mbo : MboMsg) : Decidable (PriceOnGrid c mbo) := by
  unfold PriceOnGrid
  infer_instance

variable {c : Config} {ob : OrderBook} {mbo : MboMsg}

theorem PriceInRange.indexes (hc : c.Valid) (h : PriceInRange c mbo) : Indexes c mbo :=
  fun ha => hc.priceToIndex_lt (h ha)

theorem Indexes.indexed (h : Indexes ob.config mbo) : ob.Indexed mbo :=
  fun hp => h (action_of_places hp)

end Conditions

section Reachable

variable {priceMin priceMax tick : Int64} {ob₀ ob : OrderBook} {msgs : List MboMsg}

theorem valid_new (hnew : new priceMin priceMax tick = some ob₀) (ht : 0 < tick)
    (hp : priceMin ≤ priceMax) : ob₀.config.Valid := by
  obtain ⟨levels, hlevels, rfl⟩ := new_eq hnew
  exact Config.valid_of_levelCount hlevels ht hp

/-- A well-formed book of configuration `c`. -/
def BookOf (c : Config) (ob : OrderBook) : Prop := ob.WellFormed ∧ ob.config = c

theorem bookOf_new (hnew : new priceMin priceMax tick = some ob₀) : BookOf ob₀.config ob₀ :=
  ⟨wellFormed_new hnew, rfl⟩

theorem BookOf.step {c : Config} {mbo : MboMsg} (h : BookOf c ob) (hm : Indexes c mbo) :
    ∃ ob', ob.step mbo = .ok ob' ∧ BookOf c ob' := by
  obtain ⟨hwf, rfl⟩ := h
  exact ⟨_, hwf.step_of_indexed hm.indexed, hwf.perform hm.indexed, config_perform ..⟩

/-- Messages whose prices index levels never make the book fault. -/
theorem BookOf.run {c : Config} (h : BookOf c ob) (hm : ∀ mbo ∈ msgs, Indexes c mbo) :
    ∃ ob', ob.run msgs = .ok ob' ∧ BookOf c ob' :=
  run_total (fun _ _ hs hmbo => hs.step hmbo) h hm

/-- A book of three levels, at the prices 0, 100 and 200. -/
def threeLevels : OrderBook :=
  ⟨⟨0, 200, 100, 3⟩, List.replicate 3 .new, List.replicate 3 .new, ∅, 0⟩

theorem new_threeLevels : new 0 200 100 = some threeLevels := by decide

/-- An id added twice, then modified to the other side, filled and cancelled. -/
def reusedId : List MboMsg :=
  [⟨7, 100, 5, 'A', 'B'⟩, ⟨7, 200, 4, 'A', 'A'⟩, ⟨7, 0, 9, 'M', 'B'⟩, ⟨7, 300, 2, 'T', 'A'⟩,
    ⟨7, 300, 9, 'C', 'A'⟩]

end Reachable

section Representation

/-- What keeps the totals, the queues and the table of orders in step with one another. -/
structure Representation (ob : OrderBook) : Prop where
  total_eq_sum : ∀ b i, (ob.level b i).totalSize.toNat =
    ((ob.queue b i).map (fun n => n.val.size.toNat)).sum % 2 ^ 64
  ref_valid : ∀ id ref, ob.lookup id = some ref →
    ref.index < ob.config.numLevels ∧ ref.index = ob.config.priceToIndex ref.price ∧
    ∃ n ∈ ob.queue ref.isBid ref.index, n.addr = ref.it ∧ n.val.orderId = id
  ref_distinct : ∀ id id' ref ref', ob.lookup id = some ref → ob.lookup id' = some ref' →
    id ≠ id' → ref.it ≠ ref'.it

/-- The subtractions of one message: order sizes never borrow, and totals do not
while every queue holds at most 2^32 orders. -/
def SubtractsExactly (ob : OrderBook) (mbo : MboMsg) : Prop :=
  ∃ ob' subs, (ob.apply mbo).run [] = .ok (ob', subs) ∧
    (∀ value amount, .orderSize value amount ∈ subs → amount ≤ value) ∧
    ((∀ b i, (ob.queue b i).length ≤ 2 ^ 32) →
      ∀ value amount, .totalSize value amount ∈ subs → amount ≤ value)

theorem sizesOf_le (q : Nodes Order) : sizesOf q ≤ q.length * (2 ^ 32 - 1) := by
  induction q with
  | nil => simp
  | cons n q ih =>
    have hn : n.val.size.toNat < 2 ^ 32 := n.val.size.toNat_lt
    have hcons : sizesOf (n :: q) = n.val.size.toNat + sizesOf q := by
      simp [sizesOf, Nodes.total]
    rw [hcons, List.length_cons]
    omega

variable {ob : OrderBook} {mbo : MboMsg}

theorem WellFormed.representation (h : ob.WellFormed) : ob.Representation where
  total_eq_sum b i := h.total_toNat b i
  ref_valid id ref href := by
    obtain ⟨hlt, hidx⟩ := h.ref_index id ref href
    obtain ⟨size, hn⟩ := h.ref_node id ref href
    exact ⟨hlt, hidx, _, hn, rfl, rfl⟩
  ref_distinct id id' ref ref' href href' hid := h.ref_it_ne href href' hid

theorem WellFormed.subtractsExactly (h : ob.WellFormed) (hm : ob.Indexed mbo) :
    ob.SubtractsExactly mbo := by
  obtain ⟨subs, hrun, hmodest⟩ := h.apply_yields hm
  refine ⟨_, subs, by simpa using hrun [], ?_, ?_⟩
  · intro value amount hmem
    exact hmodest _ hmem
  · intro hlen value amount hmem
    obtain ⟨b, i, rfl, hle⟩ := hmodest _ hmem
    have hsum := sizesOf_le (ob.queue b i)
    have hq := hlen b i
    have hlt : sizesOf (ob.queue b i) < 2 ^ 64 := by omega
    rw [UInt64.le_iff_toNat_le, h.total_toNat, Nat.mod_eq_of_lt hlt]
    exact hle

/-- After every run the representation holds and the next message finds valid
iterators only, subtracting without a borrow. -/
theorem run_representation {priceMin priceMax tick : Int64} {ob₀ : OrderBook}
    (hnew : new priceMin priceMax tick = some ob₀) (msgs : List MboMsg)
    (hmsgs : ∀ mbo ∈ msgs, Indexes ob₀.config mbo) :
    ∃ ob, ob₀.run msgs = .ok ob ∧ ob.Representation ∧
      ∀ mbo, Indexes ob₀.config mbo → ob.SubtractsExactly mbo := by
  obtain ⟨ob, hrun, hwf, hconfig⟩ := (bookOf_new hnew).run hmsgs
  refine ⟨ob, hrun, hwf.representation, fun mbo hmbo => ?_⟩
  rw [← hconfig] at hmbo
  exact hwf.subtractsExactly hmbo.indexed

theorem run_representation_reusedId : ∃ ob, threeLevels.run reusedId = .ok ob ∧
    ob.Representation ∧ ∀ mbo, Indexes threeLevels.config mbo → ob.SubtractsExactly mbo :=
  run_representation new_threeLevels reusedId (by decide)

end Representation

section Containment

variable {c : Config} {ob ob' : OrderBook} {mbo : MboMsg}

/-- The message puts an order on the level of its own price: an Add, a Modify of
an unknown id, and a Modify that changes the price of a known order. -/
def PlacesOrder (ob : OrderBook) (mbo : MboMsg) : Prop :=
  mbo.action = 'A' ∨ mbo.action = 'M' ∧
    ∀ ref, ob.lookup mbo.orderId = some ref → mbo.size ≠ 0 ∧ mbo.price ≠ ref.price

theorem modifyEffect_places_iff : (ob.modifyEffect mbo).places ↔
    ∀ ref, ob.lookup mbo.orderId = some ref → mbo.size ≠ 0 ∧ mbo.price ≠ ref.price := by
  unfold modifyEffect
  cases hlook : ob.lookup mbo.orderId with
  | none => simp [Effect.places]
  | some ref =>
    by_cases hzero : mbo.size = 0
    · simp [hzero, Effect.places]
    by_cases hprice : mbo.price = ref.price
    · simp only [hzero, hprice]
      repeat' split
      all_goals simp_all [Effect.places]
    · simp [hzero, hprice, Effect.places]

theorem effect_places_iff : (ob.effect mbo).places ↔ mbo.Sided ∧ ob.PlacesOrder mbo := by
  unfold PlacesOrder
  constructor
  · intro hp
    have hs := sided_of_places hp
    refine ⟨hs, ?_⟩
    rcases action_of_places hp with hact | hact
    · exact Or.inl hact
    · rw [effect_modify hs hact] at hp
      exact Or.inr ⟨hact, modifyEffect_places_iff.mp hp⟩
  · rintro ⟨hs, hact | ⟨hact, href⟩⟩
    · rw [effect_add hs hact]
      rfl
    · rw [effect_modify hs hact]
      exact modifyEffect_places_iff.mpr href

/-- A message handled inside the level arrays, without overflow, and with no order
put on a level of another price when its own price is outside the range. -/
structure AppliesSafely (ob : OrderBook) (mbo : MboMsg) : Prop where
  in_bounds : ∃ ob', ob.step mbo = .ok ob'
  no_overflow : mbo.Sided → Fits64 (mbo.price.toInt - ob.config.priceMin.toInt)
  contained : ∀ ob', ob.step mbo = .ok ob' → mbo.action = 'A' ∨ mbo.action = 'M' →
    ¬ ob.config.InRange mbo.price → ∀ b i, ∀ n ∈ ob'.queue b i,
      n.addr ∉ (ob.queue b i).addrs → ob.config.levelPrice i = mbo.price.toInt

/-- The price does not overflow, and is inside the range if the order is placed by it. -/
def PriceSafe (ob : OrderBook) (mbo : MboMsg) : Prop :=
  mbo.Sided → Fits64 (mbo.price.toInt - ob.config.priceMin.toInt) ∧
    (ob.PlacesOrder mbo → ob.config.InRange mbo.price)

/-- A message that places an order leaves a fresh node at the back of its own queue. -/
theorem WellFormed.exists_placed (h : ob.WellFormed) (hp : (ob.effect mbo).places)
    (hi : ob.Indexed mbo) : ⟨ob.nextNode, mbo.orderId, mbo.size⟩ ∈
      (ob.perform mbo (ob.effect mbo)).queue mbo.isBid (ob.msgIndex mbo) := by
  have hlt := hi hp
  cases he : ob.effect mbo with
  | place =>
    simp only [OrderBook.perform]
    rw [h.queue_place hlt, if_pos ⟨rfl, rfl⟩]
    exact Nodes.mem_pushBack.mpr (Or.inr rfl)
  | replace ref =>
    have href : ob.lookup mbo.orderId = some ref := effect_ref (by rw [he]; rfl)
    simp only [OrderBook.perform]
    rw [(h.remove href).queue_place (by simpa using hlt), if_pos ⟨rfl, rfl⟩]
    have hnext : (ob.remove mbo.orderId ref).nextNode = ob.nextNode := nextNode_setLevel ..
    rw [hnext]
    exact Nodes.mem_pushBack.mpr (Or.inr rfl)
  | idle => simp [he, Effect.places] at hp
  | clear => simp [he, Effect.places] at hp
  | remove ref => simp [he, Effect.places] at hp
  | resize ref size => simp [he, Effect.places] at hp
  | requeue ref size => simp [he, Effect.places] at hp

theorem WellFormed.appliesSafely_iff (h : ob.WellFormed) (hc : ob.config.Valid) :
    ob.AppliesSafely mbo ↔ ob.PriceSafe mbo := by
  constructor
  · intro hsafe hs
    refine ⟨hsafe.no_overflow hs, fun hplaces => ?_⟩
    have hp := effect_places_iff.mpr ⟨hs, hplaces⟩
    by_contra hrange
    obtain ⟨ob', hok⟩ := hsafe.in_bounds
    obtain ⟨hi, rfl⟩ := h.step_ok_iff.mp hok
    have hprice := hsafe.contained _ hok (action_of_places hp) hrange _ _ _
      (h.exists_placed hp hi) (h.nextNode_notMem _ _)
    have hlevel := hc.levelPrice_mem (hi hp)
    rw [hprice] at hlevel
    exact hrange hlevel
  · intro hsafe
    have hrange : (ob.effect mbo).places → ob.config.InRange mbo.price := by
      intro hp
      obtain ⟨hs, hplaces⟩ := effect_places_iff.mp hp
      exact (hsafe hs).2 hplaces
    have hi : ob.Indexed mbo := fun hp => hc.priceToIndex_lt (hrange hp)
    refine ⟨⟨_, h.step_of_indexed hi⟩, fun hs => (hsafe hs).1, ?_⟩
    intro ob' hok _ hout b i n hn hnew
    obtain ⟨_, rfl⟩ := h.step_ok_iff.mp hok
    rcases h.addr_mem_queue_perform hi hn with hold | ⟨hp, _⟩
    · exact absurd hold hnew
    · exact absurd (hrange hp) hout

/-- In every reachable state, and at every step of every run, a message is applied
safely exactly when its price is safe. -/
theorem appliesSafely_iff_priceSafe {priceMin priceMax tick : Int64} {ob₀ : OrderBook}
    (hnew : new priceMin priceMax tick = some ob₀) (ht : 0 < tick) (hp : priceMin ≤ priceMax)
    (msgs : List MboMsg) :
    (∀ ob mbo, ob₀.run msgs = .ok ob → (ob.AppliesSafely mbo ↔ ob.PriceSafe mbo)) ∧
      (Along step AppliesSafely ob₀ msgs ↔ Along step PriceSafe ob₀ msgs) := by
  have hstep : ∀ ob mbo ob', BookOf ob₀.config ob → ob.step mbo = .ok ob' →
      BookOf ob₀.config ob' := by
    rintro ob mbo ob' ⟨hwf, hconfig⟩ hok
    exact ⟨hwf.step hok, (hwf.config_step hok).trans hconfig⟩
  have hiff : ∀ ob mbo, BookOf ob₀.config ob → (ob.AppliesSafely mbo ↔ ob.PriceSafe mbo) := by
    rintro ob mbo ⟨hwf, hconfig⟩
    exact hwf.appliesSafely_iff (by rw [hconfig]; exact valid_new hnew ht hp)
  refine ⟨fun ob mbo hrun => hiff ob mbo ?_, ?_⟩
  · exact run_invariant hstep (bookOf_new hnew) hrun
  · exact along_iff (BookOf ob₀.config) (fun _ => True)
      (fun ob mbo ob' hbook _ _ hok => hstep ob mbo ob' hbook hok)
      (fun ob mbo hbook _ => hiff ob mbo hbook) (bookOf_new hnew) (fun _ _ => trivial)

theorem appliesSafely_iff_priceSafe_reusedId :
    (∀ ob mbo, threeLevels.run reusedId = .ok ob → (ob.AppliesSafely mbo ↔ ob.PriceSafe mbo)) ∧
      (Along step AppliesSafely threeLevels reusedId ↔
        Along step PriceSafe threeLevels reusedId) :=
  appliesSafely_iff_priceSafe new_threeLevels (by decide) (by decide) reusedId

/-- An Add above the top of the range indexes past the level array. -/
theorem not_appliesSafely_above : ¬ threeLevels.AppliesSafely ⟨1, 300, 5, 'A', 'B'⟩ := by
  intro hsafe
  obtain ⟨ob', hok⟩ := hsafe.in_bounds
  have hfault : threeLevels.step ⟨1, 300, 5, 'A', 'B'⟩ = .error .levelIndex := by decide
  rw [hfault] at hok
  cases hok

end Containment

end OrderBookServer.OrderBook
