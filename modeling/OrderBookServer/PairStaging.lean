import OrderBookServer.PairView
import OrderBookServer.Reference

/-!
How many levels the pair view stages: the arrays are as large as their declarations say, whatever
the number of levels of the book.
-/
namespace OrderBookServer.OrderBook

variable {δ : Type}

/-- `build_bid_ask_pairs` writes inside its arrays. -/
def StagesInside (δ : Type) (ob : OrderBook) : Prop :=
  ∃ json : Json δ, ob.buildBidAskPairs = .ok json

/-- The levels of a side, among those that are scanned, with orders whose total is not zero. -/
def shownLevels (ob : OrderBook) (b : Bool) : List ℕ :=
  (ob.scan b).filter fun i => ¬ (ob.level b i).empty ∧ (ob.level b i).totalSize > 0

section Levels

variable {ob : OrderBook} {b : Bool} {i : ℕ}

theorem length_staged : (ob.staged b).length = (ob.shownLevels b).length := by
  unfold staged shownLevels
  induction ob.scan b with
  | nil => rfl
  | cons i l ih =>
    by_cases h : ¬ (ob.level b i).empty ∧ (ob.level b i).totalSize > 0
    · have hstaged : ob.stagedAt b i = some _ := if_pos h
      rw [List.filterMap_cons_some hstaged, List.filter_cons, if_pos (decide_eq_true h),
        List.length_cons, List.length_cons, ih]
    · have hstaged : ob.stagedAt b i = none := if_neg h
      rw [List.filterMap_cons_none hstaged, List.filter_cons_of_neg (by simpa using h), ih]

theorem stagesInside_iff : StagesInside δ ob ↔ ∀ b, (ob.shownLevels b).length ≤ 2000 := by
  simp only [← length_staged]
  constructor
  · rintro ⟨json, hjson⟩ b
    by_contra hlong
    change ¬ _ ≤ stagingCapacity at hlong
    unfold buildBidAskPairs at hjson
    cases b with
    | true =>
      have hbids := ob.stageBids_eq
      rw [if_neg hlong] at hbids
      rw [hbids] at hjson
      cases hjson
    | false =>
      have hasks := ob.stageAsks_eq
      rw [if_neg hlong] at hasks
      rw [hasks] at hjson
      cases hbids : ob.stageBidsFrom ob.bidTurns [] with
      | ok bids =>
        rw [hbids] at hjson
        cases hjson
      | error e =>
        rw [hbids] at hjson
        cases hjson
  · intro hshort
    exact ⟨_, buildBidAskPairs_eq (hshort true) (hshort false)⟩

theorem shownLevels_length_le : (ob.shownLevels b).length ≤ ob.config.numLevels := by
  have hsub : ob.shownLevels b ⊆ List.range ob.config.numLevels := fun i hi =>
    List.mem_range.mpr (lt_of_mem_scan (List.mem_filter.mp hi).1)
  have hle := (List.subperm_of_subset (scan_nodup.filter _) hsub).length_le
  rw [List.length_range] at hle
  exact hle

/-- A level whose sizes do not sum to a multiple of 2^64 is shown. -/
theorem WellFormed.shown_of_sizesOf (h : ob.WellFormed) (hpos : 0 < sizesOf (ob.queue b i))
    (hlt : sizesOf (ob.queue b i) < 2 ^ 64) :
    ¬ (ob.level b i).empty ∧ (ob.level b i).totalSize > 0 := by
  constructor
  · intro hempty
    rw [(empty_level_iff i).mp hempty, sizesOf_nil] at hpos
    exact Nat.lt_irrefl 0 hpos
  · show (0 : UInt64) < (ob.level b i).totalSize
    rw [UInt64.lt_iff_toNat_lt, h.total_toNat, Nat.mod_eq_of_lt hlt]
    exact hpos

end Levels

section Wide

variable {priceMin priceMax tick : Int64} {ob₀ ob : OrderBook}

/-- An ask of size one at each of the first levels. -/
def wideAsks (ob : OrderBook) (n : ℕ) : List MboMsg :=
  (List.range n).map fun k => ⟨UInt64.ofNat k, ob.bidPrice k, 1, 'A', 'A'⟩

theorem inRange_bidPrice (hc : ob.config.Valid) {k : ℕ} (hk : k < ob.config.numLevels) :
    ob.config.InRange (ob.bidPrice k) := by
  have hprice := toInt_bidPrice hc hk
  have hmem := hc.levelPrice_mem hk
  rw [← hprice] at hmem
  exact hmem

theorem priceToIndex_bidPrice (hc : ob.config.Valid) {k : ℕ} (hk : k < ob.config.numLevels) :
    ob.config.priceToIndex (ob.bidPrice k) = k := by
  have hprice := toInt_bidPrice hc hk
  have hgrid : ob.config.OnGrid (ob.bidPrice k) := by
    refine ⟨k, ?_⟩
    rw [hprice, Config.levelPrice, Int.mul_comm]
    omega
  exact ((hc.toInt_eq_levelPrice_iff (inRange_bidPrice hc hk) hgrid).mp hprice).symm

/-- The sizes of the asks at one of the levels. -/
theorem sum_wideAsks (hc : ob.config.Valid) {n i : ℕ} (hn : n ≤ ob.config.numLevels)
    (hi : i < n) {sum : ℕ} (hsum : sum = (((ob.wideAsks n).filter fun mbo =>
      mbo.isBid = false ∧ ob.config.priceToIndex mbo.price = i).map fun mbo =>
        mbo.size.toNat).sum) : 0 < sum ∧ sum ≤ n := by
  have hone : ∀ mbo ∈ (ob.wideAsks n).filter fun mbo =>
      mbo.isBid = false ∧ ob.config.priceToIndex mbo.price = i, mbo.size.toNat = 1 := by
    intro mbo hmbo
    obtain ⟨k, _, rfl⟩ := List.mem_map.mp (List.mem_filter.mp hmbo).1
    rfl
  rw [List.map_congr_left hone, List.map_const', List.sum_replicate_nat, Nat.mul_one] at hsum
  have hmem : (⟨UInt64.ofNat i, ob.bidPrice i, 1, 'A', 'A'⟩ : MboMsg) ∈ (ob.wideAsks n).filter
      fun mbo => mbo.isBid = false ∧ ob.config.priceToIndex mbo.price = i := by
    refine List.mem_filter.mpr ⟨List.mem_map.mpr ⟨i, List.mem_range.mpr hi, rfl⟩, ?_⟩
    exact decide_eq_true ⟨rfl, priceToIndex_bidPrice hc (hi.trans_le hn)⟩
  have hle := List.length_filter_le (fun mbo : MboMsg => decide (mbo.isBid = false ∧
    ob.config.priceToIndex mbo.price = i)) (ob.wideAsks n)
  have hlength : (ob.wideAsks n).length = n := by
    rw [wideAsks, List.length_map, List.length_range]
  rw [hsum]
  exact ⟨List.length_pos_of_mem hmem, hle.trans_eq hlength⟩

/-- A book with more levels than the arrays have places for comes to have orders at so many. -/
theorem exists_not_stagesInside (δ : Type) (hnew : new priceMin priceMax tick = some ob₀)
    (ht : 0 < tick) (hp : priceMin ≤ priceMax) (hwide : 2000 < ob₀.config.numLevels) : ∃ msgs ob,
    (∀ mbo ∈ msgs, PriceInRange ob₀.config mbo) ∧ ob₀.run msgs = .ok ob ∧
      ¬ StagesInside δ ob := by
  have hc := valid_new hnew ht hp
  have hrange : ∀ mbo ∈ ob₀.wideAsks 2001, PriceInRange ob₀.config mbo := by
    intro mbo hmbo _
    obtain ⟨k, hk, rfl⟩ := List.mem_map.mp hmbo
    exact inRange_bidPrice hc ((List.mem_range.mp hk).trans_le hwide)
  obtain ⟨ob, hrun, hwf, hconfig⟩ :=
    (bookOf_new hnew).run fun mbo hmbo => (hrange mbo hmbo).indexes hc
  refine ⟨_, ob, hrange, hrun, fun hinside => ?_⟩
  have hadds : ∀ i, i < 2001 → 0 < sizesOf (ob.queue false i) ∧
      sizesOf (ob.queue false i) ≤ 2001 := by
    intro i hi
    have hsizes := sizesOf_queue_adds false i (wellFormed_new hnew) (fun mbo hmbo => by
      obtain ⟨k, _, rfl⟩ := List.mem_map.mp hmbo
      exact ⟨⟨(by decide : 'A' ≠ 'R'), Or.inl rfl⟩, rfl⟩) hrun
    rw [queue_new hnew, sizesOf_nil, Nat.zero_add] at hsizes
    exact sum_wideAsks hc hwide hi hsizes
  have hsub : List.range 2001 ⊆ ob.shownLevels false := by
    intro i hi
    have hi := List.mem_range.mp hi
    obtain ⟨hpos, hle⟩ := hadds i hi
    have hshown := hwf.shown_of_sizesOf hpos (hle.trans_lt (by decide))
    refine List.mem_filter.mpr ⟨List.mem_range.mpr ?_, decide_eq_true hshown⟩
    rw [hconfig]
    exact hi.trans_le hwide
  have hmany := (List.subperm_of_subset List.nodup_range hsub).length_le
  have hfew := stagesInside_iff.mp hinside false
  rw [List.length_range] at hmany
  omega

/-- In a reachable state the view writes inside its arrays exactly when each side shows at most
2000 levels, and in all of them exactly when there are no more levels than that. -/
theorem stagesInside_iff_narrow (δ : Type) (hnew : new priceMin priceMax tick = some ob₀)
    (ht : 0 < tick) (hp : priceMin ≤ priceMax) :
    (∀ msgs ob, (∀ mbo ∈ msgs, PriceInRange ob₀.config mbo) → ob₀.run msgs = .ok ob →
      (StagesInside δ ob ↔ ∀ b, (ob.shownLevels b).length ≤ 2000)) ∧
    ((∀ msgs ob, (∀ mbo ∈ msgs, PriceInRange ob₀.config mbo) → ob₀.run msgs = .ok ob →
      StagesInside δ ob) ↔ ob₀.config.numLevels ≤ 2000) := by
  have hc := valid_new hnew ht hp
  refine ⟨fun _ _ _ _ => stagesInside_iff, fun hall => ?_, fun hnarrow msgs ob hmsgs hrun => ?_⟩
  · by_contra hwide
    obtain ⟨msgs, ob, hmsgs, hrun, hnot⟩ :=
      exists_not_stagesInside δ hnew ht hp (Nat.lt_of_not_le hwide)
    exact hnot (hall msgs ob hmsgs hrun)
  · obtain ⟨ob', hrun', _, hconfig⟩ :=
      (bookOf_new hnew).run fun mbo hmbo => (hmsgs mbo hmbo).indexes hc
    rw [hrun] at hrun'
    cases hrun'
    refine stagesInside_iff.mpr fun b => shownLevels_length_le.trans ?_
    rw [hconfig]
    exact hnarrow

theorem stagesInside_iff_narrow_threeLevels :
    (∀ msgs ob, (∀ mbo ∈ msgs, PriceInRange threeLevels.config mbo) →
      threeLevels.run msgs = .ok ob →
      (StagesInside Empty ob ↔ ∀ b, (ob.shownLevels b).length ≤ 2000)) ∧
    ((∀ msgs ob, (∀ mbo ∈ msgs, PriceInRange threeLevels.config mbo) →
      threeLevels.run msgs = .ok ob → StagesInside Empty ob) ↔
        threeLevels.config.numLevels ≤ 2000) :=
  stagesInside_iff_narrow Empty new_threeLevels (by decide) (by decide)

/-- The book of production has 11999 levels. -/
theorem not_stagesInside_production : ∃ ob₀, new 20000000 120000000000 10000000 = some ob₀ ∧
    ∃ msgs ob, (∀ mbo ∈ msgs, PriceInRange ob₀.config mbo) ∧ ob₀.run msgs = .ok ob ∧
      ¬ StagesInside Empty ob := by
  have hlevels : Config.levelCount 20000000 120000000000 10000000 = some 11999 := by decide
  obtain ⟨ob₀, hnew, hnum⟩ : ∃ ob₀, new 20000000 120000000000 10000000 = some ob₀ ∧
      ob₀.config.numLevels = 11999 := by
    rw [new, hlevels]
    exact ⟨_, rfl, rfl⟩
  exact ⟨ob₀, hnew, exists_not_stagesInside Empty hnew (by decide) (by decide)
    (by rw [hnum]; decide)⟩

end Wide

end OrderBookServer.OrderBook
