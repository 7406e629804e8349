import OrderBookServer.Snapshot

/-!
The pair view of the book: `build_bid_ask_pairs` stages the levels of each side in an array of its
own and pairs the two arrays, from the best level of each side on.
-/
namespace OrderBookServer

/-- An element of a staging array. -/
structure LevelByPrice where
  price : Int64
  level : Level
deriving DecidableEq

/-- A write past the end of a staging array. -/
inductive StagingFault
  | pastCapacity
deriving DecidableEq, Repr

def stagingCapacity : ℕ := 2000

/-- `levels[count++] = entry`, where `levels` lists the first `count` elements. -/
def stage (levels : List LevelByPrice) (entry : LevelByPrice) :
    Except StagingFault (List LevelByPrice) :=
  if levels.length < stagingCapacity then .ok (levels ++ [entry]) else .error .pastCapacity

namespace OrderBook

variable {δ : Type}

def stageBidsFrom (ob : OrderBook) : ℕ → List LevelByPrice → Except StagingFault (List LevelByPrice)
  | 0, bids => .ok bids
  | i + 1, bids =>
    if ¬ (ob.level true i).empty ∧ (ob.level true i).totalSize > 0 then
      match stage bids ⟨ob.bidPrice i, ob.level true i⟩ with
      | .ok bids => ob.stageBidsFrom i bids
      | .error e => .error e
    else ob.stageBidsFrom i bids

def stageAsksFrom (ob : OrderBook) :
    ℕ → ℕ → List LevelByPrice → Except StagingFault (List LevelByPrice)
  | 0, _, asks => .ok asks
  | turns + 1, i, asks =>
    if ¬ (ob.level false i).empty ∧ (ob.level false i).totalSize > 0 then
      match stage asks ⟨ob.askPrice i, ob.level false i⟩ with
      | .ok asks => ob.stageAsksFrom turns (i + 1) asks
      | .error e => .error e
    else ob.stageAsksFrom turns (i + 1) asks

/-- One side of pair `i`, under the keys of that side. -/
def setPairSide (px sz ct : Text) (levels : List LevelByPrice) (i : ℕ) (pair : Json δ) : Json δ :=
  match levels[i]? with
  | some entry =>
    ((pair.setKey px (.ofValue (.int64 entry.price))).setKey sz
      (.ofValue (.ofUInt64 entry.level.totalSize))).setKey ct
      (.ofValue (.ofUInt64 (UInt64.ofNat entry.level.queue.length)))
  | none =>
    ((pair.setKey px (.ofValue (.int64 0))).setKey sz (.ofValue (.int64 0))).setKey ct
      (.ofValue (.int64 0))

def pairJson (bids asks : List LevelByPrice) (i : ℕ) : Json δ :=
  setPairSide ['a', 's', 'k', '_', 'p', 'x'] ['a', 's', 'k', '_', 's', 'z']
    ['a', 's', 'k', '_', 'c', 't'] asks i
    (setPairSide ['b', 'i', 'd', '_', 'p', 'x'] ['b', 'i', 'd', '_', 's', 'z']
      ['b', 'i', 'd', '_', 'c', 't'] bids i .null)

def pairsFrom (bids asks : List LevelByPrice) : ℕ → ℕ → Json δ → Json δ
  | 0, _, pairs => pairs
  | turns + 1, i, pairs => pairsFrom bids asks turns (i + 1) (pairs.pushBack (pairJson bids asks i))

/-- The counts fit an `int`, because the arrays are small. -/
def buildBidAskPairs (ob : OrderBook) : Except StagingFault (Json δ) := do
  let bids ← ob.stageBidsFrom ob.bidTurns []
  let asks ← ob.stageAsksFrom ob.config.numLevels 0 []
  let maxCount := max bids.length asks.length
  return .object [
    (['b', 'i', 'd', '_', 'a', 's', 'k', '_', 'p', 'a', 'i', 'r', 's'],
      pairsFrom bids asks maxCount 0 .null),
    (['n', 'u', 'm', '_', 'l', 'e', 'v', 'e', 'l', 's'],
      .ofValue (.ofUInt64 (UInt64.ofNat maxCount)))]

section Staging

variable {ob : OrderBook}

/-- What the pair view stages of level `i`. -/
def stagedAt (ob : OrderBook) (b : Bool) (i : ℕ) : Option LevelByPrice :=
  if ¬ (ob.level b i).empty ∧ (ob.level b i).totalSize > 0 then
    some ⟨if b then ob.bidPrice i else ob.askPrice i, ob.level b i⟩
  else none

/-- What it stages of a side. -/
def staged (ob : OrderBook) (b : Bool) : List LevelByPrice := (ob.scan b).filterMap (ob.stagedAt b)

/-- Staging a list of levels after those already there. -/
def stageAll (levels entries : List LevelByPrice) : Except StagingFault (List LevelByPrice) :=
  if (levels ++ entries).length ≤ stagingCapacity then .ok (levels ++ entries)
  else .error .pastCapacity

theorem stageAll_nil (entries : List LevelByPrice) : stageAll [] entries =
    if entries.length ≤ stagingCapacity then .ok entries else .error .pastCapacity := rfl

theorem stageAll_cons {levels entries : List LevelByPrice} {entry : LevelByPrice} :
    stageAll levels (entry :: entries) =
      match stage levels entry with
      | .ok levels => stageAll levels entries
      | .error e => .error e := by
  unfold stage stageAll
  by_cases h : levels.length < stagingCapacity
  · rw [if_pos h]
    simp only [List.append_assoc, List.singleton_append]
  · have hlong : ¬ (levels ++ entry :: entries).length ≤ stagingCapacity := by
      rw [List.length_append, List.length_cons]
      omega
    rw [if_neg h, if_neg hlong]

theorem length_stage {levels levels' : List LevelByPrice} {entry : LevelByPrice}
    (h : stage levels entry = .ok levels') : levels'.length ≤ stagingCapacity := by
  unfold stage at h
  by_cases hlt : levels.length < stagingCapacity
  · rw [if_pos hlt] at h
    cases h
    rw [List.length_append, List.length_singleton]
    exact hlt
  · rw [if_neg hlt] at h
    cases h

theorem stageBidsFrom_eq (n : ℕ) (bids : List LevelByPrice)
    (hbids : bids.length ≤ stagingCapacity) : ob.stageBidsFrom n bids =
      stageAll bids ((List.range n).reverse.filterMap (ob.stagedAt true)) := by
  induction n generalizing bids with
  | zero => simp [stageBidsFrom, stageAll, hbids]
  | succ n ih =>
    rw [List.range_succ, List.reverse_append, List.reverse_singleton, List.singleton_append]
    by_cases h : ¬ (ob.level true n).empty ∧ (ob.level true n).totalSize > 0
    · have hstaged : ob.stagedAt true n = some ⟨ob.bidPrice n, ob.level true n⟩ := by
        rw [stagedAt, if_pos h, if_pos rfl]
      rw [List.filterMap_cons_some hstaged, stageAll_cons, stageBidsFrom, if_pos h]
      cases hstage : stage bids ⟨ob.bidPrice n, ob.level true n⟩ with
      | error e => rfl
      | ok bids' => exact ih bids' (length_stage hstage)
    · have hstaged : ob.stagedAt true n = none := by rw [stagedAt, if_neg h]
      rw [List.filterMap_cons_none hstaged, stageBidsFrom, if_neg h]
      exact ih bids hbids

theorem stageAsksFrom_eq (n i : ℕ) (asks : List LevelByPrice)
    (hasks : asks.length ≤ stagingCapacity) : ob.stageAsksFrom n i asks =
      stageAll asks ((List.range' i n).filterMap (ob.stagedAt false)) := by
  induction n generalizing i asks with
  | zero => simp [stageAsksFrom, stageAll, hasks]
  | succ n ih =>
    rw [List.range'_succ]
    by_cases h : ¬ (ob.level false i).empty ∧ (ob.level false i).totalSize > 0
    · have hstaged : ob.stagedAt false i = some ⟨ob.askPrice i, ob.level false i⟩ := by
        rw [stagedAt, if_pos h, if_neg Bool.false_ne_true]
      rw [List.filterMap_cons_some hstaged, stageAll_cons, stageAsksFrom, if_pos h]
      cases hstage : stage asks ⟨ob.askPrice i, ob.level false i⟩ with
      | error e => rfl
      | ok asks' => exact ih (i + 1) asks' (length_stage hstage)
    · have hstaged : ob.stagedAt false i = none := by rw [stagedAt, if_neg h]
      rw [List.filterMap_cons_none hstaged, stageAsksFrom, if_neg h]
      exact ih (i + 1) asks hasks

theorem stageBids_eq (ob : OrderBook) : ob.stageBidsFrom ob.bidTurns [] =
    if (ob.staged true).length ≤ stagingCapacity then .ok (ob.staged true)
    else .error .pastCapacity := by
  rw [stageBidsFrom_eq _ _ (Nat.zero_le _), stageAll_nil]
  rfl

theorem stageAsks_eq (ob : OrderBook) : ob.stageAsksFrom ob.config.numLevels 0 [] =
    if (ob.staged false).length ≤ stagingCapacity then .ok (ob.staged false)
    else .error .pastCapacity := by
  rw [stageAsksFrom_eq _ _ _ (Nat.zero_le _), ← List.range_eq_range', stageAll_nil]
  rfl

/-- The pairs of two sides: a null where there is none. -/
def pairsJson (bids asks : List LevelByPrice) : Json δ :=
  if max bids.length asks.length = 0 then .null
  else .array ((List.range (max bids.length asks.length)).map (pairJson bids asks))

theorem pairsFrom_eq (bids asks : List LevelByPrice) (n i : ℕ) (items : List (Json δ)) :
    pairsFrom bids asks n i (.array items) =
      .array (items ++ (List.range' i n).map (pairJson bids asks)) := by
  induction n generalizing i items with
  | zero => simp [pairsFrom]
  | succ n ih =>
    rw [pairsFrom, Json.pushBack, ih, List.range'_succ, List.map_cons, List.append_assoc,
      List.singleton_append]

theorem pairsFrom_null (bids asks : List LevelByPrice) :
    pairsFrom bids asks (max bids.length asks.length) 0 (.null : Json δ) = pairsJson bids asks := by
  unfold pairsJson
  cases hmax : max bids.length asks.length with
  | zero => rfl
  | succ n =>
    rw [if_neg (Nat.succ_ne_zero n)]
    show pairsFrom bids asks n 1 (.array [pairJson bids asks 0]) = _
    rw [pairsFrom_eq, List.range_eq_range', List.range'_succ, List.map_cons,
      List.singleton_append]

/-- The pair view, where the arrays are large enough. -/
theorem buildBidAskPairs_eq (hbids : (ob.staged true).length ≤ stagingCapacity)
    (hasks : (ob.staged false).length ≤ stagingCapacity) :
    (ob.buildBidAskPairs : Except StagingFault (Json δ)) = .ok (.object [
      (['b', 'i', 'd', '_', 'a', 's', 'k', '_', 'p', 'a', 'i', 'r', 's'],
        pairsJson (ob.staged true) (ob.staged false)),
      (['n', 'u', 'm', '_', 'l', 'e', 'v', 'e', 'l', 's'], .ofValue (.ofUInt64
        (UInt64.ofNat (max (ob.staged true).length (ob.staged false).length))))]) := by
  have hb := ob.stageBids_eq
  have ha := ob.stageAsks_eq
  rw [if_pos hbids] at hb
  rw [if_pos hasks] at ha
  unfold buildBidAskPairs
  rw [hb, ha]
  show Except.ok _ = _
  rw [pairsFrom_null]

end Staging

section Agreement

/-- One side of a pair: price, size and number of orders. -/
structure PairSide where
  px : Int64
  sz : Int64
  ct : Int64

def pairOf (bid ask : PairSide) : Json δ :=
  .object [
    (['b', 'i', 'd', '_', 'p', 'x'], .ofValue (.int64 bid.px)),
    (['b', 'i', 'd', '_', 's', 'z'], .ofValue (.int64 bid.sz)),
    (['b', 'i', 'd', '_', 'c', 't'], .ofValue (.int64 bid.ct)),
    (['a', 's', 'k', '_', 'p', 'x'], .ofValue (.int64 ask.px)),
    (['a', 's', 'k', '_', 's', 'z'], .ofValue (.int64 ask.sz)),
    (['a', 's', 'k', '_', 'c', 't'], .ofValue (.int64 ask.ct))]

/-- The pairs of two sides, with zeros beyond the end of the shorter one. -/
def pairsOf (bids asks : List PairSide) : Json δ :=
  if max bids.length asks.length = 0 then .null
  else .array ((List.range (max bids.length asks.length)).map fun i =>
    pairOf (bids.getD i ⟨0, 0, 0⟩) (asks.getD i ⟨0, 0, 0⟩))

/-- The side of a pair is that of a snapshot entry, with the orders of the entry's level. -/
structure Carries (ob : OrderBook) (b : Bool) (entry : Int64 × Int64) (side : PairSide) : Prop where
  px : side.px = entry.1
  sz : side.sz = entry.2
  ct : ∃ i < ob.config.numLevels, ob.config.levelPrice i = entry.1.toInt ∧
    side.ct = Int64.ofNat (ob.queue b i).length

/-- The pair view carries those entries of the snapshot that are shown. -/
def PairsAgree (δ : Type) (ob : OrderBook) (shown : Int64 × Int64 → Bool) : Prop :=
  ∃ bids asks : List (Int64 × Int64), ∃ bids' asks' : List PairSide,
    (ob.buildSnapshot : Json δ) = .object [
      (['b', 'i', 'd', 's'], snapshotSide bids), (['a', 's', 'k', 's'], snapshotSide asks)] ∧
    (ob.buildBidAskPairs : Except StagingFault (Json δ)) = .ok (.object [
      (['b', 'i', 'd', '_', 'a', 's', 'k', '_', 'p', 'a', 'i', 'r', 's'], pairsOf bids' asks'),
      (['n', 'u', 'm', '_', 'l', 'e', 'v', 'e', 'l', 's'], .ofValue (.int64 (Int64.ofNat
        (max (bids.filter shown).length (asks.filter shown).length))))]) ∧
    List.Forall₂ (Carries ob true) (bids.filter shown) bids' ∧
    List.Forall₂ (Carries ob false) (asks.filter shown) asks'

/-- The indices of the non-empty levels of a side. -/
def nonEmptyLevels (ob : OrderBook) (b : Bool) : List ℕ :=
  (List.range ob.config.numLevels).filter fun i => !(ob.level b i).empty

variable {ob : OrderBook} {b : Bool}

/-- What is paired of a staged level. -/
def sideOf (entry : LevelByPrice) : PairSide where
  px := entry.price
  sz := entry.level.totalSize.toInt64
  ct := Int64.ofNat entry.level.queue.length

theorem pairJson_eq (bids asks : List LevelByPrice) (i : ℕ) : (pairJson bids asks i : Json δ) =
    pairOf ((bids.map sideOf).getD i ⟨0, 0, 0⟩)
      ((asks.map sideOf).getD i ⟨0, 0, 0⟩) := by
  unfold pairJson setPairSide
  rw [List.getD_eq_getElem?_getD, List.getD_eq_getElem?_getD, List.getElem?_map,
    List.getElem?_map]
  cases bids[i]? <;> cases asks[i]? <;> rfl

theorem pairsJson_eq (bids asks : List LevelByPrice) : (pairsJson bids asks : Json δ) =
    pairsOf (bids.map sideOf) (asks.map sideOf) := by
  unfold pairsJson pairsOf
  rw [List.length_map, List.length_map, funext (pairJson_eq bids asks)]

theorem bidTurns_le (ob : OrderBook) : ob.bidTurns ≤ ob.config.numLevels := by
  unfold bidTurns
  have hle : (ob.config.numLevels : ℤ).bmod (2 ^ 32) ≤ ob.config.numLevels := by
    rw [Int.bmod_def]
    split <;> omega
  omega

theorem lt_of_mem_scan {i : ℕ} (hi : i ∈ ob.scan b) : i < ob.config.numLevels := by
  cases b with
  | false => exact List.mem_range.mp hi
  | true => exact (List.mem_range.mp (List.mem_reverse.mp hi)).trans_le ob.bidTurns_le

theorem stagedAt_of_empty {i : ℕ} (h : (ob.level b i).empty = true) : ob.stagedAt b i = none := by
  rw [stagedAt, if_neg fun hand => hand.1 h]

theorem staged_length_le : (ob.staged b).length ≤ (ob.nonEmptyLevels b).length := by
  have hfilter : ob.staged b =
      ((ob.scan b).filter fun i => !(ob.level b i).empty).filterMap (ob.stagedAt b) := by
    rw [List.filterMap_filter]
    refine List.filterMap_congr fun i _ => ?_
    cases hempty : (ob.level b i).empty with
    | true => simp [stagedAt_of_empty hempty]
    | false => simp
  have hsub : (ob.scan b).filter (fun i => !(ob.level b i).empty) ⊆ ob.nonEmptyLevels b := by
    intro i hi
    obtain ⟨hscan, hempty⟩ := List.mem_filter.mp hi
    exact List.mem_filter.mpr ⟨List.mem_range.mpr (lt_of_mem_scan hscan), hempty⟩
  rw [hfilter]
  exact (List.length_filterMap_le _ _).trans
    (List.subperm_of_subset (scan_nodup.filter _) hsub).length_le

/-- What the two views show of one level. -/
theorem carries_level (hc : ob.config.Valid) {i : ℕ} (hi : i < ob.config.numLevels) :
    List.Forall₂ (Carries ob b)
      (((ob.entryAt b i).toList.map fun e => (e.1, e.2.toInt64)).filter fun e => e.2 ≠ 0)
      ((ob.stagedAt b i).toList.map sideOf) := by
  cases hempty : (ob.level b i).empty with
  | true =>
    rw [stagedAt_of_empty hempty, show ob.entryAt b i = none from if_pos hempty]
    exact List.Forall₂.nil
  | false =>
    have hentry : ob.entryAt b i =
        some (if b then ob.bidPrice i else ob.askPrice i, (ob.level b i).totalSize) :=
      if_neg (by simp [hempty])
    rw [hentry]
    by_cases hzero : (ob.level b i).totalSize = 0
    · have hstaged : ob.stagedAt b i = none :=
        if_neg fun hand => absurd (hzero ▸ hand.2) (UInt64.lt_irrefl 0)
      rw [hstaged, hzero]
      exact List.Forall₂.nil
    · have hpos : (ob.level b i).totalSize > 0 := UInt64.pos_iff_ne_zero.mpr hzero
      have hstaged : ob.stagedAt b i = some ⟨_, ob.level b i⟩ :=
        if_pos ⟨by simp [hempty], hpos⟩
      have hshown : (ob.level b i).totalSize.toInt64 ≠ 0 :=
        fun heq => hzero (congrArg Int64.toUInt64 heq)
      rw [hstaged, Option.toList_some, Option.toList_some, List.map_singleton]
      simp only [List.filter_cons, decide_eq_true hshown, if_true, List.filter_nil]
      refine List.Forall₂.cons ⟨rfl, rfl, i, hi, ?_, rfl⟩ List.Forall₂.nil
      rw [← toInt_bidPrice hc hi]
      cases b with
      | true => rfl
      | false => exact congrArg Int64.toInt (askPrice_eq_bidPrice i).symm

theorem carries_staged (hc : ob.config.Valid) :
    List.Forall₂ (Carries ob b) ((ob.signedEntries b).filter fun e => e.2 ≠ 0)
      ((ob.staged b).map sideOf) := by
  have hlist : ∀ l : List ℕ, (∀ i ∈ l, i < ob.config.numLevels) →
      List.Forall₂ (Carries ob b)
        (((l.filterMap (ob.entryAt b)).map fun e => (e.1, e.2.toInt64)).filter fun e => e.2 ≠ 0)
        ((l.filterMap (ob.stagedAt b)).map sideOf) := by
    intro l hl
    induction l with
    | nil => exact List.Forall₂.nil
    | cons i l ih =>
      have hlevel := carries_level (b := b) hc (hl i (List.mem_cons_self ..))
      have hrest := ih fun j hj => hl j (List.mem_cons_of_mem i hj)
      simp only [List.filterMap_eq_flatMap_toList, List.flatMap_cons, List.map_append,
        List.filter_append] at hrest ⊢
      exact List.rel_append hlevel hrest
  exact hlist _ fun i hi => lt_of_mem_scan hi

/-- The pair view of a book whose levels fit the arrays. -/
theorem pairsAgree (hc : ob.config.Valid)
    (hlevels : ∀ b, (ob.nonEmptyLevels b).length ≤ stagingCapacity) :
    PairsAgree δ ob fun e => e.2 ≠ 0 := by
  have hbids := carries_staged (b := true) hc
  have hasks := carries_staged (b := false) hc
  refine ⟨_, _, _, _, buildSnapshot_eq_signed, ?_, hbids, hasks⟩
  rw [buildBidAskPairs_eq (staged_length_le.trans (hlevels true))
    (staged_length_le.trans (hlevels false)), pairsJson_eq, hbids.length_eq, hasks.length_eq,
    List.length_map, List.length_map]
  rfl

end Agreement

section Reachable

variable {priceMin priceMax tick : Int64} {ob₀ ob : OrderBook} {msgs : List MboMsg}

/-- In every reachable state with at most 2000 non-empty levels on each side the pair view carries
the levels of the snapshot, but for those whose total is zero. -/
theorem pairsAgree_of_reachable (δ : Type) (hnew : new priceMin priceMax tick = some ob₀)
    (ht : 0 < tick) (hp : priceMin ≤ priceMax)
    (hmsgs : ∀ mbo ∈ msgs, PriceInRange ob₀.config mbo) (hrun : ob₀.run msgs = .ok ob)
    (hlevels : ∀ b, (ob.nonEmptyLevels b).length ≤ 2000) :
    PairsAgree δ ob fun e => e.2 ≠ 0 := by
  have hc := valid_new hnew ht hp
  obtain ⟨ob', hrun', _, hconfig⟩ :=
    (bookOf_new hnew).run fun mbo hmbo => (hmsgs mbo hmbo).indexes hc
  rw [hrun] at hrun'
  cases hrun'
  rw [← hconfig] at hc
  exact pairsAgree hc hlevels

/-- Four Adds, after which one bid level holds an order of size zero only. -/
def hollowLevel : List MboMsg :=
  [⟨1, 100, 5, 'A', 'B'⟩, ⟨2, 0, 0, 'A', 'B'⟩, ⟨3, 200, 7, 'A', 'A'⟩, ⟨4, 200, 1, 'A', 'A'⟩]

theorem pairsAgree_of_reachable_hollowLevel : ∃ ob, threeLevels.run hollowLevel = .ok ob ∧
    PairsAgree Empty ob fun e => e.2 ≠ 0 := by
  obtain ⟨ob, hrun, hwf, hconfig⟩ := (bookOf_new new_threeLevels).run
    (by decide : ∀ mbo ∈ hollowLevel, Indexes _ mbo)
  refine ⟨ob, hrun, pairsAgree_of_reachable Empty new_threeLevels (by decide) (by decide)
    (by decide) hrun fun b => ?_⟩
  refine (List.length_filter_le _ _).trans ?_
  rw [hconfig]
  decide

theorem snapshotSide_length {bids bids' : List (Int64 × Int64)}
    (h : (snapshotSide bids : Json δ) = snapshotSide bids') : bids.length = bids'.length := by
  cases bids with
  | nil =>
    cases bids' with
    | nil => rfl
    | cons e' es' => cases h
  | cons e es =>
    cases bids' with
    | nil => cases h
    | cons e' es' =>
      have hitems := congrArg List.length (Json.array.inj h)
      rw [List.length_map, List.length_map] at hitems
      exact hitems

/-- The snapshot shows an order of size zero, and the pair view does not. -/
theorem not_pairsAgree_hollow : ∃ ob, threeLevels.run [⟨1, 100, 0, 'A', 'B'⟩] = .ok ob ∧
    (∀ b, (ob.nonEmptyLevels b).length ≤ 2000) ∧ ¬ PairsAgree Empty ob fun _ => true := by
  obtain ⟨ob, hrun, hwf, hconfig⟩ := (bookOf_new new_threeLevels).run
    (by decide : ∀ mbo ∈ [⟨1, 100, 0, 'A', 'B'⟩], Indexes _ mbo)
  have hlevels : ∀ b, (ob.nonEmptyLevels b).length ≤ 2000 := by
    intro b
    refine (List.length_filter_le _ _).trans ?_
    rw [hconfig]
    decide
  have hviews : (threeLevels.run [⟨1, 100, 0, 'A', 'B'⟩]).map (fun ob =>
      ((ob.signedEntries true).length, (ob.signedEntries false).length, ob.staged true,
        ob.staged false)) = .ok (1, 0, [], []) := by decide
  rw [hrun] at hviews
  obtain ⟨hbids, hasks, htrue, hfalse⟩ : (ob.signedEntries true).length = 1 ∧
      (ob.signedEntries false).length = 0 ∧ ob.staged true = [] ∧ ob.staged false = [] := by
    simpa [Except.map] using hviews
  refine ⟨ob, hrun, hlevels, fun ⟨bids, asks, bids', asks', hsnapshot, hpairs, _, _⟩ => ?_⟩
  rw [buildSnapshot_eq_signed] at hsnapshot
  rw [buildBidAskPairs_eq (staged_length_le.trans (hlevels true))
    (staged_length_le.trans (hlevels false)), htrue, hfalse] at hpairs
  simp only [Json.object.injEq, List.cons.injEq, Prod.mk.injEq, true_and, and_true] at hsnapshot
  simp only [Except.ok.injEq, Json.object.injEq, List.cons.injEq, Prod.mk.injEq, true_and,
    and_true, List.filter_true] at hpairs
  rw [← snapshotSide_length hsnapshot.1, ← snapshotSide_length hsnapshot.2, hbids, hasks] at hpairs
  have hnum := JsonValue.int64.inj (Json.value.inj hpairs.2).1
  exact absurd hnum (by decide)

end Reachable

end OrderBook

end OrderBookServer
