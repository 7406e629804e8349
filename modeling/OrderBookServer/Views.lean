import OrderBookServer.Execution
import OrderBookServer.Json
import OrderBookServer.Prices

/-!
The read-only views of the book: best bid and ask, depth and snapshot. Bids are scanned
with an `int` counting down and asks with a `size_t` counting up. Every view is a part of
one list for each side, the entries of its non-empty levels in scanning order.
-/
namespace OrderBookServer

structure DepthSnapshot where
  bids : List (Int64 × UInt64)
  asks : List (Int64 × UInt64)
deriving DecidableEq, Repr

namespace OrderBook

variable {δ : Type}

/-- The turns of a loop from `(int) m_num_levels - 1` down to 0. -/
def bidTurns (ob : OrderBook) : ℕ := ((ob.config.numLevels : ℤ).bmod (2 ^ 32)).toNat

/-- `m_price_min + i * m_tick_size` with an `int`: the sum is signed. -/
def bidPrice (ob : OrderBook) (i : ℕ) : Int64 :=
  ob.config.priceMin + Int64.ofNat i * ob.config.tickSize

/-- The same sum with a `size_t`: it is unsigned, and converted at the end. -/
def askPrice (ob : OrderBook) (i : ℕ) : Int64 :=
  (ob.config.priceMin.toUInt64 + UInt64.ofNat i * ob.config.tickSize.toUInt64).toInt64

def bestBidFrom (ob : OrderBook) : ℕ → Option (Int64 × UInt64)
  | 0 => none
  | i + 1 =>
    if (ob.level true i).empty then ob.bestBidFrom i
    else some (ob.bidPrice i, (ob.level true i).totalSize)

def bestBid (ob : OrderBook) : Option (Int64 × UInt64) := ob.bestBidFrom ob.bidTurns

def bestAskFrom (ob : OrderBook) : ℕ → ℕ → Option (Int64 × UInt64)
  | 0, _ => none
  | turns + 1, i =>
    if (ob.level false i).empty then ob.bestAskFrom turns (i + 1)
    else some (ob.askPrice i, (ob.level false i).totalSize)

def bestAsk (ob : OrderBook) : Option (Int64 × UInt64) := ob.bestAskFrom ob.config.numLevels 0

def depthBidsFrom (ob : OrderBook) (levels : ℤ) : ℕ → ℤ → List (Int64 × UInt64)
  | 0, _ => []
  | idx + 1, count =>
    if count < levels then
      if (ob.level true idx).empty then ob.depthBidsFrom levels idx count
      else (ob.bidPrice idx, (ob.level true idx).totalSize) ::
        ob.depthBidsFrom levels idx (count + 1)
    else []

def depthAsksFrom (ob : OrderBook) (levels : ℤ) : ℕ → ℕ → ℤ → List (Int64 × UInt64)
  | 0, _, _ => []
  | turns + 1, idx, count =>
    if count < levels then
      if (ob.level false idx).empty then ob.depthAsksFrom levels turns (idx + 1) count
      else (ob.askPrice idx, (ob.level false idx).totalSize) ::
        ob.depthAsksFrom levels turns (idx + 1) (count + 1)
    else []

def getDepth (ob : OrderBook) (levels : ℤ) : DepthSnapshot where
  bids := ob.depthBidsFrom levels ob.bidTurns 0
  asks := ob.depthAsksFrom levels ob.config.numLevels 0 0

/-- One element of a snapshot side; the total is stored as a signed number. -/
def levelJson (price : Int64) (totalSize : UInt64) : Json δ :=
  .object [
    (['p', 'r', 'i', 'c', 'e'], .ofValue (.int64 price)),
    (['s', 'i', 'z', 'e'], .ofValue (.ofUInt64 totalSize))]

def snapshotBidsFrom (ob : OrderBook) : ℕ → Json δ → Json δ
  | 0, bids => bids
  | i + 1, bids =>
    if (ob.level true i).empty then ob.snapshotBidsFrom i bids
    else ob.snapshotBidsFrom i
      (bids.pushBack (levelJson (ob.bidPrice i) (ob.level true i).totalSize))

def snapshotAsksFrom (ob : OrderBook) : ℕ → ℕ → Json δ → Json δ
  | 0, _, asks => asks
  | turns + 1, i, asks =>
    if (ob.level false i).empty then ob.snapshotAsksFrom turns (i + 1) asks
    else ob.snapshotAsksFrom turns (i + 1)
      (asks.pushBack (levelJson (ob.askPrice i) (ob.level false i).totalSize))

def buildSnapshot (ob : OrderBook) : Json δ :=
  let bids := ob.snapshotBidsFrom ob.bidTurns .null
  let asks := ob.snapshotAsksFrom ob.config.numLevels 0 .null
  (Json.setKey .null ['b', 'i', 'd', 's'] bids).setKey ['a', 's', 'k', 's'] asks

section Entries

variable (ob : OrderBook)

/-- What a view shows of level `i`, if the level is not empty. -/
def entryAt (b : Bool) (i : ℕ) : Option (Int64 × UInt64) :=
  if (ob.level b i).empty then none
  else some (if b then ob.bidPrice i else ob.askPrice i, (ob.level b i).totalSize)

/-- The indices of a side in scanning order. -/
def scan : Bool → List ℕ
  | true => (List.range ob.bidTurns).reverse
  | false => List.range ob.config.numLevels

/-- The entries of the non-empty levels of a side in scanning order. -/
def entries (b : Bool) : List (Int64 × UInt64) := (ob.scan b).filterMap (ob.entryAt b)

theorem bestBidFrom_eq (n : ℕ) :
    ob.bestBidFrom n = ((List.range n).reverse.filterMap (ob.entryAt true)).head? := by
  induction n with
  | zero => rfl
  | succ n ih =>
    rw [List.range_succ, List.reverse_append, List.reverse_singleton, List.singleton_append]
    by_cases h : (ob.level true n).empty
    · simp [bestBidFrom, entryAt, h, ih]
    · simp [bestBidFrom, entryAt, h]

theorem bestAskFrom_eq (n i : ℕ) :
    ob.bestAskFrom n i = ((List.range' i n).filterMap (ob.entryAt false)).head? := by
  induction n generalizing i with
  | zero => rfl
  | succ n ih =>
    rw [List.range'_succ]
    by_cases h : (ob.level false i).empty
    · simp [bestAskFrom, entryAt, h, ih]
    · simp [bestAskFrom, entryAt, h]

theorem depthBidsFrom_eq (levels : ℤ) (n : ℕ) (count : ℤ) : ob.depthBidsFrom levels n count =
    ((List.range n).reverse.filterMap (ob.entryAt true)).take (levels - count).toNat := by
  induction n generalizing count with
  | zero => simp [depthBidsFrom]
  | succ n ih =>
    rw [List.range_succ, List.reverse_append, List.reverse_singleton, List.singleton_append]
    by_cases hcount : count < levels
    · have hturn : (levels - count).toNat = (levels - (count + 1)).toNat + 1 := by omega
      by_cases h : (ob.level true n).empty
      · simp [depthBidsFrom, entryAt, hcount, h, ih]
      · simp [depthBidsFrom, entryAt, hcount, h, ih, hturn]
    · have hzero : (levels - count).toNat = 0 := by omega
      simp [depthBidsFrom, hcount, hzero]

theorem depthAsksFrom_eq (levels : ℤ) (n i : ℕ) (count : ℤ) :
    ob.depthAsksFrom levels n i count =
      ((List.range' i n).filterMap (ob.entryAt false)).take (levels - count).toNat := by
  induction n generalizing i count with
  | zero => simp [depthAsksFrom]
  | succ n ih =>
    rw [List.range'_succ]
    by_cases hcount : count < levels
    · have hturn : (levels - count).toNat = (levels - (count + 1)).toNat + 1 := by omega
      by_cases h : (ob.level false i).empty
      · simp [depthAsksFrom, entryAt, hcount, h, ih]
      · simp [depthAsksFrom, entryAt, hcount, h, ih, hturn]
    · have hzero : (levels - count).toNat = 0 := by omega
      simp [depthAsksFrom, hcount, hzero]

theorem snapshotBidsFrom_eq (n : ℕ) (json : Json δ) : ob.snapshotBidsFrom n json =
    ((List.range n).reverse.filterMap (ob.entryAt true)).foldl
      (fun json e => json.pushBack (levelJson e.1 e.2)) json := by
  induction n generalizing json with
  | zero => rfl
  | succ n ih =>
    rw [List.range_succ, List.reverse_append, List.reverse_singleton, List.singleton_append]
    by_cases h : (ob.level true n).empty
    · simp [snapshotBidsFrom, entryAt, h, ih]
    · simp [snapshotBidsFrom, entryAt, h, ih]

theorem snapshotAsksFrom_eq (n i : ℕ) (json : Json δ) : ob.snapshotAsksFrom n i json =
    ((List.range' i n).filterMap (ob.entryAt false)).foldl
      (fun json e => json.pushBack (levelJson e.1 e.2)) json := by
  induction n generalizing i json with
  | zero => rfl
  | succ n ih =>
    rw [List.range'_succ]
    by_cases h : (ob.level false i).empty
    · simp [snapshotAsksFrom, entryAt, h, ih]
    · simp [snapshotAsksFrom, entryAt, h, ih]

/-- The snapshot side made of a list of entries: no array is made for an empty list. -/
def sideJson : List (Int64 × UInt64) → Json δ
  | [] => .null
  | es => .array (es.map fun e => levelJson e.1 e.2)

theorem foldl_pushBack (es : List (Int64 × UInt64)) :
    es.foldl (fun json e => json.pushBack (levelJson e.1 e.2)) (Json.null : Json δ) =
      sideJson es := by
  have harray : ∀ (es : List (Int64 × UInt64)) (items : List (Json δ)),
      es.foldl (fun json e => json.pushBack (levelJson e.1 e.2)) (Json.array items) =
        Json.array (items ++ es.map fun e => levelJson e.1 e.2) := by
    intro es
    induction es with
    | nil => simp
    | cons e es ih =>
      intro items
      have hnext := ih (items ++ [levelJson e.1 e.2])
      rw [List.append_assoc, List.singleton_append] at hnext
      exact hnext
  cases es with
  | nil => rfl
  | cons e es => exact harray es [levelJson e.1 e.2]

theorem entries_true :
    ob.entries true = (List.range ob.bidTurns).reverse.filterMap (ob.entryAt true) := rfl

theorem entries_false :
    ob.entries false = (List.range' 0 ob.config.numLevels).filterMap (ob.entryAt false) := by
  rw [← List.range_eq_range']
  rfl

theorem bestBid_eq : ob.bestBid = (ob.entries true).head? := by
  rw [bestBid, bestBidFrom_eq, entries_true]

theorem bestAsk_eq : ob.bestAsk = (ob.entries false).head? := by
  rw [bestAsk, bestAskFrom_eq, entries_false]

theorem getDepth_bids (n : ℤ) : (ob.getDepth n).bids = (ob.entries true).take n.toNat := by
  simp only [getDepth, depthBidsFrom_eq, entries_true, Int.sub_zero]

theorem getDepth_asks (n : ℤ) : (ob.getDepth n).asks = (ob.entries false).take n.toNat := by
  simp only [getDepth, depthAsksFrom_eq, entries_false, Int.sub_zero]

theorem buildSnapshot_eq : (ob.buildSnapshot : Json δ) = .object [
    (['b', 'i', 'd', 's'], sideJson (ob.entries true)),
    (['a', 's', 'k', 's'], sideJson (ob.entries false))] := by
  simp only [buildSnapshot, snapshotBidsFrom_eq, snapshotAsksFrom_eq, ← entries_true,
    ← entries_false, foldl_pushBack]
  rfl

end Entries

section Prices

variable {ob : OrderBook}

/-- The two ways of computing a price agree. -/
theorem askPrice_eq_bidPrice (i : ℕ) : ob.askPrice i = ob.bidPrice i := by
  rw [askPrice, bidPrice, UInt64.toInt64_add, UInt64.toInt64_mul]
  rfl

theorem toInt_bidPrice (hc : ob.config.Valid) {i : ℕ} (hi : i < ob.config.numLevels) :
    (ob.bidPrice i).toInt = ob.config.levelPrice i := by
  obtain ⟨hlow, hhigh⟩ := hc.levelPrice_mem hi
  have hmax := ob.config.priceMax.toInt_lt
  have hmin := ob.config.priceMin.le_toInt
  have hquot : (ob.config.priceMax.toInt - ob.config.priceMin.toInt) / ob.config.tickSize.toInt ≤
      ob.config.priceMax.toInt - ob.config.priceMin.toInt :=
    Int.ediv_le_self _ (by have := hc.min_le_max; omega)
  have hlevels := hc.levels_eq
  have hfits := hc.range_fits
  have hindex : (Int64.ofNat i).toInt = i := Int64.toInt_ofNat_of_lt (by omega)
  rw [bidPrice, Int64.toInt_add, Int64.toInt_mul, hindex, Int.add_bmod_bmod]
  unfold Config.levelPrice at hlow hhigh ⊢
  exact Int.bmod_eq_of_le (by omega) (by omega)

end Prices

end OrderBook

end OrderBookServer
