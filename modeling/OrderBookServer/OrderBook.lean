import Mathlib.Data.Finmap
import OrderBookServer.Int64Arith
import OrderBookServer.NodeList

/-!
The order book of src/orderbook/orderbook.h: two level arrays, a list of order
nodes for each level, and the lookup table from order ids to list iterators.
Machine integers keep their widths, so `size_t` and `uint64_t` arithmetic wraps.
An index outside a level array and an iterator to an erased node are faults.
Each subtraction on an order size or a level total is recorded as it is made.
-/
namespace OrderBookServer

open NodeList

structure Order where
  orderId : UInt64
  size : UInt32
deriving DecidableEq, Repr

structure Level where
  queue : Nodes Order
  totalSize : UInt64
deriving DecidableEq, Repr

namespace Level

def new : Level := ⟨[], 0⟩

def empty (level : Level) : Bool := level.queue.isEmpty

end Level

/-- An entry of `m_orders_ref`; `it` is the address of the order's list node. -/
structure Ref where
  isBid : Bool
  index : ℕ
  it : ℕ
  price : Int64
deriving DecidableEq, Repr

/-- The fields of `databento::MboMsg` that the book reads. -/
structure MboMsg where
  orderId : UInt64
  price : Int64
  size : UInt32
  action : Char
  side : Char
deriving DecidableEq, Repr

structure Config where
  priceMin : Int64
  priceMax : Int64
  tickSize : Int64
  numLevels : ℕ
deriving DecidableEq, Repr

/-- `nextNode` is the allocator: the address of the next list node. -/
structure OrderBook where
  config : Config
  bids : List Level
  asks : List Level
  ordersRef : Finmap (fun _ : UInt64 => Ref)
  nextNode : ℕ
deriving DecidableEq

inductive Fault
  | levelIndex
  | danglingIterator
deriving DecidableEq, Repr

inductive Subtraction
  | orderSize (value amount : UInt32)
  | totalSize (value amount : UInt64)
deriving DecidableEq, Repr

abbrev Exec := StateT (List Subtraction) (Except Fault)

def subOrderSize (value amount : UInt32) : Exec UInt32 := do
  modify (· ++ [.orderSize value amount])
  return value - amount

def subTotalSize (value amount : UInt64) : Exec UInt64 := do
  modify (· ++ [.totalSize value amount])
  return value - amount

namespace Config

/-- The level count the constructor computes. There is none where the signed
arithmetic is undefined, nor where `resize` throws: no vector holds 2^63 elements. -/
def levelCount (priceMin priceMax tick : Int64) : Option ℕ :=
  let range := priceMax.toInt - priceMin.toInt
  if tick ≠ 0 ∧ Fits64 range ∧ Fits64 (range.tdiv tick.toInt + 1) then
    let levels := ((priceMax - priceMin) / tick + 1).toUInt64.toNat
    if levels < 2 ^ 63 then some levels else none
  else none

def priceToIndex (c : Config) (px : Int64) : ℕ := ((px - c.priceMin) / c.tickSize).toUInt64.toNat

end Config

namespace OrderBook

/-- The constructor: every level empty, no order known. -/
def new (priceMin priceMax tick : Int64) : Option OrderBook :=
  (Config.levelCount priceMin priceMax tick).map fun levels => {
    config := ⟨priceMin, priceMax, tick, levels⟩
    bids := List.replicate levels .new
    asks := List.replicate levels .new
    ordersRef := ∅
    nextNode := 0
  }

def side (ob : OrderBook) (isBid : Bool) : List Level := if isBid then ob.bids else ob.asks

def getSide (ob : OrderBook) (isBid : Bool) (idx : ℕ) : Exec Level :=
  match (ob.side isBid)[idx]? with
  | some level => return level
  | none => throw .levelIndex

def setLevel (ob : OrderBook) (isBid : Bool) (idx : ℕ) (level : Level) : OrderBook :=
  if isBid then { ob with bids := ob.bids.set idx level }
  else { ob with asks := ob.asks.set idx level }

/-- Dereference the iterator `it` of `level.queue`. -/
def readOrder (level : Level) (it : ℕ) : Exec Order :=
  match level.queue.read it with
  | some order => return order
  | none => throw .danglingIterator

def eraseNode (level : Level) (it : ℕ) : Exec (Nodes Order) :=
  if it ∈ level.queue.addrs then return level.queue.erase it else throw .danglingIterator

def add (ob : OrderBook) (mbo : MboMsg) (isBid : Bool) (idx : ℕ) : Exec OrderBook := do
  let level ← ob.getSide isBid idx
  let it := ob.nextNode
  let queue := level.queue.pushBack it ⟨mbo.orderId, mbo.size⟩
  let totalSize := level.totalSize + mbo.size.toUInt64
  return {
    ob.setLevel isBid idx ⟨queue, totalSize⟩ with
    ordersRef := ob.ordersRef.insert mbo.orderId ⟨isBid, idx, it, mbo.price⟩
    nextNode := it + 1
  }

/-- The three statements with which every operation drops an order. -/
def dropOrder (ob : OrderBook) (id : UInt64) (ref : Ref) (level : Level) (ordSz : UInt32) :
    Exec OrderBook := do
  let totalSize ← subTotalSize level.totalSize ordSz.toUInt64
  let queue ← eraseNode level ref.it
  return {
    ob.setLevel ref.isBid ref.index ⟨queue, totalSize⟩ with
    ordersRef := ob.ordersRef.erase id
  }

/-- The common body of `cancel` and `handleTrade`. -/
def takeSize (ob : OrderBook) (mbo : MboMsg) : Exec OrderBook := do
  match ob.ordersRef.lookup mbo.orderId with
  | none => return ob
  | some ref =>
    let level ← ob.getSide ref.isBid ref.index
    let order ← readOrder level ref.it
    if mbo.size ≥ order.size then
      ob.dropOrder mbo.orderId ref level order.size
    else
      let size ← subOrderSize order.size mbo.size
      let totalSize ← subTotalSize level.totalSize mbo.size.toUInt64
      let queue := level.queue.write ref.it { order with size := size }
      return ob.setLevel ref.isBid ref.index ⟨queue, totalSize⟩

def cancel (ob : OrderBook) (mbo : MboMsg) : Exec OrderBook := ob.takeSize mbo

def handleTrade (ob : OrderBook) (mbo : MboMsg) : Exec OrderBook := ob.takeSize mbo

def handleNonPrinted (ob : OrderBook) (mbo : MboMsg) : Exec OrderBook := ob.handleTrade mbo

def handleFullFill (ob : OrderBook) (mbo : MboMsg) : Exec OrderBook := do
  match ob.ordersRef.lookup mbo.orderId with
  | none => return ob
  | some ref =>
    let level ← ob.getSide ref.isBid ref.index
    let order ← readOrder level ref.it
    ob.dropOrder mbo.orderId ref level order.size

def modify (ob : OrderBook) (mbo : MboMsg) (newIsBid : Bool) (newIdx : ℕ) : Exec OrderBook := do
  match ob.ordersRef.lookup mbo.orderId with
  | none => ob.add mbo newIsBid newIdx
  | some ref =>
    let level ← ob.getSide ref.isBid ref.index
    let order ← readOrder level ref.it
    let oldSize := order.size
    let ordersRef := ob.ordersRef.insert mbo.orderId { ref with price := mbo.price }
    -- Case 1: the size becomes zero.
    if mbo.size = 0 then
      ob.dropOrder mbo.orderId ref level oldSize
    -- Case 2: the price changes.
    else if mbo.price ≠ ref.price then
      let removed ← ob.dropOrder mbo.orderId ref level oldSize
      removed.add mbo newIsBid newIdx
    -- Case 3: same price, larger size.
    else if mbo.size > oldSize then
      let growth ← subOrderSize mbo.size oldSize
      let totalSize := level.totalSize + growth.toUInt64
      let queue := (level.queue.write ref.it { order with size := mbo.size }).spliceBack ref.it
      return { ob.setLevel ref.isBid ref.index ⟨queue, totalSize⟩ with ordersRef := ordersRef }
    -- Case 4: same price, smaller size.
    else if mbo.size < oldSize then
      let cut ← subOrderSize oldSize mbo.size
      let totalSize ← subTotalSize level.totalSize cut.toUInt64
      let queue := level.queue.write ref.it { order with size := mbo.size }
      return { ob.setLevel ref.isBid ref.index ⟨queue, totalSize⟩ with ordersRef := ordersRef }
    else
      return { ob with ordersRef := ordersRef }

def clear (ob : OrderBook) : OrderBook :=
  { ob with
    bids := ob.bids.map (fun _ => Level.new)
    asks := ob.asks.map (fun _ => Level.new)
    ordersRef := ∅ }

/-- The index is computed for every action; where `px - m_price_min` overflows it
takes the wrapped value. -/
def apply (ob : OrderBook) (mbo : MboMsg) : Exec OrderBook :=
  if mbo.action = 'R' then return ob.clear
  else if mbo.side ≠ 'A' ∧ mbo.side ≠ 'B' then return ob
  else
    let isBid := decide (mbo.side = 'B')
    let idx := ob.config.priceToIndex mbo.price
    match mbo.action with
    | 'T' => ob.handleTrade mbo
    | 'F' => ob.handleFullFill mbo
    | 'N' => ob.handleNonPrinted mbo
    | 'A' => ob.add mbo isBid idx
    | 'C' => ob.cancel mbo
    | 'M' => ob.modify mbo isBid idx
    | _ => return ob

/-- One message, without the record of subtractions. -/
def step (ob : OrderBook) (mbo : MboMsg) : Except Fault OrderBook :=
  Prod.fst <$> (ob.apply mbo).run []

end OrderBook

end OrderBookServer
