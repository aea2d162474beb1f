import FeedHandler.Common.ItchMessages
import FeedHandler.V3.RefTable

/-!
# The v3 order book

`include/v3/order_book.hpp` and `src/v3/order_book.cpp`. A book keeps its own fields; the pool and
the reference table are shared and passed along. Indices and quantities are 32-bit numbers kept as
`Nat`. An access outside of an array and a loop that does not end are `none`.
-/

namespace FeedHandler.V3

open Itch

/-- 32-bit subtraction. -/
def sub32 (a b : Nat) : Nat := (2 ^ 32 + a - b) % 2 ^ 32

/-- `static_cast<int32_t>`. -/
def toInt32 (x : Nat) : Int := if x < 2 ^ 31 then x else (x : Int) - 2 ^ 32

/-- `PriceLevel`. -/
structure PriceLevel where
  headIdx : Nat
  tailIdx : Nat
  totalQty : Nat
  orderCount : Nat
  deriving DecidableEq, Repr

/-- A level without orders. -/
def PriceLevel.empty : PriceLevel := ⟨kNullIdx, kNullIdx, 0, 0⟩

/-- `kWindow`. -/
def kWindow : Nat := 1024

/-- `kAskBase`. -/
def kAskBase : Nat := kWindow

/-- The fields of `OrderBook`, without its references to the pool and the table. -/
structure OrderBook where
  baseCents : Int
  baseSet : Bool
  levels : Array PriceLevel
  overflowBid : OrderedMap Nat Nat
  overflowAsk : OrderedMap Nat Nat
  overflowSide : Array UInt8
  bestBidIdx : Int
  bestAskIdx : Int
  occupied : Vector (BitVec 64) 32

/-- The pool and the table that all books share. -/
structure Shared where
  pool : OrderPool
  refs : RefTable

namespace OrderBook

/-- The constructor. -/
def new : OrderBook where
  baseCents := -1
  baseSet := false
  levels := Array.replicate (2 * kWindow) PriceLevel.empty
  overflowBid := ∅
  overflowAsk := ∅
  overflowSide := #[]
  bestBidIdx := -1
  bestAskIdx := -1
  occupied := Vector.replicate 32 0#64

/-- The overflow map of a side. -/
def overflow (b : OrderBook) (side : UInt8) : OrderedMap Nat Nat :=
  if side = kBid then b.overflowBid else b.overflowAsk

/-- `side_of`. -/
def sideOf (b : OrderBook) (levelIdx : Nat) : Option UInt8 :=
  if levelIdx < kAskBase then some kBid
  else if levelIdx < 2 * kWindow then some 0x53
  else b.overflowSide[levelIdx - 2 * kWindow]?

/-- `price_of`. -/
def priceOf (b : OrderBook) (levelIdx : Nat) : Option Nat :=
  if levelIdx < kAskBase then
    some (((b.baseCents + levelIdx) * 100) % 2 ^ 32).toNat
  else if levelIdx < 2 * kWindow then
    some (((b.baseCents + (levelIdx - kAskBase : Nat)) * 100) % 2 ^ 32).toNat
  else do
    let side ← b.sideOf levelIdx
    match (b.overflow side).entries.find? fun kv => kv.2 = levelIdx with
    | some kv => some kv.1
    | none => some 0

/-- The window is placed around the first price the book sees. -/
def setBase (b : OrderBook) (price : Nat) : OrderBook :=
  if b.baseSet then b
  else { b with baseCents := (price / 100 : Nat) - (kWindow / 2 : Nat), baseSet := true }

/-- A fresh overflow level. -/
def pushLevel (b : OrderBook) (price : Nat) (side : UInt8) : OrderBook × Nat :=
  let idx := b.levels.size % 2 ^ 32
  let b := { b with
    levels := b.levels.push PriceLevel.empty
    overflowSide := b.overflowSide.push side }
  if side = kBid then ({ b with overflowBid := b.overflowBid.assign price idx }, idx)
  else ({ b with overflowAsk := b.overflowAsk.assign price idx }, idx)

/-- `level_for`. -/
def levelFor (b : OrderBook) (price : Nat) (side : UInt8) : OrderBook × Nat :=
  let b := b.setBase price
  let off : Int := (price / 100 : Nat) - b.baseCents
  if price % 100 = 0 ∧ 0 ≤ off ∧ off < kWindow then
    (b, if side = kBid then off.toNat else kAskBase + off.toNat)
  else
    match (b.overflow side).find? price with
    | some idx => (b, idx)
    | none => b.pushLevel price side

/-! ## The occupancy bits -/

/-- The loop of `find_prev_set`, from word `w` down. -/
def prevLoop (occupied : Vector (BitVec 64) 32) : Nat → BitVec 64 → Option Int
  | w, word =>
      if word ≠ 0 then some ((w * 64 : Nat) + (63 - word.clz.toNat : Nat))
      else
        match w with
        | 0 => some (-1)
        | w + 1 => do
            let word ← occupied[w]?
            prevLoop occupied w word

/-- `find_prev_set`. -/
def findPrevSet (b : OrderBook) (src : Int) : Option Int :=
  if src < 0 then some (-1)
  else do
    let w := src.toNat / 64
    let bit := src.toNat % 64
    let word ← b.occupied[w]?
    prevLoop b.occupied w
      (word &&& if bit = 63 then ~~~0#64 else (1#64 <<< (bit + 1)) - 1#64)

/-- The loop of `find_next_set`, from word `w` up. -/
def nextLoop (occupied : Vector (BitVec 64) 32) : Nat → Nat → BitVec 64 → Option Int
  | 0, _, _ => none
  | fuel + 1, w, word =>
      if word ≠ 0 then some ((w * 64 : Nat) + word.ctz.toNat)
      else if w ≥ (2 * kWindow - 1) / 64 then some (-1)
      else do
        let word ← occupied[w + 1]?
        nextLoop occupied fuel (w + 1) word

/-- `find_next_set`. -/
def findNextSet (b : OrderBook) (src : Int) : Option Int :=
  if src ≥ 2 * kWindow then some (-1)
  else do
    let src := if src < 0 then 0 else src.toNat
    let w := src / 64
    let word ← b.occupied[w]?
    nextLoop b.occupied 32 w (word &&& (~~~0#64 <<< (src % 64)))

/-- `rescan_best('B')`. -/
def rescanBid (b : OrderBook) : Option OrderBook := do
  let best ← b.findPrevSet b.bestBidIdx
  return { b with bestBidIdx := best }

/-- `rescan_best('S')`. -/
def rescanAsk (b : OrderBook) : Option OrderBook := do
  let best ← b.findNextSet b.bestAskIdx
  return { b with bestAskIdx := best }

/-! ## Linking and unlinking -/

/-- The occupancy bit of a window level, set or cleared in its word. -/
def writeBit (b : OrderBook) (levelIdx : Nat) (f : BitVec 64 → BitVec 64 → BitVec 64) : OrderBook :=
  if h : levelIdx < 2 * kWindow then
    have hw : levelIdx / 64 < 32 := by
      simp only [kWindow] at h
      omega
    let word := f b.occupied[levelIdx / 64] (1#64 <<< (levelIdx % 64))
    { b with occupied := b.occupied.set (levelIdx / 64) word }
  else b

/-- The end of `link_order`: the level's occupancy bit and the cached best level. -/
def occupy (b : OrderBook) (levelIdx : Nat) : OrderBook :=
  let b := b.writeBit levelIdx fun word bit => word ||| bit
  if levelIdx < kAskBase then
    if toInt32 levelIdx > b.bestBidIdx then { b with bestBidIdx := toInt32 levelIdx } else b
  else if levelIdx < 2 * kWindow then
    if b.bestAskIdx < 0 ∨ toInt32 levelIdx < b.bestAskIdx then
      { b with bestAskIdx := toInt32 levelIdx }
    else b
  else b

/-- The end of `unlink_order` for a level that has become empty. -/
def vacate (b : OrderBook) (levelIdx : Nat) : Option OrderBook :=
  let b := b.writeBit levelIdx fun word bit => word &&& ~~~bit
  (if toInt32 levelIdx = b.bestBidIdx then b.rescanBid else some b).bind fun b =>
    if toInt32 levelIdx = b.bestAskIdx then b.rescanAsk else some b

end OrderBook

namespace OrderPool

/-- The successor of a node of a level, or the head of the level for `kNullIdx`. -/
def setNext (p : OrderPool) (lvl : PriceLevel) (idx next : Nat) : Option (OrderPool × PriceLevel) :=
  if idx ≠ kNullIdx then (p.modify idx fun o => { o with nextIdx := next }).map fun p => (p, lvl)
  else some (p, { lvl with headIdx := next })

/-- The predecessor of a node of a level, or the tail of the level for `kNullIdx`. -/
def setPrev (p : OrderPool) (lvl : PriceLevel) (idx prev : Nat) : Option (OrderPool × PriceLevel) :=
  if idx ≠ kNullIdx then (p.modify idx fun o => { o with prevIdx := prev }).map fun p => (p, lvl)
  else some (p, { lvl with tailIdx := prev })

/-- The list part of `link_order`: the order becomes the tail of its level. -/
def pushBack (p : OrderPool) (lvl : PriceLevel) (levelIdx orderIdx qty : Nat) :
    Option (OrderPool × PriceLevel) := do
  let p ← p.modify orderIdx fun o =>
    { o with nextIdx := kNullIdx, prevIdx := lvl.tailIdx, levelIdx := levelIdx, qty := qty }
  let (p, lvl) ← p.setNext lvl lvl.tailIdx orderIdx
  return (p, { lvl with
    tailIdx := orderIdx
    orderCount := (lvl.orderCount + 1) % 2 ^ 32
    totalQty := (lvl.totalQty + qty) % 2 ^ 32 })

/-- The list part of `unlink_order`. The node is read again after each write, as the source does
through its reference. -/
def remove (p : OrderPool) (lvl : PriceLevel) (orderIdx : Nat) :
    Option (OrderPool × PriceLevel) := do
  let o ← p.slots[orderIdx]?
  let (p, lvl) ← p.setNext lvl o.prevIdx o.nextIdx
  let o ← p.slots[orderIdx]?
  let (p, lvl) ← p.setPrev lvl o.nextIdx o.prevIdx
  let o ← p.slots[orderIdx]?
  return (p, { lvl with
    totalQty := sub32 lvl.totalQty o.qty
    orderCount := sub32 lvl.orderCount 1 })

end OrderPool

namespace OrderBook

/-- `link_order`. -/
def linkOrder (b : OrderBook) (p : OrderPool) (levelIdx orderIdx qty : Nat) :
    Option (OrderBook × OrderPool) := do
  let lvl ← b.levels[levelIdx]?
  let (p, lvl) ← p.pushBack lvl levelIdx orderIdx qty
  return ({ b with levels := b.levels.setIfInBounds levelIdx lvl }.occupy levelIdx, p)

/-- `unlink_order`. -/
def unlinkOrder (b : OrderBook) (p : OrderPool) (orderIdx : Nat) :
    Option (OrderBook × OrderPool) := do
  let o ← p.slots[orderIdx]?
  let lvl ← b.levels[o.levelIdx]?
  let (p, lvl) ← p.remove lvl orderIdx
  let b := { b with levels := b.levels.setIfInBounds o.levelIdx lvl }
  let b ← if lvl.headIdx = kNullIdx then b.vacate o.levelIdx else some b
  return (b, p)

/-! ## The five messages -/

section Messages

variable (hash : Nat → Nat)

/-- `unlink_order`, `release` and `erase`, as four of the handlers call them in a row. -/
def removeOrder (s : Shared) (b : OrderBook) (orderRef idx : Nat) :
    Option (Shared × OrderBook) := do
  let (b, pool) ← b.unlinkOrder s.pool idx
  let pool ← pool.release idx
  let refs ← s.refs.erase hash orderRef
  return (⟨pool, refs⟩, b)

/-- `allocate`, `level_for`, `link_order` and `insert`, as `add_order` and `replace_order` call
them in a row. An order whose reference the table refuses stays linked. -/
def placeOrder (s : Shared) (b : OrderBook) (orderRef price shares : Nat) (side : UInt8) :
    Option (Shared × OrderBook) := do
  let (pool, idx) ← s.pool.allocate
  if idx = kNullIdx then return (⟨pool, s.refs⟩, b)
  else
    let (b, levelIdx) := b.levelFor price side
    let (b, pool) ← b.linkOrder pool levelIdx idx shares
    let refs ← s.refs.insert hash orderRef idx
    return (⟨pool, refs⟩, b)

/-- The common body of `execute_order` and `cancel_order`. -/
def reduceOrder (s : Shared) (b : OrderBook) (orderRef shares : Nat) :
    Option (Shared × OrderBook) := do
  let idx ← s.refs.find hash orderRef
  if idx = kNullIdx then return (s, b)
  else
    let o ← s.pool.slots[idx]?
    if shares ≥ o.qty then b.removeOrder hash s orderRef idx
    else
      let lvl ← b.levels[o.levelIdx]?
      let pool ← s.pool.modify idx fun o => { o with qty := sub32 o.qty shares }
      return ({ s with pool := pool }, { b with
        levels := b.levels.setIfInBounds o.levelIdx
          { lvl with totalQty := sub32 lvl.totalQty shares } })

/-- `add_order`. -/
def addOrder (s : Shared) (b : OrderBook) (m : AddOrder) : Option (Shared × OrderBook) :=
  b.placeOrder hash s m.orderRef.toNat m.price.toNat m.shares.toNat m.side

/-- `execute_order`. -/
def executeOrder (s : Shared) (b : OrderBook) (m : OrderExecuted) : Option (Shared × OrderBook) :=
  b.reduceOrder hash s m.orderRef.toNat m.executedShares.toNat

/-- `cancel_order`. -/
def cancelOrder (s : Shared) (b : OrderBook) (m : OrderCancel) : Option (Shared × OrderBook) :=
  b.reduceOrder hash s m.orderRef.toNat m.canceledShares.toNat

/-- `delete_order`. -/
def deleteOrder (s : Shared) (b : OrderBook) (m : OrderDelete) : Option (Shared × OrderBook) := do
  let idx ← s.refs.find hash m.orderRef.toNat
  if idx = kNullIdx then return (s, b)
  else b.removeOrder hash s m.orderRef.toNat idx

/-- `replace_order`. -/
def replaceOrder (s : Shared) (b : OrderBook) (m : OrderReplace) :
    Option (Shared × OrderBook) := do
  let oldIdx ← s.refs.find hash m.originalOrderRef.toNat
  if oldIdx = kNullIdx then return (s, b)
  else
    let o ← s.pool.slots[oldIdx]?
    let side ← b.sideOf o.levelIdx
    let (s, b) ← b.removeOrder hash s m.originalOrderRef.toNat oldIdx
    b.placeOrder hash s m.newOrderRef.toNat m.price.toNat m.shares.toNat side

end Messages

/-! ## Top of book -/

/-- The first level of an overflow map, in the order given, that holds an order. -/
def firstOccupied (b : OrderBook) : List (Nat × Nat) → Option (Option Nat)
  | [] => some none
  | (price, idx) :: entries => do
      let lvl ← b.levels[idx]?
      if lvl.headIdx ≠ kNullIdx then return some price
      else b.firstOccupied entries

/-- `best_bid_ask`: the cached window level of a side against its overflow levels. -/
def bestBidAsk (b : OrderBook) : Option (Option (Nat × Nat)) := do
  let bid ← if b.bestBidIdx ≥ 0 then (b.priceOf b.bestBidIdx.toNat).map some else some none
  let bid ← (b.firstOccupied b.overflowBid.entries.reverse).map fun far =>
    match bid, far with
    | some p, some q => some (if q > p then q else p)
    | none, far => far
    | bid, none => bid
  let ask ← if b.bestAskIdx ≥ 0 then (b.priceOf b.bestAskIdx.toNat).map some else some none
  let ask ← (b.firstOccupied b.overflowAsk.entries).map fun far =>
    match ask, far with
    | some p, some q => some (if q < p then q else p)
    | none, far => far
    | ask, none => ask
  match bid, ask with
  | some bid, some ask => return some (bid, ask)
  | _, _ => return none

end OrderBook

end FeedHandler.V3
