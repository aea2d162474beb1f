import FeedHandler.Common.ItchMessages
import FeedHandler.Foundations.OrderedMap

/-!
# The v1 order book

`include/v1/order_book.hpp` and `src/v1/order_book.cpp`, and the dispatch of the v1 and v2
receivers. The nodes of the lists are numbered as they are allocated, and an iterator is the number
of its node. A use of an iterator that points to no node is `none`.
-/

namespace FeedHandler.V1

open Itch

/-- `RestingOrder`. -/
structure RestingOrder where
  ref : UInt64
  side : UInt8
  price : UInt32
  shares : UInt32
  deriving DecidableEq

/-- `OrderLocator`. -/
structure OrderLocator where
  side : UInt8
  price : UInt32
  it : Nat
  deriving DecidableEq

/-- The fields of `OrderBook`, the contents of its list nodes and the number of the next node. -/
structure OrderBook where
  bids : OrderedMap Nat (List Nat)
  asks : OrderedMap Nat (List Nat)
  refIndex : OrderedMap Nat OrderLocator
  nodes : OrderedMap Nat RestingOrder
  nextNode : Nat

namespace OrderBook

/-- The default constructor. -/
def new : OrderBook := ⟨∅, ∅, ∅, ∅, 0⟩

/-- `bids_` or `asks_`. -/
def levels (b : OrderBook) (bid : Bool) : OrderedMap Nat (List Nat) :=
  if bid then b.bids else b.asks

/-- Writing `bids_` or `asks_`. -/
def setLevels (b : OrderBook) (bid : Bool) (levels : OrderedMap Nat (List Nat)) : OrderBook :=
  if bid then { b with bids := levels } else { b with asks := levels }

/-- `remove_locator`. -/
def removeLocator (b : OrderBook) (loc : OrderLocator) : Option OrderBook := do
  let levels := b.levels (isBid loc.side)
  let level ← levels.find? loc.price.toNat
  if loc.it ∈ level then
    let b := { b with nodes := b.nodes.erase loc.it }
    if (level.erase loc.it).isEmpty then
      return b.setLevels (isBid loc.side) (levels.erase loc.price.toNat)
    else
      return b.setLevels (isBid loc.side) (levels.assign loc.price.toNat (level.erase loc.it))
  else none

/-- `remove_locator(loc); ref_index_.erase(idx_it)`. -/
def removeOrder (b : OrderBook) (orderRef : UInt64) (loc : OrderLocator) : Option OrderBook := do
  let b ← b.removeLocator loc
  return { b with refIndex := b.refIndex.erase orderRef.toNat }

/-- `push_back` on the level of the order, which `operator[]` creates, and the new locator. -/
def pushOrder (b : OrderBook) (o : RestingOrder) : OrderBook :=
  let levels := b.levels (isBid o.side)
  let level := (levels.find? o.price.toNat).getD []
  let it := b.nextNode
  let b := b.setLevels (isBid o.side) (levels.assign o.price.toNat (level ++ [it]))
  { b with
    nodes := b.nodes.assign it o
    nextNode := it + 1
    refIndex := b.refIndex.assign o.ref.toNat ⟨o.side, o.price, it⟩ }

/-- `add_order`. -/
def addOrder (b : OrderBook) (m : AddOrder) : OrderBook :=
  b.pushOrder ⟨m.orderRef, m.side, m.price, m.shares⟩

/-- The common body of `execute_order` and `cancel_order`. -/
def reduceOrder (b : OrderBook) (orderRef : UInt64) (shares : UInt32) : Option OrderBook :=
  match b.refIndex.find? orderRef.toNat with
  | none => some b
  | some loc => do
      let o ← b.nodes.find? loc.it
      let o := { o with shares := o.shares - shares }
      let b := { b with nodes := b.nodes.assign loc.it o }
      if o.shares = 0 then b.removeOrder orderRef loc else return b

/-- `execute_order`. -/
def executeOrder (b : OrderBook) (m : OrderExecuted) : Option OrderBook :=
  b.reduceOrder m.orderRef m.executedShares

/-- `cancel_order`. -/
def cancelOrder (b : OrderBook) (m : OrderCancel) : Option OrderBook :=
  b.reduceOrder m.orderRef m.canceledShares

/-- `delete_order`. -/
def deleteOrder (b : OrderBook) (m : OrderDelete) : Option OrderBook :=
  match b.refIndex.find? m.orderRef.toNat with
  | none => some b
  | some loc => b.removeOrder m.orderRef loc

/-- `replace_order`. -/
def replaceOrder (b : OrderBook) (m : OrderReplace) : Option OrderBook :=
  match b.refIndex.find? m.originalOrderRef.toNat with
  | none => some b
  | some loc => do
      let b ← b.removeOrder m.originalOrderRef loc
      return b.pushOrder ⟨m.newOrderRef, loc.side, m.price, m.shares⟩

/-- `best_bid_ask`. -/
def bestBidAsk (b : OrderBook) : Option (Nat × Nat) :=
  match b.bids.last?, b.asks.first? with
  | some bid, some ask => some (bid.1, ask.1)
  | _, _ => none

/-- The handler of a message. -/
def apply (b : OrderBook) : Message → Option OrderBook
  | .addOrder m => some (b.addOrder m)
  | .orderExecuted m => b.executeOrder m
  | .orderCancel m => b.cancelOrder m
  | .orderDelete m => b.deleteOrder m
  | .orderReplace m => b.replaceOrder m

end OrderBook

/-- `books`, by stock locate. -/
abbrev Store := OrderedMap Nat OrderBook

namespace Store

/-- `books[locate]`. -/
def bookOf (s : Store) (locate : Nat) : OrderBook := (s.find? locate).getD .new

/-- One message. -/
def step (s : Store) (m : Message) : Option Store := do
  let b ← (s.bookOf m.stockLocate).apply m
  return s.assign m.stockLocate b

theorem book_of_assign (s : Store) (locate : Nat) (b : OrderBook) :
    bookOf (s.assign locate b) = Function.update s.bookOf locate b := by
  funext l
  by_cases hl : l = locate
  · simp [bookOf, hl]
  · simp [bookOf, hl, OrderedMap.find_assign]

end Store

end FeedHandler.V1
