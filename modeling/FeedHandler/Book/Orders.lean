import FeedHandler.Common.ItchMessages
import Mathlib.Data.List.Basic

/-!
# What an order book is

The orders of one symbol in order of arrival, and what the five messages do to them. This is the
purpose of a book, without price levels, indices or tables. Read `Orders.apply` first.
-/

namespace FeedHandler.Book

open Itch

/-- A resting order. It has no reference once a later order has taken its reference. -/
@[ext]
structure Order where
  ref : Option Nat
  bid : Bool
  price : Nat
  shares : Nat
  deriving DecidableEq, Repr

namespace Order

/-- The order without its reference, if it is the given one. -/
def forget (ref : Nat) (o : Order) : Order := if o.ref = some ref then { o with ref := none } else o

/-- The order with fewer shares, if its reference is the given one. -/
def take (ref qty : Nat) (o : Order) : Order :=
  if o.ref = some ref then { o with shares := o.shares - qty } else o

section Fields

variable (ref qty : Nat) (o : Order)

@[simp] theorem forget_bid : (o.forget ref).bid = o.bid := by unfold forget; split <;> rfl

@[simp] theorem forget_price : (o.forget ref).price = o.price := by unfold forget; split <;> rfl

@[simp] theorem forget_shares : (o.forget ref).shares = o.shares := by unfold forget; split <;> rfl

theorem forget_ref_iff (r : Nat) : (o.forget ref).ref = some r ↔ o.ref = some r ∧ r ≠ ref := by
  unfold forget
  split
  next h => simp [h, eq_comm]
  next h =>
    refine ⟨fun hr => ⟨hr, ?_⟩, And.left⟩
    intro heq
    subst heq
    exact h hr

@[simp] theorem take_bid : (o.take ref qty).bid = o.bid := by unfold take; split <;> rfl

@[simp] theorem take_price : (o.take ref qty).price = o.price := by unfold take; split <;> rfl

@[simp] theorem take_ref : (o.take ref qty).ref = o.ref := by unfold take; split <;> rfl

theorem take_shares :
    (o.take ref qty).shares = if o.ref = some ref then o.shares - qty else o.shares := by
  unfold take
  split <;> rfl

end Fields

end Order

/-- The resting orders of a book in order of arrival. -/
abbrev Orders := List Order

namespace Orders

/-- The order a reference stands for. -/
def named (os : Orders) (ref : Nat) : Option Order := os.find? fun o => o.ref = some ref

/-- The orders of a side and a price. -/
def level (os : Orders) (bid : Bool) (price : Nat) : Orders :=
  os.filter fun o => o.bid = bid ∧ o.price = price

/-- A reference is given up. -/
def forget (os : Orders) (ref : Nat) : Orders := os.map (Order.forget ref)

/-- A new order arrives. -/
def add (os : Orders) (ref : Nat) (bid : Bool) (price shares : Nat) : Orders :=
  os.forget ref ++ [⟨some ref, bid, price, shares⟩]

/-- An order leaves. -/
def remove (os : Orders) (ref : Nat) : Orders := os.filter fun o => o.ref ≠ some ref

/-- An order loses shares. -/
def take (os : Orders) (ref qty : Nat) : Orders := os.map (Order.take ref qty)

/-- An execution or a cancellation; the order leaves with its last share. -/
def reduce (os : Orders) (ref qty : Nat) : Orders :=
  match os.named ref with
  | none => os
  | some o => if o.shares ≤ qty then os.remove ref else os.take ref qty

/-- A replacement: a new order on the side of the original one. -/
def replace (os : Orders) (ref newRef price shares : Nat) : Orders :=
  match os.named ref with
  | none => os
  | some o => (os.remove ref).add newRef o.bid price shares

/-- The effect of a message. -/
def apply (os : Orders) : Message → Orders
  | .addOrder m => os.add m.orderRef.toNat (isBid m.side) m.price.toNat m.shares.toNat
  | .orderExecuted m => os.reduce m.orderRef.toNat m.executedShares.toNat
  | .orderCancel m => os.reduce m.orderRef.toNat m.canceledShares.toNat
  | .orderDelete m => os.remove m.orderRef.toNat
  | .orderReplace m =>
      os.replace m.originalOrderRef.toNat m.newOrderRef.toNat m.price.toNat m.shares.toNat

/-- An execution or a cancellation takes no more than remains. -/
def Within (os : Orders) (m : Message) : Prop :=
  ∀ ref qty o, m.target = some ref → m.taken = some qty → os.named ref = some o → qty ≤ o.shares

/-- Nothing leaves if the reference stands for no order. -/
theorem remove_of_named_eq_none {os : Orders} {ref : Nat} (h : os.named ref = none) :
    os.remove ref = os := by
  refine List.filter_eq_self.mpr fun o ho => ?_
  simpa using List.find?_eq_none.mp h o ho

end Orders

end FeedHandler.Book
