import FeedHandler.Book.Orders
import FeedHandler.Foundations.Runs
import Mathlib.Data.List.Nodup

/-!
# The reference book

The book as a list of resting orders in order of arrival, each with the reference that names it: an
addition appends, an execution or a cancellation subtracts and removes at zero, a deletion removes,
a replacement does both. `Admits` says which messages it is asked about. `orders_apply` says that on
these it does what the general `Orders.apply` does.
-/

namespace FeedHandler.Book

open Itch Runs

/-- A resting order of the reference book. -/
@[ext]
structure Entry where
  ref : Nat
  bid : Bool
  price : Nat
  shares : Nat
  deriving DecidableEq, Repr

/-- The entry as an order whose reference nobody took. -/
def Entry.order (e : Entry) : Order := ⟨some e.ref, e.bid, e.price, e.shares⟩

/-- The resting orders in order of arrival. -/
abbrev Reference := List Entry

namespace Reference

/-- The orders of a side and a price. -/
def level (os : Reference) (bid : Bool) (price : Nat) : Reference :=
  os.filter fun e => e.bid = bid ∧ e.price = price

/-- An order leaves. -/
def remove (os : Reference) (ref : Nat) : Reference := os.filter fun e => e.ref ≠ ref

/-- An order loses shares. -/
def subtract (os : Reference) (ref qty : Nat) : Reference :=
  os.map fun e => if e.ref = ref then { e with shares := e.shares - qty } else e

/-- An execution or a cancellation: the shares are subtracted, and at zero the order leaves. -/
def reduce (os : Reference) (ref qty : Nat) : Reference :=
  (os.subtract ref qty).filter fun e => ¬ (e.ref = ref ∧ e.shares = 0)

/-- A replacement: the original order leaves, and one on its side arrives. -/
def replace (os : Reference) (ref newRef price shares : Nat) : Reference :=
  match os.find? fun e => e.ref = ref with
  | none => os
  | some e => os.remove ref ++ [⟨newRef, e.bid, price, shares⟩]

/-- The effect of a message. -/
def apply (os : Reference) : Message → Reference
  | .addOrder m =>
      os ++ [⟨m.orderRef.toNat, isBid m.side, m.price.toNat, m.shares.toNat⟩]
  | .orderExecuted m => os.reduce m.orderRef.toNat m.executedShares.toNat
  | .orderCancel m => os.reduce m.orderRef.toNat m.canceledShares.toNat
  | .orderDelete m => os.remove m.orderRef.toNat
  | .orderReplace m =>
      os.replace m.originalOrderRef.toNat m.newOrderRef.toNat m.price.toNat m.shares.toNat

/-- The book after some messages. -/
def after (msgs : List Message) : Reference := msgs.foldl apply []

/-- A message introduces no reference that is live, unless it replaces the order of the reference,
and takes no more shares than remain. -/
structure Admits (os : Reference) (m : Message) : Prop where
  fresh : ∀ e ∈ os, m.introduced = some e.ref → m.target = some e.ref
  within : ∀ e ∈ os, ∀ qty, m.target = some e.ref → m.taken = some qty → qty ≤ e.shares

/-- Every message is admitted after those before it. -/
def ValidSequence (msgs : List Message) : Prop :=
  ∀ before m rest, msgs = before ++ m :: rest → (after before).Admits m

/-- The orders without regard to who names them. -/
def orders (os : Reference) : Orders := os.map Entry.order

/-- References are given once. -/
def Unique (os : Reference) : Prop := (os.map Entry.ref).Nodup

theorem after_concat (msgs : List Message) (m : Message) :
    after (msgs ++ [m]) = (after msgs).apply m := List.foldl_append

instance (os : Reference) (m : Message) : Decidable (os.Admits m) :=
  decidable_of_iff ((∀ e ∈ os, m.introduced = some e.ref → m.target = some e.ref) ∧
      ∀ e ∈ os, m.target = some e.ref → ∀ qty ∈ m.taken, qty ≤ e.shares)
    ⟨fun h => ⟨h.1, fun e he qty hm hqty => h.2 e he hm qty hqty⟩,
      fun h => ⟨h.fresh, fun e he hm qty hqty => h.within e he qty hm hqty⟩⟩

/-- One message as a step. -/
def step (os : Reference) (m : Message) : Option Reference := some (os.apply m)

/-- A sequence is valid if its messages are admitted one after the other. -/
theorem valid_of_along {msgs : List Message} (h : Along step Admits [] msgs) :
    ValidSequence msgs := by
  have hrun : ∀ (before : List Message) (os : Reference),
      run step os before = some (before.foldl apply os) := fun before => by
    induction before with
    | nil => exact fun os => rfl
    | cons m before ih => exact fun os => ih (os.apply m)
  intro before m rest heq
  subst heq
  exact ((along_append.mp h).2 _ (hrun before [])).1

section Operations

variable {os : Reference} {e : Entry} {ref qty : Nat}

theorem Unique.eq_of_ref (h : os.Unique) {e' : Entry} (he : e ∈ os) (he' : e' ∈ os)
    (href : e.ref = e'.ref) : e = e' := List.inj_on_of_nodup_map h he he' href

theorem find_eq_none_iff : (os.find? fun e => e.ref = ref) = none ↔ ∀ e ∈ os, e.ref ≠ ref := by
  simp

theorem mem_of_find (h : (os.find? fun e => e.ref = ref) = some e) : e ∈ os ∧ e.ref = ref :=
  ⟨List.mem_of_find?_eq_some h, by simpa using List.find?_some h⟩

/-! The general operations on the orders. -/

theorem named_orders (ref : Nat) :
    os.orders.named ref = (os.find? fun e => e.ref = ref).map Entry.order := by
  rw [Orders.named, orders, List.find?_map]
  congr 2
  funext e
  simp [Entry.order]

theorem orders_append (os' : Reference) : orders (os ++ os') = os.orders ++ os'.orders :=
  List.map_append

theorem forget_orders (h : ∀ e ∈ os, e.ref ≠ ref) : os.orders.forget ref = os.orders := by
  rw [Orders.forget, orders, List.map_map]
  refine List.map_congr_left fun e he => ?_
  simp [Order.forget, Entry.order, h e he]

theorem add_orders {bid : Bool} {price shares : Nat} (h : ∀ e ∈ os, e.ref ≠ ref) :
    orders (os ++ [⟨ref, bid, price, shares⟩]) = os.orders.add ref bid price shares := by
  rw [orders_append, Orders.add, forget_orders h]
  rfl

theorem remove_orders (ref : Nat) : (os.remove ref).orders = os.orders.remove ref := by
  rw [Orders.remove, orders, remove, orders, List.filter_map]
  congr 1
  exact List.filter_congr fun e _ => by simp [Entry.order]

theorem subtract_orders (ref qty : Nat) :
    (os.subtract ref qty).orders = os.orders.take ref qty := by
  rw [Orders.take, orders, orders, subtract, List.map_map, List.map_map]
  refine List.map_congr_left fun e _ => ?_
  by_cases he : e.ref = ref <;> simp [Entry.order, Order.take, he]

/-! An execution or a cancellation within the remaining shares. -/

theorem reduce_of_not_live (h : ∀ e ∈ os, e.ref ≠ ref) (qty : Nat) : os.reduce ref qty = os := by
  have hsubtract : os.subtract ref qty = os := by
    refine (List.map_congr_left fun e he => ?_).trans (List.map_id os)
    rw [if_neg (h e he), id]
  rw [reduce, hsubtract]
  exact List.filter_eq_self.mpr fun e he => by simp [h e he]

theorem reduce_all (hos : os.Unique) (he : e ∈ os) (href : e.ref = ref) (hqty : e.shares ≤ qty) :
    os.reduce ref qty = os.remove ref := by
  rw [reduce, subtract, List.filter_map, remove]
  have hfilter : ∀ e' ∈ os, ((fun e : Entry => decide ¬ (e.ref = ref ∧ e.shares = 0)) ∘ fun e =>
      if e.ref = ref then { e with shares := e.shares - qty } else e) e' =
      decide (e'.ref ≠ ref) := by
    intro e' he'
    by_cases hr : e'.ref = ref
    · -- only the named order has the reference
      obtain rfl := hos.eq_of_ref he he' (href.trans hr.symm)
      simp [hr, Nat.sub_eq_zero_of_le hqty]
    · simp [hr]
  rw [List.filter_congr hfilter]
  refine (List.map_congr_left fun e' he' => ?_).trans (List.map_id _)
  rw [if_neg (by simpa using (List.mem_filter.mp he').2), id]

theorem reduce_part (hos : os.Unique) (he : e ∈ os) (href : e.ref = ref) (hqty : qty < e.shares) :
    os.reduce ref qty = os.subtract ref qty := by
  refine List.filter_eq_self.mpr fun e' he' => ?_
  obtain ⟨e₀, he₀, rfl⟩ := List.mem_map.mp he'
  by_cases hr : e₀.ref = ref
  · obtain rfl := hos.eq_of_ref he he₀ (href.trans hr.symm)
    simp [hr]
    omega
  · simp [hr]

theorem reduce_orders (hos : os.Unique) (qty : Nat) :
    (os.reduce ref qty).orders = os.orders.reduce ref qty := by
  rw [Orders.reduce, named_orders]
  cases hfind : os.find? fun e => e.ref = ref with
  | none => rw [reduce_of_not_live (find_eq_none_iff.mp hfind)]; rfl
  | some e =>
      obtain ⟨he, href⟩ := mem_of_find hfind
      simp only [Option.map_some]
      split
      next hle => rw [reduce_all hos he href hle, remove_orders]
      next hlt => rw [reduce_part hos he href (Nat.lt_of_not_le hlt), subtract_orders]

variable {m : Message}

/-- On admitted messages the reference book does what messages do to orders. -/
theorem orders_apply (hos : os.Unique) (h : os.Admits m) :
    (os.apply m).orders = os.orders.apply m := by
  cases m with
  | addOrder m =>
      refine add_orders fun e he href => ?_
      have htarget := h.fresh e he (congrArg some href.symm)
      cases htarget
  | orderExecuted m => exact reduce_orders hos _
  | orderCancel m => exact reduce_orders hos _
  | orderDelete m => exact remove_orders _
  | orderReplace m =>
      simp only [apply, replace, Orders.apply, Orders.replace, named_orders]
      cases hfind : os.find? fun e => e.ref = m.originalOrderRef.toNat with
      | none => rfl
      | some e =>
          simp only [Option.map_some]
          rw [← remove_orders]
          refine add_orders fun e' he' href => ?_
          -- a live new reference is the original one, which has just left
          obtain ⟨he', hne⟩ := List.mem_filter.mp he'
          have htarget := h.fresh e' he' (congrArg some href.symm)
          simp [(Option.some.inj htarget).symm] at hne

/-- References stay unique. -/
theorem Unique.apply (hos : os.Unique) (h : os.Admits m) : (os.apply m).Unique := by
  have hremove : ∀ ref, (os.remove ref).Unique := fun ref =>
    hos.sublist (List.filter_sublist.map Entry.ref)
  have hreduce : ∀ ref qty, (os.reduce ref qty).Unique := fun ref qty => by
    have hrefs : (os.subtract ref qty).map Entry.ref = os.map Entry.ref := by
      rw [subtract, List.map_map]
      refine List.map_congr_left fun e _ => ?_
      simp only [Function.comp_apply]
      split <;> rfl
    have hsubtract : (os.subtract ref qty).Unique := by rwa [Unique, hrefs]
    exact hsubtract.sublist (List.filter_sublist.map Entry.ref)
  have happend : ∀ (os : Reference) (e : Entry), os.Unique → (∀ e' ∈ os, e'.ref ≠ e.ref) →
      Unique (os ++ [e]) := fun os e hos hne => by
    rw [Unique, List.map_append]
    refine List.nodup_append.mpr ⟨hos, List.nodup_singleton _, ?_⟩
    simpa using hne
  cases m with
  | addOrder m =>
      refine happend os _ hos fun e he href => ?_
      have htarget := h.fresh e he (congrArg some href.symm)
      cases htarget
  | orderExecuted m => exact hreduce _ _
  | orderCancel m => exact hreduce _ _
  | orderDelete m => exact hremove _
  | orderReplace m =>
      simp only [Reference.apply, replace]
      split
      next => exact hos
      next =>
        refine happend _ _ (hremove _) fun e he href => ?_
        obtain ⟨he, hne⟩ := List.mem_filter.mp he
        have htarget := h.fresh e he (congrArg some href.symm)
        simp [(Option.some.inj htarget).symm] at hne

/-- Admitted messages take no more than remains. -/
theorem Admits.orders_within (h : os.Admits m) : os.orders.Within m := by
  intro ref qty o hm hqty hname
  rw [named_orders, Option.map_eq_some_iff] at hname
  obtain ⟨e, hfind, rfl⟩ := hname
  obtain ⟨he, rfl⟩ := mem_of_find hfind
  exact h.within e he qty hm hqty

end Operations

end Reference

end FeedHandler.Book
