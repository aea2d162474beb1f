import FeedHandler.Book.Orders
import Mathlib.Data.List.Nodup
import Mathlib.Logic.Function.Basic

/-!
# Implementations of a book

A `View` is what can be seen of an implementation of a book: a queue of nodes for each side and
price, the shares in a node and the node of a reference. `Moves` lists the ways in which an
implementation may react to a message. Read `Follows.step` first: an implementation that moves like
this follows the orders. `Follows.same_queues` compares two implementations of the same orders.
-/

namespace FeedHandler.Book

open Itch

universe u w

variable {ν : Type u} [DecidableEq ν]

/-- What can be seen of a book whose orders rest in nodes. -/
structure View (ν : Type u) where
  queue : Bool → Nat → List ν
  shares : ν → Nat
  named : Nat → Option ν

/-- A view shows orders: there is an order of arrival of the nodes and an order for each node, such
that the queues are the arrivals at a side and a price. -/
structure Shows (v : View ν) (xs : List ν) (order : ν → Order) (os : Orders) : Prop where
  nodup : xs.Nodup
  orders_eq : os = xs.map order
  queue_eq : ∀ bid price, v.queue bid price =
    xs.filter fun x => (order x).bid = bid ∧ (order x).price = price
  shares_eq : ∀ x ∈ xs, v.shares x = (order x).shares
  named_iff : ∀ x ∈ xs, ∀ ref, v.named ref = some x ↔ (order x).ref = some ref
  named_mem : ∀ ref x, v.named ref = some x → x ∈ xs

/-- A node joins the end of a queue. -/
structure View.Added (v v' : View ν) (x : ν) (ref : Nat) (bid : Bool) (price shares : Nat) :
    Prop where
  fresh : ∀ bid price, x ∉ v.queue bid price
  queue_eq : ∀ b p, v'.queue b p = if b = bid ∧ p = price then v.queue b p ++ [x] else v.queue b p
  shares_self : v'.shares x = shares
  shares_other : ∀ y, y ≠ x → v'.shares y = v.shares y
  named_self : v'.named ref = some x
  named_other : ∀ r, r ≠ ref → v'.named r = v.named r

/-- The node of a reference leaves its queue. -/
structure View.Removed (v v' : View ν) (ref : Nat) (x : ν) : Prop where
  name : v.named ref = some x
  queue_eq : ∀ b p, v'.queue b p = (v.queue b p).filter (· ≠ x)
  shares_other : ∀ y, y ≠ x → v'.shares y = v.shares y
  named_self : v'.named ref = none
  named_other : ∀ r, r ≠ ref → v'.named r = v.named r

/-- The node of a reference loses shares. -/
structure View.Reduced (v v' : View ν) (ref qty : Nat) (x : ν) : Prop where
  name : v.named ref = some x
  queue_eq : v'.queue = v.queue
  shares_self : v'.shares x = v.shares x - qty
  shares_other : ∀ y, y ≠ x → v'.shares y = v.shares y
  named_eq : v'.named = v.named

/-- Nothing that can be seen changes. -/
structure View.Same (v v' : View ν) : Prop where
  queue_eq : v'.queue = v.queue
  shares_eq : ∀ bid price, ∀ x ∈ v.queue bid price, v'.shares x = v.shares x
  named_eq : v'.named = v.named

/-- How an implementation may react to a message. -/
inductive View.Moves (v v' : View ν) : Message → Prop
  /-- The reference is unknown. -/
  | ignored {m : Message} {ref : Nat} (hm : m.target = some ref) (hname : v.named ref = none)
      (h : v.Same v') : Moves v v' m
  | added {m : AddOrder} {x : ν} (h : v.Added v' x m.orderRef.toNat (isBid m.side) m.price.toNat
      m.shares.toNat) : Moves v v' (.addOrder m)
  | reduced {m : Message} {ref qty : Nat} {x : ν} (hm : m.target = some ref)
      (hqty : m.taken = some qty) (hlt : qty < v.shares x) (h : v.Reduced v' ref qty x) :
      Moves v v' m
  /-- The order is deleted, or all of it is taken. -/
  | removed {m : Message} {ref : Nat} {x : ν} (hm : m.target = some ref)
      (hall : (∃ d, m = .orderDelete d) ∨ ∃ qty, m.taken = some qty ∧ v.shares x ≤ qty)
      (h : v.Removed v' ref x) : Moves v v' m
  | replaced {m : OrderReplace} {x y : ν} {bid : Bool} {price : Nat} {v₁ : View ν}
      (hx : x ∈ v.queue bid price) (h : v.Removed v₁ m.originalOrderRef.toNat x)
      (hadd : v₁.Added v' y m.newOrderRef.toNat bid m.price.toNat m.shares.toNat) :
      Moves v v' (.orderReplace m)

/-- The orders that references stand for. -/
def View.live (v : View ν) : Set Order :=
  {o | ∃ ref x, o.ref = some ref ∧ v.named ref = some x ∧ x ∈ v.queue o.bid o.price ∧
    v.shares x = o.shares}

/-- A view shows the given orders. -/
def View.Follows (v : View ν) (os : Orders) : Prop := ∃ xs order, Shows v xs order os

section Shows

variable {v v' : View ν} {xs : List ν} {order : ν → Order} {os : Orders} {x : ν}
  {ref qty price shares : Nat} {bid : Bool}

omit [DecidableEq ν] in
/-- A node is in the queue of its side and price. -/
theorem Shows.mem_queue_iff (h : Shows v xs order os) {b : Bool} {p : Nat} :
    x ∈ v.queue b p ↔ x ∈ xs ∧ (order x).bid = b ∧ (order x).price = p := by
  rw [h.queue_eq, List.mem_filter, decide_eq_true_iff]

omit [DecidableEq ν] in
/-- The order a reference stands for is that of its node. -/
theorem Shows.named_eq (h : Shows v xs order os) (ref : Nat) :
    os.named ref = (v.named ref).map order := by
  rw [Orders.named, h.orders_eq, List.find?_map]
  congr 1
  cases hfind : xs.find? ((fun o : Order => decide (o.ref = some ref)) ∘ order) with
  | none =>
      cases hname : v.named ref with
      | none => rfl
      | some x =>
          have hx := h.named_mem ref x hname
          have hno := List.find?_eq_none.mp hfind x hx
          simp [(h.named_iff x hx ref).mp hname] at hno
  | some x =>
      have href : (order x).ref = some ref := by simpa using List.find?_some hfind
      exact ((h.named_iff x (List.mem_of_find?_eq_some hfind) ref).mpr href).symm

/-- A new order. -/
theorem Shows.added (h : Shows v xs order os) (hadd : v.Added v' x ref bid price shares) :
    Shows v' (xs ++ [x])
      (Function.update (fun y => (order y).forget ref) x ⟨some ref, bid, price, shares⟩)
      (os.add ref bid price shares) := by
  have hx : x ∉ xs := fun hx => hadd.fresh _ _ (h.mem_queue_iff.mpr ⟨hx, rfl, rfl⟩)
  have hne : ∀ y ∈ xs, y ≠ x := fun y hy heq => hx (heq ▸ hy)
  refine ⟨?_, ?_, fun b p => ?_, fun y hy => ?_, fun y hy r => ?_, fun r y hname => ?_⟩
  · exact List.nodup_append.mpr ⟨h.nodup, List.nodup_singleton x, by simpa using hne⟩
  · rw [Orders.add, Orders.forget, h.orders_eq, List.map_append, List.map_map, List.map_singleton,
      Function.update_self]
    congr 1
    exact List.map_congr_left fun y hy => (Function.update_of_ne (hne y hy) _ _).symm
  · -- The old orders are filtered as before, since `forget` changes no side and no price.
    have hold : ∀ y ∈ xs, decide ((order y).bid = b ∧ (order y).price = p) =
        decide ((Function.update (fun y => (order y).forget ref) x
          ⟨some ref, bid, price, shares⟩ y).bid = b ∧ (Function.update
          (fun y => (order y).forget ref) x ⟨some ref, bid, price, shares⟩ y).price = p) := by
      intro y hy
      simp [Function.update_of_ne (hne y hy)]
    rw [hadd.queue_eq, h.queue_eq, List.filter_append, List.filter_congr hold]
    by_cases hbp : b = bid ∧ p = price
    · obtain ⟨rfl, rfl⟩ := hbp
      simp
    · have hbp' : ¬ (bid = b ∧ price = p) := fun heq => hbp ⟨heq.1.symm, heq.2.symm⟩
      simp only [if_neg hbp, List.filter_singleton, Function.update_self, decide_eq_false hbp',
        cond_false, List.append_nil]
  · rcases List.mem_append.mp hy with hy | hy
    · rw [hadd.shares_other y (hne y hy), Function.update_of_ne (hne y hy), h.shares_eq y hy,
        Order.forget_shares]
    · rw [List.mem_singleton.mp hy, hadd.shares_self, Function.update_self]
  · rcases List.mem_append.mp hy with hy | hy
    · rw [Function.update_of_ne (hne y hy), Order.forget_ref_iff]
      by_cases hr : r = ref
      · subst hr
        rw [hadd.named_self, Option.some.injEq]
        exact iff_of_false (Ne.symm (hne y hy)) fun hboth => hboth.2 rfl
      · rw [hadd.named_other r hr, h.named_iff y hy, and_iff_left hr]
    · rw [List.mem_singleton.mp hy, Function.update_self, Option.some.injEq, eq_comm (a := ref)]
      by_cases hr : r = ref
      · subst hr
        exact iff_of_true hadd.named_self rfl
      · -- The fresh node has no other name, as no old name leads outside `xs`.
        refine iff_of_false (fun hname => hx ?_) hr
        rw [hadd.named_other r hr] at hname
        exact h.named_mem r x hname
  · by_cases hr : r = ref
    · subst hr
      rw [hadd.named_self] at hname
      cases hname
      exact List.mem_append_right xs (List.mem_singleton.mpr rfl)
    · rw [hadd.named_other r hr] at hname
      exact List.mem_append_left _ (h.named_mem r y hname)

/-- An order that leaves. -/
theorem Shows.removed (h : Shows v xs order os) (hremoved : v.Removed v' ref x) :
    Shows v' (xs.filter (· ≠ x)) order (os.remove ref) := by
  have hx := h.named_mem ref x hremoved.name
  have hself : ∀ y ∈ xs, (order y).ref = some ref ↔ y = x := by
    intro y hy
    rw [← h.named_iff y hy, hremoved.name, Option.some.injEq, eq_comm]
  refine ⟨h.nodup.filter _, ?_, fun b p => ?_, fun y hy => ?_, fun y hy r => ?_,
    fun r y hname => ?_⟩
  · rw [Orders.remove, h.orders_eq, List.filter_map]
    congr 1
    refine List.filter_congr fun y hy => ?_
    simp [hself y hy]
  · rw [hremoved.queue_eq, h.queue_eq, List.filter_filter, List.filter_filter]
    exact List.filter_congr fun y _ => Bool.and_comm _ _
  · obtain ⟨hy, hne⟩ := List.mem_filter.mp hy
    rw [hremoved.shares_other y (by simpa using hne), h.shares_eq y hy]
  · obtain ⟨hy, hne⟩ := List.mem_filter.mp hy
    have hne : y ≠ x := by simpa using hne
    by_cases hr : r = ref
    · subst hr
      rw [hremoved.named_self]
      exact iff_of_false (by simp) (mt (hself y hy).mp hne)
    · rw [hremoved.named_other r hr, h.named_iff y hy]
  · have hr : r ≠ ref := by
      intro heq
      subst heq
      rw [hremoved.named_self] at hname
      cases hname
    rw [hremoved.named_other r hr] at hname
    have hy := h.named_mem r y hname
    refine List.mem_filter.mpr ⟨hy, ?_⟩
    rw [decide_eq_true_iff]
    intro heq
    subst heq
    have href := (hself y hy).mpr rfl
    rw [(h.named_iff y hy r).mp hname] at href
    exact hr (Option.some.inj href)

/-- An order that loses shares. -/
theorem Shows.reduced (h : Shows v xs order os) (hreduced : v.Reduced v' ref qty x) :
    Shows v' xs (fun y => (order y).take ref qty) (os.take ref qty) := by
  have hself : ∀ y ∈ xs, (order y).ref = some ref ↔ y = x := by
    intro y hy
    rw [← h.named_iff y hy, hreduced.name, Option.some.injEq, eq_comm]
  refine ⟨h.nodup, ?_, fun b p => ?_, fun y hy => ?_, fun y hy r => ?_, fun r y hname => ?_⟩
  · rw [Orders.take, h.orders_eq, List.map_map]
    rfl
  · simp only [hreduced.queue_eq, h.queue_eq, Order.take_bid, Order.take_price]
  · simp only [Order.take_shares, hself y hy]
    by_cases hyx : y = x
    · subst hyx
      rw [hreduced.shares_self, if_pos rfl, h.shares_eq y hy]
    · rw [hreduced.shares_other y hyx, if_neg hyx, h.shares_eq y hy]
  · simp only [hreduced.named_eq, Order.take_ref, h.named_iff y hy]
  · rw [hreduced.named_eq] at hname
    exact h.named_mem r y hname

omit [DecidableEq ν] in
/-- Only what can be seen matters. -/
theorem Shows.congr (h : Shows v xs order os) (hsame : v.Same v') : Shows v' xs order os where
  nodup := h.nodup
  orders_eq := h.orders_eq
  queue_eq := hsame.queue_eq ▸ h.queue_eq
  shares_eq y hy := by
    rw [hsame.shares_eq _ _ y (h.mem_queue_iff.mpr ⟨hy, rfl, rfl⟩), h.shares_eq y hy]
  named_iff := hsame.named_eq ▸ h.named_iff
  named_mem := hsame.named_eq ▸ h.named_mem

end Shows

section Follows

variable {v v' : View ν} {os : Orders} {m : Message}

omit [DecidableEq ν] in
/-- Without orders nothing can be seen. -/
theorem View.follows_nil (hqueue : ∀ bid price, v.queue bid price = [])
    (hnamed : ∀ ref, v.named ref = none) : v.Follows [] := by
  refine ⟨[], fun _ => ⟨none, false, 0, 0⟩, List.nodup_nil, rfl, hqueue, ?_, ?_, fun ref x hx => ?_⟩
  · exact fun x hx => nomatch hx
  · exact fun x hx => nomatch hx
  · rw [hnamed] at hx
    cases hx

omit [DecidableEq ν] in
theorem View.Follows.congr (h : v.Follows os) (hsame : v.Same v') : v'.Follows os := by
  obtain ⟨xs, order, h⟩ := h
  exact ⟨xs, order, h.congr hsame⟩

/-- A message that names an unknown reference changes no order. -/
theorem apply_of_named_eq_none {ref : Nat} (hm : m.target = some ref) (h : os.named ref = none) :
    os.apply m = os := by
  cases m <;> cases hm
  · simp only [Orders.apply, Orders.reduce, h]
  · simp only [Orders.apply, Orders.reduce, h]
  · exact Orders.remove_of_named_eq_none h
  · simp only [Orders.apply, Orders.replace, h]

/-- The effect of an execution or a cancellation. -/
theorem apply_of_taken {ref qty : Nat} (hm : m.target = some ref) (hqty : m.taken = some qty) :
    os.apply m = os.reduce ref qty := by
  cases m <;> cases hm <;> cases hqty <;> rfl

/-- An implementation that moves follows the orders. -/
theorem View.Follows.step (h : v.Follows os) (hmoves : v.Moves v' m) : v'.Follows (os.apply m) := by
  obtain ⟨xs, order, h⟩ := h
  cases hmoves with
  | @ignored _ ref hm hname hsame =>
      have hnone := h.named_eq ref
      rw [hname] at hnone
      rw [apply_of_named_eq_none hm hnone]
      exact ⟨xs, order, h.congr hsame⟩
  | added hadd => exact ⟨_, _, h.added hadd⟩
  | @reduced _ ref qty x hm hqty hlt hreduced =>
      have hname := h.named_eq ref
      have hx := h.named_mem _ _ hreduced.name
      rw [hreduced.name] at hname
      rw [h.shares_eq _ hx] at hlt
      rw [apply_of_taken hm hqty, Orders.reduce, hname]
      simp only [Option.map_some, if_neg (Nat.not_le.mpr hlt)]
      exact ⟨_, _, h.reduced hreduced⟩
  | @removed _ ref x hm hall hremoved =>
      have happly : os.apply m = os.remove ref := by
        rcases hall with ⟨d, rfl⟩ | ⟨qty, hqty, hle⟩
        · cases hm
          rfl
        · have hname := h.named_eq ref
          have hx := h.named_mem _ _ hremoved.name
          rw [hremoved.name] at hname
          rw [h.shares_eq _ hx] at hle
          rw [apply_of_taken hm hqty, Orders.reduce, hname]
          simp only [Option.map_some, if_pos hle]
      rw [happly]
      exact ⟨_, _, h.removed hremoved⟩
  | @replaced m _ _ bid _ _ hx hremoved hadd =>
      have hname := h.named_eq m.originalOrderRef.toNat
      rw [hremoved.name] at hname
      have hbid := (h.mem_queue_iff.mp hx).2.1
      simp only [Orders.apply, Orders.replace, hname, Option.map_some, hbid]
      exact ⟨_, _, (h.removed hremoved).added hadd⟩

end Follows

/-! ## Two implementations of the same orders -/

section Same

variable {μ : Type w} {v : View ν} {v' : View μ} {os : Orders}

omit [DecidableEq ν] in
/-- The shares along a queue. -/
theorem View.Follows.queue_shares (h : v.Follows os) (bid : Bool) (price : Nat) :
    (v.queue bid price).map v.shares = (os.level bid price).map Order.shares := by
  obtain ⟨xs, order, h⟩ := h
  rw [h.queue_eq, Orders.level, h.orders_eq, List.filter_map, List.map_map]
  exact List.map_congr_left fun x hx => h.shares_eq x (List.mem_of_mem_filter hx)

omit [DecidableEq ν] in
/-- The place of a reference. -/
theorem View.Follows.place_iff (h : v.Follows os) (ref : Nat) (bid : Bool) (price n : Nat) :
    (∃ x, v.named ref = some x ∧ (v.queue bid price)[n]? = some x) ↔
      ∃ o, o.ref = some ref ∧ (os.level bid price)[n]? = some o := by
  obtain ⟨xs, order, h⟩ := h
  have hlevel : os.level bid price = (v.queue bid price).map order := by
    rw [h.queue_eq, Orders.level, h.orders_eq, List.filter_map]
    rfl
  rw [hlevel, List.getElem?_map]
  cases hx : (v.queue bid price)[n]? with
  | none => simp
  | some x =>
      have hmem := (h.mem_queue_iff.mp (List.mem_of_getElem? hx)).1
      simp [h.named_iff x hmem ref]

omit [DecidableEq ν] in
/-- The references that stand for an order. -/
theorem View.Follows.named_is_some (h : v.Follows os) (ref : Nat) :
    (v.named ref).isSome = (os.named ref).isSome := by
  obtain ⟨xs, order, h⟩ := h
  rw [h.named_eq, Option.isSome_map]

omit [DecidableEq ν] in
/-- The shares of the order a reference stands for. -/
theorem View.Follows.named_shares (h : v.Follows os) (ref : Nat) :
    (os.named ref).map Order.shares = (v.named ref).map v.shares := by
  obtain ⟨xs, order, h⟩ := h
  rw [h.named_eq]
  cases hname : v.named ref with
  | none => rfl
  | some x => rw [Option.map_some, Option.map_some, Option.map_some,
      h.shares_eq x (h.named_mem ref x hname)]

omit [DecidableEq ν] in
/-- The orders that references stand for are those shown. -/
theorem View.Follows.mem_live_iff (h : v.Follows os) {o : Order} :
    o ∈ v.live ↔ o ∈ os ∧ ∃ ref, o.ref = some ref := by
  obtain ⟨xs, order, h⟩ := h
  rw [h.orders_eq, List.mem_map]
  constructor
  · intro hgiven
    obtain ⟨ref, x, href, hname, hqueue, hshares⟩ := hgiven
    have hx := h.named_mem ref x hname
    obtain ⟨_, hbid, hprice⟩ := h.mem_queue_iff.mp hqueue
    have href' := (h.named_iff x hx ref).mp hname
    rw [h.shares_eq x hx] at hshares
    exact ⟨⟨x, hx, Order.ext (href'.trans href.symm) hbid hprice hshares⟩, ref, href⟩
  · intro hgiven
    obtain ⟨⟨x, hx, rfl⟩, ref, href⟩ := hgiven
    exact ⟨ref, x, href, (h.named_iff x hx ref).mpr href, h.mem_queue_iff.mpr ⟨hx, rfl, rfl⟩,
      h.shares_eq x hx⟩

omit [DecidableEq ν] in
/-- Orders rest at a side and a price if the queue is not empty. -/
theorem View.Follows.queue_ne_nil_iff (h : v.Follows os) (bid : Bool) (price : Nat) :
    v.queue bid price ≠ [] ↔ ∃ o ∈ os, o.bid = bid ∧ o.price = price := by
  obtain ⟨xs, order, h⟩ := h
  have hne : v.queue bid price ≠ [] ↔ ∃ x, x ∈ v.queue bid price :=
    ⟨List.exists_mem_of_ne_nil _, fun ⟨_, hx⟩ => List.ne_nil_of_mem hx⟩
  rw [hne, h.orders_eq]
  simp [h.mem_queue_iff]

omit [DecidableEq ν] in
/-- Two implementations of the same orders have the same shares along each queue, know the same
references and place them alike. -/
theorem View.Follows.same_queues (h : v.Follows os) (h' : v'.Follows os) :
    (∀ bid price, (v.queue bid price).map v.shares = (v'.queue bid price).map v'.shares) ∧
    (∀ ref, (v.named ref).isSome = (v'.named ref).isSome) ∧
    ∀ ref bid price (n : Nat),
      (∃ x, v.named ref = some x ∧ (v.queue bid price)[n]? = some x) ↔
      ∃ y, v'.named ref = some y ∧ (v'.queue bid price)[n]? = some y :=
  ⟨fun bid price => (h.queue_shares bid price).trans (h'.queue_shares bid price).symm,
    fun ref => (h.named_is_some ref).trans (h'.named_is_some ref).symm,
    fun ref bid price n => (h.place_iff ref bid price n).trans (h'.place_iff ref bid price n).symm⟩

end Same

end FeedHandler.Book
