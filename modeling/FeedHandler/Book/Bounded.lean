import FeedHandler.Book.View

/-!
# A book with bounded resources

What an order book with a bounded number of orders and of references makes of a message. A book
that is `full` does not take a new order, and one whose names are `taken` takes it without its
reference. `View.Follows.joined` adds such an order to what an implementation shows.
-/

namespace FeedHandler.Book

open Itch

universe u

/-- The effect of a message with bounded resources. -/
def Orders.applyIn (os : Orders) (full taken : Bool) : Message → Orders
  | .addOrder m =>
      if full then os
      else if taken then os ++ [⟨none, isBid m.side, m.price.toNat, m.shares.toNat⟩]
      else os.apply (.addOrder m)
  | m => os.apply m

/-- A node joins the end of a queue without a name. -/
structure View.Joined {ν : Type u} (v v' : View ν) (x : ν) (bid : Bool) (price shares : Nat) :
    Prop where
  fresh : ∀ bid price, x ∉ v.queue bid price
  queue_eq : ∀ b p, v'.queue b p = if b = bid ∧ p = price then v.queue b p ++ [x] else v.queue b p
  shares_self : v'.shares x = shares
  shares_other : ∀ y, y ≠ x → v'.shares y = v.shares y
  named_eq : v'.named = v.named

section Joined

variable {ν : Type u} [DecidableEq ν] {v v' : View ν} {xs : List ν} {order : ν → Order}
  {os : Orders} {x : ν} {bid : Bool} {price shares : Nat}

/-- A new order without a reference. -/
theorem Shows.joined (h : Shows v xs order os) (hjoin : v.Joined v' x bid price shares) :
    Shows v' (xs ++ [x]) (Function.update order x ⟨none, bid, price, shares⟩)
      (os ++ [⟨none, bid, price, shares⟩]) := by
  have hx : x ∉ xs := fun hx => hjoin.fresh _ _ (h.mem_queue_iff.mpr ⟨hx, rfl, rfl⟩)
  have hkept : ∀ y ∈ xs, Function.update order x ⟨none, bid, price, shares⟩ y = order y :=
    fun y hy => Function.update_of_ne (ne_of_mem_of_not_mem hy hx) _ _
  refine ⟨?_, ?_, fun b p => ?_, fun y hy => ?_, fun y hy r => ?_, fun r y hname => ?_⟩
  · refine List.nodup_append.mpr ⟨h.nodup, List.nodup_singleton x, fun y hy z hz heq => hx ?_⟩
    rwa [← List.mem_singleton.mp hz, ← heq]
  · rw [h.orders_eq, List.map_append, List.map_singleton, Function.update_self,
      List.map_congr_left hkept]
  · have hold : xs.filter (fun y => (Function.update order x ⟨none, bid, price, shares⟩ y).bid = b ∧
        (Function.update order x ⟨none, bid, price, shares⟩ y).price = p) =
        xs.filter fun y => (order y).bid = b ∧ (order y).price = p :=
      List.filter_congr fun y hy => by rw [hkept y hy]
    rw [hjoin.queue_eq, h.queue_eq, List.filter_append, hold]
    by_cases hbp : b = bid ∧ p = price
    · obtain ⟨rfl, rfl⟩ := hbp
      simp
    · have hbp' : ¬ (bid = b ∧ price = p) := fun heq => hbp ⟨heq.1.symm, heq.2.symm⟩
      simp [hbp, hbp']
  · rcases List.mem_append.mp hy with hy | hy
    · rw [hjoin.shares_other y (ne_of_mem_of_not_mem hy hx), hkept y hy, h.shares_eq y hy]
    · rw [List.mem_singleton.mp hy, hjoin.shares_self, Function.update_self]
  · rw [hjoin.named_eq]
    rcases List.mem_append.mp hy with hy | hy
    · rw [hkept y hy, h.named_iff y hy]
    · -- no reference leads to the fresh node
      obtain rfl := List.mem_singleton.mp hy
      rw [Function.update_self]
      exact iff_of_false (fun hname => hx (h.named_mem r y hname)) (by simp)
  · rw [hjoin.named_eq] at hname
    exact List.mem_append_left _ (h.named_mem r y hname)

theorem View.Follows.joined (h : v.Follows os) (hjoin : v.Joined v' x bid price shares) :
    v'.Follows (os ++ [⟨none, bid, price, shares⟩]) := by
  obtain ⟨xs, order, h⟩ := h
  exact ⟨_, _, h.joined hjoin⟩

end Joined

end FeedHandler.Book
