import FeedHandler.Book.Bounded
import FeedHandler.V3.View

/-!
# The v3 books when resources run out

Without a free slot an addition is dropped, and with the table at half load it rests without its
reference. `Store.Follows.step_in` says that this is all: with or without room, every admitted
message takes the books from orders to what `Orders.applyIn` makes of them.
-/

namespace FeedHandler.V3

open Itch Book OrderBook Runs Slots

/-- The pool has no free slot. -/
def Shared.full (s : Shared) : Bool := s.pool.freeHead = kNullIdx

/-- The table refuses references. -/
def Shared.refuses (s : Shared) : Bool := s.refs.slots.size ≤ s.refs.size * 2

/-- The orders of all books after a message, when the store is in the given state. -/
def Shared.ordersAfter (s : Shared) (os : Nat → Orders) (m : Message) : Nat → Orders :=
  Function.update os m.stockLocate ((os m.stockLocate).applyIn s.full s.refuses m)

/-- The orders of all books after a stream to new books. -/
def boundedOrders (hash : Nat → Nat) (s : Store) (msgs : List Message) : Nat → Orders :=
  beside (Store.step hash) (fun s => s.ordersAfter) s (fun _ => []) msgs

section Overload

variable {hash : Nat → Nat} {capacity : Nat} {s : Store} {lists : Lists} {m : Message}
  {os : Nat → Orders}

/-- Placing an order whose reference the table refuses adds its node without a name. -/
theorem Placed.joined {s s' : Shared} {b b' : OrderBook} {q : Nat → List Nat}
    {x i ref price shares : Nat} {bid : Bool} (h : Placed s s' b b' x i ref price shares bid)
    (hexact : BookExact b q) (hcoded : b'.Coded) (hx : ∀ j, x ∉ q j)
    (hunnamed : ∀ r, s.refs.lookup r ≠ some x) (hfull : s.refs.slots.size ≤ s.refs.size * 2) :
    (viewOf s b q).Joined (viewOf s' b' (Function.update q i (q i ++ [x]))) x bid price
      shares where
  fresh b₁ p hmem := by
    obtain ⟨j, hj⟩ := mem_of_mem_queue hmem
    exact hx j hj
  queue_eq b₁ p := by
    have hsame : (viewOf s' b' q).queue b₁ p = (viewOf s b q).queue b₁ p :=
      queue_extend hexact hcoded h.keep b₁ p
    rw [queue_update hcoded h.code, ← hsame]
    split
    next heq => rw [heq.1, heq.2, queue_of_level h.code]
    next => rfl
  shares_self := h.qty
  shares_other := h.qty_other
  named_eq := by
    funext r
    have hrefs : s'.refs = s.refs := by
      rcases h.refs.cases with ⟨_, hrefs⟩ | ⟨hroom, _⟩
      · exact hrefs
      · omega
    refine named_congr (by rw [hrefs]) fun y hy => ?_
    have hyx : y ≠ x := fun heq => hunnamed r (heq ▸ hy)
    refine exists_congr fun j => ?_
    by_cases hj : j = i
    · subst hj
      simp [hyx]
    · rw [Function.update_of_ne hj]

/-- What an addition without room does to the orders of its book. -/
theorem Effect.follows_in {a : AddOrder} {s' : Shared} {b' : OrderBook} {lists' : Lists}
    (h : s.Follows hash capacity lists os)
    (heffect : Effect a.stockLocate.toNat s.toShared (s.bookOf a.stockLocate.toNat) lists
      (.addOrder a) s' b' lists') (hcoded : b'.Coded) (hspace : ¬ s.HasSpace (.addOrder a)) :
    (viewOf s' b' (bookLists lists' a.stockLocate.toNat)).Follows
      ((os a.stockLocate.toNat).applyIn s.full s.refuses (.addOrder a)) := by
  have hshows := h.shows a.stockLocate.toNat
  rcases heffect.add_cases with ⟨hfree, rfl, rfl, rfl⟩ | ⟨x, i, rest, hfree, hplaced, rfl⟩
  · have hfull : s.full = true := decide_eq_true (h.inv.free_head_eq_null_iff.mpr hfree)
    rw [hfull]
    exact hshows
  · have hhead : s.pool.freeHead ≠ kNullIdx := by
      rw [Ne, h.inv.free_head_eq_null_iff, hfree]
      simp
    have hrefuses : s.refs.slots.size ≤ s.refs.size * 2 :=
      Nat.le_of_not_lt fun hlt => hspace ⟨hhead, hlt⟩
    have hx : x ∈ lists none := hfree ▸ List.mem_cons_self
    have hfull : s.full = false := decide_eq_false hhead
    have htaken : s.refuses = true := decide_eq_true hrefuses
    rw [book_lists_from_free, hfull, htaken]
    exact hshows.joined (hplaced.joined (h.exact _) hcoded (fun j => h.inv.apart (by simp) hx)
      (h.inv.unnamed hx) hrefuses)

/-- With room, a message has its effect on the orders. -/
theorem apply_in_of_space (hspace : s.HasSpace m) (os : Orders) :
    os.applyIn s.full s.refuses m = os.apply m := by
  cases m with
  | addOrder a =>
      have hfull : s.full = false := decide_eq_false hspace.1
      have htaken : s.refuses = false := decide_eq_false (Nat.not_le.mpr hspace.2)
      simp [Orders.applyIn, hfull, htaken]
  | orderExecuted | orderCancel | orderDelete | orderReplace => rfl

/-- With or without room, a message changes the orders of its book as bounded resources have it. -/
theorem Store.Follows.step_in (h : s.Follows hash capacity lists os) (hok : Admitted s lists m)
    (hsmall : s.Small) :
    ∃ s' lists', s.step hash m = some s' ∧
      s'.Follows hash capacity lists' (s.ordersAfter os m) := by
  by_cases hspace : s.HasSpace m
  · rw [Shared.ordersAfter, apply_in_of_space hspace]
    exact h.step hok hsmall hspace
  · cases m with
    | orderExecuted | orderCancel | orderDelete | orderReplace => exact absurd trivial hspace
    | addOrder a =>
        obtain ⟨s', lists', hs', h', hbooks, heffect⟩ := step_spec h.inv hok
        have hexact : ∀ k, BookExact (s'.bookOf k) (bookLists lists' k) := by
          refine fun k => h'.exact k ?_
          by_cases hk : k = (Message.addOrder a).stockLocate
          · exact hk ▸ heffect.levels_le.trans (hsmall _)
          · rw [hbooks, Function.update_of_ne hk]
            exact Nat.le_of_lt (hsmall k)
        refine ⟨s', lists', hs', h', hexact, fun k => ?_⟩
        rw [Shared.ordersAfter]
        by_cases hk : k = (Message.addOrder a).stockLocate
        · subst hk
          rw [Function.update_self]
          exact heffect.follows_in h (hexact _).coded hspace
        · rw [Function.update_of_ne hk]
          exact (h.shows k).congr (heffect.same h.inv hok hbooks hk)

/-- The books of a run show the orders that bounded resources leave. -/
theorem follows_of_run {refExp : Nat} (hexp : 1 ≤ refExp)
    (hnew : Store.new capacity (2 ^ refExp) = some s) {msgs : List Message}
    (hok : Along (Store.step hash) (fun s m => s.Admissible m ∧ s.Small) s msgs) :
    ∃ s' lists, run (Store.step hash) s msgs = some s' ∧
      s'.Follows hash capacity lists (boundedOrders hash s msgs) := by
  have hstep : ∀ (s : Store) (os : Nat → Orders) (m : Message),
      (∃ lists, s.Follows hash capacity lists os) → s.Admissible m ∧ s.Small →
      ∃ s', s.step hash m = some s' ∧
        ∃ lists, s'.Follows hash capacity lists (s.ordersAfter os m) := by
    intro s os m hgiven hok
    obtain ⟨lists, h⟩ := hgiven
    obtain ⟨s', lists', hs', h'⟩ := h.step_in (hok.1.admitted h.inv) hok.2
    exact ⟨s', hs', lists', h'⟩
  obtain ⟨s', hrun, lists, h⟩ := run_beside hstep ⟨_, Store.follows_new hexp hnew⟩ hok
  exact ⟨s', lists, hrun, h⟩

end Overload

end FeedHandler.V3
