import FeedHandler.Book.View
import Mathlib.Order.Bounds.Basic

/-!
# Top of book

The best bid and the best ask of two sets of prices. `TopOfBook.unique` says that the sets determine
the answer.
-/

namespace FeedHandler.Book

universe u

/-- The prices of a side at which an order rests. -/
def prices {ν : Type u} (queue : Bool → Nat → List ν) (bid : Bool) : Set Nat :=
  {p | queue bid p ≠ []}

/-- The largest element of a set, if it has one. -/
def Highest (s : Set Nat) : Option Nat → Prop
  | none => s = ∅
  | some p => IsGreatest s p

/-- The smallest element of a set, if it has one. -/
def Lowest (s : Set Nat) : Option Nat → Prop
  | none => s = ∅
  | some p => IsLeast s p

/-- The answer to a question for the top of book: nothing if a side is empty, otherwise the highest
bid and the lowest ask. -/
def TopOfBook (bids asks : Set Nat) : Option (Nat × Nat) → Prop
  | none => bids = ∅ ∨ asks = ∅
  | some (bid, ask) => IsGreatest bids bid ∧ IsLeast asks ask

/-- A bid and an ask, if there are both. -/
def both : Option Nat → Option Nat → Option (Nat × Nat)
  | some bid, some ask => some (bid, ask)
  | _, _ => none

variable {bids asks : Set Nat} {r r' : Option (Nat × Nat)}

/-- The top of book from the two sides. -/
theorem top_of_book {bid ask : Option Nat} (hbid : Highest bids bid) (hask : Lowest asks ask) :
    TopOfBook bids asks (both bid ask) := by
  cases bid with
  | none => exact .inl hbid
  | some bid =>
      cases ask with
      | none => exact .inr hask
      | some ask => exact ⟨hbid, hask⟩

/-- There is one answer. -/
theorem TopOfBook.unique (h : TopOfBook bids asks r) (h' : TopOfBook bids asks r') : r = r' := by
  have hsome : ∀ {p : Nat × Nat}, TopOfBook bids asks (some p) → ¬ TopOfBook bids asks none := by
    intro p hp hor
    obtain ⟨bid, ask⟩ := p
    obtain ⟨hbid, hask⟩ := hp
    rcases hor with hempty | hempty
    · exact Set.eq_empty_iff_forall_notMem.mp hempty bid hbid.1
    · exact Set.eq_empty_iff_forall_notMem.mp hempty ask hask.1
  cases r with
  | none =>
      cases r' with
      | none => rfl
      | some p => exact absurd h (hsome h')
  | some p =>
      cases r' with
      | none => exact absurd h' (hsome h)
      | some p' => rw [Prod.ext (h.1.unique h'.1) (h.2.unique h'.2)]

/-- There is no answer if and only if a side is empty. -/
theorem TopOfBook.eq_none_iff (h : TopOfBook bids asks r) : r = none ↔ bids = ∅ ∨ asks = ∅ := by
  constructor
  · intro hr
    rwa [hr] at h
  · intro hempty
    exact h.unique hempty

/-- The prices at which an implementation of a book has orders. -/
theorem View.Follows.prices_eq {ν : Type u} {v : View ν} {os : Orders} (h : v.Follows os)
    (bid : Bool) : prices v.queue bid = {p | ∃ o ∈ os, o.bid = bid ∧ o.price = p} :=
  Set.ext fun p => h.queue_ne_nil_iff bid p

end FeedHandler.Book
