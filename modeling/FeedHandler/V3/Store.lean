import FeedHandler.Foundations.Runs
import FeedHandler.V3.OrderBook

/-!
# The books of all symbols

The dispatch loop of `src/v3/main.cpp` and `src/v3/receiver.cpp` after decoding: one pool and one
reference table shared by the books, which are kept by stock locate and created on first use.
-/

namespace FeedHandler.V3

open Itch

/-- The handler of a message. -/
def OrderBook.apply (hash : Nat → Nat) (s : Shared) (b : OrderBook) :
    Message → Option (Shared × OrderBook)
  | .addOrder m => b.addOrder hash s m
  | .orderExecuted m => b.executeOrder hash s m
  | .orderCancel m => b.cancelOrder hash s m
  | .orderDelete m => b.deleteOrder hash s m
  | .orderReplace m => b.replaceOrder hash s m

/-- `pool`, `refs` and `books`. -/
structure Store extends Shared where
  books : OrderedMap Nat OrderBook

namespace Store

/-- The variables before the first message. -/
def new (poolCapacity refCapacity : Nat) : Option Store := do
  let pool ← OrderPool.new poolCapacity
  return { pool := pool, refs := RefTable.new refCapacity, books := ∅ }

/-- `books.try_emplace(locate, pool, refs).first->second`. -/
def bookOf (s : Store) (locate : Nat) : OrderBook := (s.books.find? locate).getD OrderBook.new

/-- One message. -/
def step (hash : Nat → Nat) (s : Store) (m : Message) : Option Store := do
  let (shared, b) ← (s.bookOf m.stockLocate).apply hash s.toShared m
  return { toShared := shared, books := s.books.assign m.stockLocate b }

/-- Only the book of the message is replaced. -/
theorem book_of_assign (s : Store) (shared : Shared) (locate : Nat) (b : OrderBook) :
    bookOf { toShared := shared, books := s.books.assign locate b } =
      Function.update s.bookOf locate b := by
  funext l
  by_cases hl : l = locate
  · simp [bookOf, hl]
  · simp [bookOf, hl, OrderedMap.find_assign]

end Store

end FeedHandler.V3
