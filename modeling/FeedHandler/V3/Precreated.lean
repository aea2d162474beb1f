import FeedHandler.V3.Store

/-!
# Books that are created in advance

`src/v3/receiver.cpp` creates the books of the first `kMaxSymbols` locates before it receives.
`Store.Same` relates stores that differ only in which empty books exist; their runs stay related.
-/

namespace FeedHandler.V3

open Itch Runs

/-- `kMaxSymbols`. -/
def kMaxSymbols : Nat := 9000

namespace Store

/-- `for(uint16_t i=1;i<=n;i++) books.try_emplace(i, pool, refs)`. -/
def precreate (s : Store) (n : Nat) : Store :=
  { s with books := (List.range n).foldl (fun books i =>
      match books.find? (i + 1) with
      | some _ => books
      | none => books.assign (i + 1) .new) s.books }

/-- The same pool, the same table and the same books. -/
structure Same (s s' : Store) : Prop where
  shared : s.toShared = s'.toShared
  books : s.bookOf = s'.bookOf

variable {hash : Nat → Nat} {s s' s₁ : Store}

/-- Creating books in advance makes no difference to what they hold. -/
theorem same_precreate (s : Store) (n : Nat) : s.Same (s.precreate n) := by
  have hfold : ∀ (is : List Nat) (books : OrderedMap Nat OrderBook),
      (fun locate => (books.find? locate).getD .new) = fun locate =>
        ((is.foldl (fun books i =>
          match books.find? (i + 1) with
          | some _ => books
          | none => books.assign (i + 1) .new) books).find? locate).getD .new := by
    intro is
    induction is with
    | nil => exact fun _ => rfl
    | cons i is ih =>
        intro books
        rw [List.foldl_cons, ← ih]
        funext locate
        cases hi : books.find? (i + 1) with
        | some _ => rfl
        | none =>
            simp only [OrderedMap.find_assign]
            split
            next heq => rw [heq, hi]; rfl
            next => rfl
  exact ⟨rfl, hfold _ _⟩

/-- One message in two such stores. -/
theorem Same.step (hash : Nat → Nat) (h : s.Same s') (m : Message) :
    Option.Rel Same (s.step hash m) (s'.step hash m) := by
  simp only [Store.step, h.shared, h.books, Option.bind_eq_bind]
  cases (s'.bookOf m.stockLocate).apply hash s'.toShared m with
  | none => exact .none
  | some r =>
      refine .some ⟨rfl, ?_⟩
      rw [book_of_assign, book_of_assign, h.books]

/-- Both runs go wrong, or neither does. -/
theorem Same.run_rel (hash : Nat → Nat) (h : s.Same s') (msgs : List Message) :
    Option.Rel Same (Runs.run (Store.step hash) s msgs) (Runs.run (Store.step hash) s' msgs) :=
  Runs.run_rel (fun _ _ m h _ => h.step hash m) h fun m (_ : m ∈ msgs) => trivial

/-- A run in two such stores. -/
theorem Same.run (h : s.Same s') {msgs : List Message}
    (hs₁ : run (Store.step hash) s msgs = some s₁) :
    ∃ s₁', run (Store.step hash) s' msgs = some s₁' ∧ s₁.Same s₁' := by
  have hrel := h.run_rel hash msgs
  rw [hs₁] at hrel
  cases hrun : Runs.run (Store.step hash) s' msgs with
  | none =>
      rw [hrun] at hrel
      cases hrel
  | some s₁' =>
      rw [hrun, Option.rel_some_some] at hrel
      exact ⟨s₁', rfl, hrel⟩

end Store

end FeedHandler.V3
