import FeedHandler.V3.Reachable

/-!
# Isolation of the books

The pool and the table do not record which book an order belongs to. `books_are_isolated` says that
a stream whose references are unique across the books changes only the book a message is sent to;
`foreign_reference_is_visible` that this needs the references to be unique.
-/

namespace FeedHandler.V3

open Itch OrderBook Runs Segments Slots

/-- A book looks the same in two states: the slots of its levels, the quantities on them, its live
references and its top of book. -/
structure Unchanged (s s' : Store) (k : Nat) : Prop where
  levels : ∀ i l, s'.LevelList k i l ↔ s.LevelList k i l
  qty : ∀ i l, s.LevelList k i l → ∀ x ∈ l, (s'.pool.get x).qty = (s.pool.get x).qty
  live : ∀ ref x, (s'.refs.lookup ref = some x ∧ ∃ i l, s'.LevelList k i l ∧ x ∈ l) ↔
    s.refs.lookup ref = some x ∧ ∃ i l, s.LevelList k i l ∧ x ∈ l
  best : (s'.bookOf k).bestBidAsk = (s.bookOf k).bestBidAsk

section Isolation

variable {hash : Nat → Nat} {capacity : Nat} {s : Store} {lists : Lists} {m : Message}

/-- An admissible message leaves every other book unchanged. -/
theorem step_isolated (h : Inv hash capacity s.toShared s.bookOf lists) (hok : s.Admissible m) :
    ∃ s', s.step hash m = some s' ∧ ∀ k, k ≠ m.stockLocate → Unchanged s s' k := by
  have hok := hok.admitted h
  obtain ⟨s', lists', hs', h', hbooks, heffect⟩ := step_spec h hok
  refine ⟨s', hs', fun k hk => ?_⟩
  have hbook : s'.bookOf k = s.bookOf k := by rw [hbooks, Function.update_of_ne hk]
  have hframe := heffect.frame h hok hk
  have hlevels : ∀ i l, s'.LevelList k i l ↔ s.LevelList k i l := by
    intro i l
    rw [h.level_list_iff, h'.level_list_iff, hbook, (hframe i).1]
  refine ⟨hlevels, fun i l hl x hx => ?_, fun ref x => ?_, by rw [hbook]⟩
  · obtain ⟨_, rfl⟩ := h.level_list_iff.mp hl
    exact ((hframe i).2 x hx).1
  · simp only [hlevels]
    refine and_congr_left ?_
    intro hgiven
    obtain ⟨i, l, hl, hx⟩ := hgiven
    obtain ⟨_, rfl⟩ := h.level_list_iff.mp hl
    exact ((hframe i).2 x hx).2 ref

/-- In a stream whose references are unique across the books, a message changes no book but its
own. -/
theorem books_are_isolated (hash : Nat → Nat) {refExp : Nat} (hexp : 1 ≤ refExp)
    (hnew : Store.new capacity (2 ^ refExp) = some s) {msgs : List Message}
    (hok : Along (Store.step hash) Store.Admissible s (msgs ++ [m])) :
    ∃ s₁ s₂, run (Store.step hash) s msgs = some s₁ ∧ s₁.step hash m = some s₂ ∧
      ∀ k, k ≠ m.stockLocate → Unchanged s₁ s₂ k := by
  obtain ⟨hmsgs, hlast⟩ := along_append.mp hok
  obtain ⟨s₁, hrun, lists, h⟩ := run_inv hexp hnew hmsgs
  obtain ⟨s₂, hs₂, hsame⟩ := step_isolated h (hlast s₁ hrun).1
  exact ⟨s₁, s₂, hrun, hs₂, hsame⟩

/-- Orders of two books, and an execution in one of them. -/
theorem books_are_isolated_two_books :
    ∃ s s₁ s₂, Store.new 2 (2 ^ 2) = some s ∧ run (Store.step RefTable.hash) s
        [.add 1 10 kBid 5 10000, .add 2 20 kBid 7 10000] = some s₁ ∧
      s₁.step RefTable.hash (.execute 1 10 5) = some s₂ ∧ Unchanged s₁ s₂ 2 := by
  obtain ⟨s, hnew⟩ : ∃ s, Store.new 2 (2 ^ 2) = some s := ⟨_, rfl⟩
  have hrouted : ∀ m ∈ [Message.add 1 10 kBid 5 10000, .add 2 20 kBid 7 10000] ++
      [.execute 1 10 5], Routed (fun ref => ref / 10) m := by
    unfold Routed
    decide
  have hok := (owned_new _ (by decide) hnew).along hrouted (inv_new RefTable.hash (by decide) hnew)
    fun locate => by simp [book_of_new hnew, OrderBook.new, kWindow]
  obtain ⟨s₁, s₂, hrun, hstep, hsame⟩ :=
    books_are_isolated RefTable.hash (by decide) hnew (hok.imp fun _ _ h => h.1)
  exact ⟨s, s₁, s₂, hnew, hrun, hstep, hsame 2 (by decide)⟩

/-- A head without a successor is a list of one slot. -/
theorem Store.level_list_single {k i x : Nat} {lvl : PriceLevel}
    (hlvl : (s.bookOf k).levels[i]? = some lvl) (hhead : lvl.headIdx = x) (hx : x ≠ kNullIdx)
    (hnext : (s.pool.get x).nextIdx = kNullIdx) : s.LevelList k i [x] :=
  ⟨lvl, hlvl, by simpa using hx.symm, hhead, hnext⟩

/-- A message that changes the quantity at the head of the bid level at the first price of book 1
changes book 1. -/
theorem head_change_visible {msgs : List Message} (x qty qty' : Nat) (hx : x ≠ kNullIdx)
    (hqty : qty' ≠ qty) (hread : (do
      let s ← Store.new 4 (2 ^ 2)
      let s ← run (Store.step RefTable.hash) s msgs
      let s' ← s.step RefTable.hash m
      let lvl ← (s.bookOf 1).levels[512]?
      return (lvl.headIdx, (s.pool.get x).nextIdx, (s.pool.get x).qty, (s'.pool.get x).qty)) =
        some (x, kNullIdx, qty, qty')) :
    ∃ s₀ s s', Store.new 4 (2 ^ 2) = some s₀ ∧ run (Store.step RefTable.hash) s₀ msgs = some s ∧
      s.step RefTable.hash m = some s' ∧ ¬ Unchanged s s' 1 := by
  simp only [Option.bind_eq_bind, Option.bind_eq_some_iff, Option.pure_def, Option.some.injEq,
    Prod.mk.injEq] at hread
  obtain ⟨s₀, hnew, s, hrun, s', hstep, lvl, hlvl, hhead, hnext, hold, hafter⟩ := hread
  refine ⟨s₀, s, s', hnew, hrun, hstep, fun hsame => hqty ?_⟩
  have hlist := Store.level_list_single hlvl hhead hx hnext
  rw [← hafter, ← hold]
  exact hsame.qty 512 [x] hlist x List.mem_cons_self

/-- An execution sent to book 2 with the reference of an order of book 1 takes from that order.
After a deletion of this kind both books share a slot, and even an execution in book 2 with a
reference of its own changes book 1. -/
theorem foreign_reference_is_visible :
    (∃ s₀ s s', Store.new 4 (2 ^ 2) = some s₀ ∧
      run (Store.step RefTable.hash) s₀ [.add 1 10 kBid 5 10000] = some s ∧
      s.step RefTable.hash (.execute 2 10 2) = some s' ∧ ¬ Unchanged s s' 1) ∧
    ∃ s₀ s s', Store.new 4 (2 ^ 2) = some s₀ ∧
      run (Store.step RefTable.hash) s₀
        [.add 1 10 kBid 5 10000, .delete 2 10, .add 2 20 kBid 7 10000] = some s ∧
      s.step RefTable.hash (.execute 2 20 3) = some s' ∧ ¬ Unchanged s s' 1 :=
  ⟨head_change_visible 0 5 3 (by decide) (by decide) (by decide +kernel),
    head_change_visible 0 7 4 (by decide) (by decide) (by decide +kernel)⟩

end Isolation

end FeedHandler.V3
