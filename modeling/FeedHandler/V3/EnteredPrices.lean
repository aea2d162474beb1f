import FeedHandler.V3.TopOfBook

/-!
# Best prices and the messages that entered the orders

`termsAfter` keeps, beside the store, the side and the price that the addition or the replacement of
each slot's order carried. `Entered` says that a linked order stands on the level of its terms;
`best_bid_ask_exact` that the answer of `best_bid_ask` is given by the terms of the linked orders,
in every reachable state.
-/

namespace FeedHandler.V3

open Itch Book OrderBook OrderPool Runs Slots

/-- The side and the price that an order was entered with. -/
structure Terms where
  bid : Bool
  price : Nat
  deriving DecidableEq, Repr, Inhabited

/-- The terms after a message. An addition enters its order in the slot that the pool gives out, a
replacement in the slot of the order it replaces, on the same side. -/
def Shared.termsAfter (hash : Nat → Nat) (s : Shared) (terms : Nat → Terms) : Message → Nat → Terms
  | .addOrder m =>
      if s.pool.freeHead = kNullIdx then terms
      else Function.update terms s.pool.freeHead ⟨isBid m.side, m.price.toNat⟩
  | .orderReplace m =>
      match s.refs.find hash m.originalOrderRef.toNat with
      | some x =>
          if x = kNullIdx then terms
          else Function.update terms x ⟨(terms x).bid, m.price.toNat⟩
      | none => terms
  | _ => terms

/-- The terms after a stream. -/
def termsOf (hash : Nat → Nat) (s : Store) (terms : Nat → Terms) (msgs : List Message) :
    Nat → Terms :=
  beside (Store.step hash) (fun s => s.termsAfter hash) s terms msgs

/-- The prices at which the linked orders of a side of a book were entered. -/
def Store.linkedPrices (s : Store) (terms : Nat → Terms) (locate : Nat) (bid : Bool) : Set Nat :=
  {p | ∃ x i l, s.LevelList locate i l ∧ x ∈ l ∧ terms x = ⟨bid, p⟩}

/-- The linked orders of a book stand on the levels of their terms. -/
def Entered (b : OrderBook) (terms : Nat → Terms) (q : Nat → List Nat) : Prop :=
  ∀ i, ∀ x ∈ q i, b.levelOf (terms x).bid (terms x).price = some i

section Effects

variable {hash : Nat → Nat} {capacity : Nat} {s : Store} {lists lists' : Lists} {m : Message}
  {terms : Nat → Terms} {locate : Nat}

/-- Terms of other orders, and a level for the order at hand. -/
theorem Entered.update {b b' : OrderBook} {q : Nat → List Nat} {x i price : Nat} {bid : Bool}
    {l : List Nat} (h : Entered b terms q)
    (hkeep : ∀ bid price j, b.levelOf bid price = some j → b'.levelOf bid price = some j)
    (hcode : b'.levelOf bid price = some i) (hx : ∀ j, x ∉ q j) (hl : l = q i ++ [x]) :
    Entered b' (Function.update terms x ⟨bid, price⟩) (Function.update q i l) := by
  intro j y hy
  by_cases hyx : y = x
  · subst hyx
    rw [Function.update_self]
    by_cases hj : j = i
    · exact hj ▸ hcode
    · rw [Function.update_of_ne hj] at hy
      exact absurd hy (hx j)
  · rw [Function.update_of_ne hyx]
    refine hkeep _ _ _ (h j y ?_)
    by_cases hj : j = i
    · subst hj
      rw [Function.update_self, hl, List.mem_append, List.mem_singleton] at hy
      exact hy.resolve_right hyx
    · rwa [Function.update_of_ne hj] at hy

/-- An order that leaves. -/
theorem Entered.remove {b b' : OrderBook} {q : Nat → List Nat} {x i : Nat} {l k : List Nat}
    (h : Entered b terms q) (hcodes : ∀ bid price, b'.levelOf bid price = b.levelOf bid price)
    (hq : q i = l ++ x :: k) : Entered b' terms (Function.update q i (l ++ k)) := by
  intro j y hy
  rw [hcodes]
  refine h j y ?_
  by_cases hj : j = i
  · subst hj
    rw [Function.update_self, List.mem_append] at hy
    rw [hq, List.mem_append]
    exact hy.imp_right (List.mem_cons_of_mem x)
  · rwa [Function.update_of_ne hj] at hy

/-- The slot that a message enters an order in, if any, is free or the one of the order that the
message names. -/
theorem terms_after_of_ne (h : Inv hash capacity s.toShared s.bookOf lists)
    (hok : Admitted s lists m) {x : Nat} (hfree : x ∉ lists none)
    (hname : ∀ ref, m.target = some ref → s.refs.lookup ref ≠ some x) :
    s.termsAfter hash terms m x = terms x := by
  cases m with
  | addOrder m =>
      show (if s.pool.freeHead = kNullIdx then terms
        else Function.update terms s.pool.freeHead _) x = terms x
      split
      next => rfl
      next hhead =>
        refine Function.update_of_ne ?_ _ _
        intro heq
        subst heq
        -- The slot would be the head of the free list.
        exact hfree (h.free_list.free_head_mem hhead)
  | orderReplace m =>
      have hfind := find_eq h (hok.keys _ (Message.target_mem rfl :
        m.originalOrderRef.toNat ∈ (Message.orderReplace m).refs))
      show (match s.refs.find hash m.originalOrderRef.toNat with
        | some y => if y = kNullIdx then terms else Function.update terms y _
        | none => terms) x = terms x
      rw [hfind]
      show (if (s.refs.lookup _).getD kNullIdx = kNullIdx then terms
        else Function.update terms _ _) x = terms x
      split
      next => rfl
      next hne =>
        refine Function.update_of_ne ?_ _ _
        intro heq
        subst heq
        refine hname _ rfl ?_
        -- The slot would be the one of the order to be replaced.
        cases hlookup : s.refs.lookup m.originalOrderRef.toNat with
        | none =>
            rw [hlookup] at hne
            exact absurd rfl hne
        | some y => rfl
  | orderExecuted => rfl
  | orderCancel => rfl
  | orderDelete => rfl

/-- An execution or a cancellation enters no order. -/
theorem terms_after_of_taken {qty : Nat} (hqty : m.taken = some qty) :
    s.termsAfter hash terms m = terms := by
  cases m with
  | orderExecuted => rfl
  | orderCancel => rfl
  | addOrder => cases hqty
  | orderDelete => cases hqty
  | orderReplace => cases hqty

/-- The effect of a message keeps the orders of its book on the levels of their terms. -/
theorem Effect.entered {s' : Shared} {b' : OrderBook}
    (h : Inv hash capacity s.toShared s.bookOf lists) (hok : Admitted s lists m)
    (hexact : BookExact (s.bookOf m.stockLocate) (bookLists lists m.stockLocate))
    (hentered : Entered (s.bookOf m.stockLocate) terms (bookLists lists m.stockLocate))
    (heffect : Effect m.stockLocate s.toShared (s.bookOf m.stockLocate) lists m s' b' lists') :
    Entered b' (s.termsAfter hash terms m) (bookLists lists' m.stockLocate) := by
  have happart : ∀ {j : Option (Nat × Nat)} {i y}, j ≠ some (m.stockLocate, i) → y ∈ lists j →
      y ∉ bookLists lists m.stockLocate i := fun hj hy => h.apart hj hy
  cases heffect with
  | @ignored _ ref hm hname =>
      intro i x hx
      rw [terms_after_of_ne h hok]
      · exact hentered i x hx
      · exact fun hfree => happart (by simp) hfree hx
      · intro ref' hm'
        rw [Option.some.inj (hm'.symm.trans hm), hname]
        simp
  | @dropped a hfree =>
      have hnull := h.free_head_eq_null_iff.mpr hfree
      show Entered _ (if s.pool.freeHead = kNullIdx then terms else _) _
      rwa [if_pos hnull]
  | @placed a x i rest _ _ hfree hplaced =>
      have hx : x ∈ lists none := hfree ▸ List.mem_cons_self
      have hhead : s.pool.freeHead = x := by rw [h.free.start_eq, hfree]; rfl
      have hne : x ≠ kNullIdx := (h.lt_size hx).2
      rw [book_lists_from_free]
      show Entered b' (if s.pool.freeHead = kNullIdx then terms else _) _
      rw [hhead, if_neg hne]
      exact hentered.update hplaced.keep hplaced.code (fun j => happart (by simp) hx) rfl
  | @reduced _ ref qty x i _ _ hm hqty hname hx hlt hcodes =>
      intro j y hy
      rw [terms_after_of_taken hqty, hcodes]
      exact hentered j y hy
  | @removed _ ref x i l k _ _ hm hname hall hlist hremoved =>
      have hsame : s.termsAfter hash terms m = terms := by
        rcases hall with ⟨d, rfl⟩ | ⟨qty, hqty, _⟩
        · rfl
        · exact terms_after_of_taken hqty
      rw [book_lists_to_free, hsame]
      exact hentered.remove hremoved.codes hlist
  | @replaced u x i j c l k s₁ _ b₁ _ lists₁ hname hlist hside hremoved hlists _ hplaced =>
      have hx : x ∈ lists (some ((Message.orderReplace u).stockLocate, i)) := by simp [hlist]
      have hfind := find_eq h (hok.keys _ (Message.target_mem rfl :
        u.originalOrderRef.toNat ∈ (Message.orderReplace u).refs))
      rw [hname, Option.getD_some] at hfind
      -- The side that `side_of` reads off the level is the one the order was entered on.
      obtain ⟨c', hside', hbid⟩ := hexact.coded.side_of (hentered i x hx)
      obtain rfl := Option.some.inj (hside'.symm.trans hside)
      have hterms : s.termsAfter hash terms (.orderReplace u) =
          Function.update terms x ⟨isBid c', u.price.toNat⟩ := by
        simp only [Shared.termsAfter, hfind, (h.lt_size hx).2, if_false, hbid]
      have hleft : bookLists lists₁ (Message.orderReplace u).stockLocate =
          Function.update (bookLists lists (Message.orderReplace u).stockLocate) i (l ++ k) := by
        rw [hlists, book_lists_to_free]
      have hgone : ∀ j, x ∉ bookLists lists₁ (Message.orderReplace u).stockLocate j := fun j =>
        hleft ▸ h.gone hlist j
      have hrest := hentered.remove hremoved.codes hlist
      rw [← hleft] at hrest
      rw [book_lists_from_free, hterms]
      exact hrest.update hplaced.keep hplaced.code hgone rfl

/-- A state whose book is small enough to be exact, with its orders on the levels of their terms. -/
def EnteredIn (hash : Nat → Nat) (capacity locate : Nat) (s : Store) (terms : Nat → Terms) : Prop :=
  ∃ lists, Inv hash capacity s.toShared s.bookOf lists ∧
    (s.bookOf locate).levels.size ≤ 2 ^ 31 ∧
    Entered (s.bookOf locate) terms (bookLists lists locate)

/-- One message keeps the orders of every book on the levels of their terms. -/
theorem EnteredIn.step (h : EnteredIn hash capacity locate s terms) (hok : s.Admissible m)
    (hsize : (s.bookOf locate).levels.size < 2 ^ 31) :
    ∃ s', s.step hash m = some s' ∧
      EnteredIn hash capacity locate s' (s.termsAfter hash terms m) := by
  obtain ⟨lists, h, _, hentered⟩ := h
  have hadmitted := hok.admitted h
  obtain ⟨s', lists', hs', h', hbooks, heffect⟩ := step_spec h hadmitted
  refine ⟨s', hs', lists', h', ?_, ?_⟩
  · by_cases hl : locate = m.stockLocate
    · exact hl ▸ heffect.levels_le.trans (hl ▸ hsize)
    · rw [hbooks, Function.update_of_ne hl]
      exact Nat.le_of_lt hsize
  · by_cases hl : locate = m.stockLocate
    · subst hl
      exact heffect.entered h hadmitted (h.exact _ (Nat.le_of_lt hsize)) hentered
    · -- Another book keeps its lists, and its orders keep their terms.
      rw [hbooks, Function.update_of_ne hl]
      intro i x hx
      have hx : x ∈ lists (some (locate, i)) := (heffect.frame h hadmitted hl i).1 ▸ hx
      rw [terms_after_of_ne h hadmitted]
      · exact hentered i x hx
      · exact fun hfree => h.apart (by simp) hfree hx
      · exact fun ref hm hname => hl (hadmitted.own ref (Message.target_mem hm) x locate i hname hx)

/-- The prices of the levels that hold orders are the prices the orders were entered at. -/
theorem Entered.prices_eq (h : Inv hash capacity s.toShared s.bookOf lists)
    (hcoded : (s.bookOf locate).Coded)
    (hentered : Entered (s.bookOf locate) terms (bookLists lists locate)) (bid : Bool) :
    prices (viewOf s.toShared (s.bookOf locate) (bookLists lists locate)).queue bid =
      s.linkedPrices terms locate bid := by
  ext p
  constructor
  · intro hp
    obtain ⟨x, hx⟩ := List.exists_mem_of_ne_nil _ hp
    cases hi : (s.bookOf locate).levelOf bid p with
    | none =>
        rw [queue_of_no_level hi] at hx
        cases hx
    | some i =>
        rw [queue_of_level hi] at hx
        obtain ⟨hbid, hprice⟩ := hcoded.level_inj (hentered i x hx) hi
        have hlt := (h.book locate).lt_size (List.ne_nil_of_mem hx)
        refine ⟨x, i, _, h.level_list_iff.mpr ⟨hlt, rfl⟩, hx, ?_⟩
        rw [← hbid, ← hprice]
  · intro hgiven
    obtain ⟨x, i, l, hl, hx, hterms⟩ := hgiven
    obtain ⟨_, rfl⟩ := h.level_list_iff.mp hl
    have hlevel := hentered i x hx
    rw [hterms] at hlevel
    show (viewOf s.toShared (s.bookOf locate) (bookLists lists locate)).queue bid p ≠ []
    rw [queue_of_level hlevel]
    exact List.ne_nil_of_mem hx

end Effects

/-- Take any stream of messages to any number of books, in which no reference is the empty key or
live in another book, and a book of at most as many levels as signed 32-bit indices can address.
Orders may be dropped by a full pool or refused by a full table. In every state reached,
`best_bid_ask` answers: nothing exactly if no bid or no ask is linked, and otherwise the highest
price that a linked bid and the lowest price that a linked ask was entered at. -/
theorem best_bid_ask_exact (hash : Nat → Nat) {capacity refExp : Nat} (hexp : 1 ≤ refExp)
    {s : Store}
    (hnew : Store.new capacity (2 ^ refExp) = some s) {msgs : List Message} (locate : Nat)
    (terms : Nat → Terms) (hok : Along (Store.step hash)
      (fun s m => s.Admissible m ∧ (s.bookOf locate).levels.size < 2 ^ 31) s msgs) :
    ∃ s' r, run (Store.step hash) s msgs = some s' ∧ (s'.bookOf locate).bestBidAsk = some r ∧
      (r = none ↔ s'.linkedPrices (termsOf hash s terms msgs) locate true = ∅ ∨
        s'.linkedPrices (termsOf hash s terms msgs) locate false = ∅) ∧
      ∀ bid ask, r = some (bid, ask) →
        IsGreatest (s'.linkedPrices (termsOf hash s terms msgs) locate true) bid ∧
        IsLeast (s'.linkedPrices (termsOf hash s terms msgs) locate false) ask := by
  have hstart : EnteredIn hash capacity locate s terms := by
    refine ⟨_, inv_new hash hexp hnew, ?_, fun i x hx => absurd hx List.not_mem_nil⟩
    rw [book_of_new hnew]
    simp [OrderBook.new, kWindow]
  obtain ⟨s', hrun, lists, h, hsize, hentered⟩ :=
    run_beside (fun s terms m h hok => h.step hok.1 hok.2) hstart hok
  rw [← termsOf] at hentered
  have hexact := h.exact locate hsize
  obtain ⟨r, hr, htop⟩ := best_bid_ask_spec (h.book locate) hexact fun i => h.nodes rfl
  have hbids := hentered.prices_eq h hexact.coded true
  have hasks := hentered.prices_eq h hexact.coded false
  unfold bookLists at hbids hasks
  rw [hbids, hasks] at htop
  refine ⟨s', r, hrun, hr, htop.eq_none_iff, fun bid ask hsome => ?_⟩
  rw [hsome] at htop
  exact htop

/-- A bid in the window, one above it that is executed beyond its shares, and an ask far away. -/
theorem best_bid_ask_exact_both_regions :
    ∃ s s', Store.new 4 (2 ^ 3) = some s ∧ run (Store.step RefTable.hash) s
        [.add 1 10 kBid 5 1000000, .add 1 11 kBid 5 1000050, .add 1 12 0x53 5 2000000,
          .execute 1 11 9] = some s' ∧
      IsGreatest (s'.linkedPrices (termsOf RefTable.hash s (fun _ => default)
        [.add 1 10 kBid 5 1000000, .add 1 11 kBid 5 1000050, .add 1 12 0x53 5 2000000,
          .execute 1 11 9]) 1 true) 1000000 := by
  have hread : (do
      let s ← Store.new 4 (2 ^ 3)
      let s' ← run (Store.step RefTable.hash) s
        [.add 1 10 kBid 5 1000000, .add 1 11 kBid 5 1000050, .add 1 12 0x53 5 2000000,
          .execute 1 11 9]
      (s'.bookOf 1).bestBidAsk) = some (some (1000000, 2000000)) := by decide +kernel
  simp only [Option.bind_eq_bind, Option.bind_eq_some_iff] at hread
  obtain ⟨s, hnew, s', hrun, hbest⟩ := hread
  have hrouted : ∀ m ∈ [Message.add 1 10 kBid 5 1000000, .add 1 11 kBid 5 1000050,
      .add 1 12 0x53 5 2000000, .execute 1 11 9], Routed (fun _ => 1) m := by
    unfold Routed
    decide
  have hok := (owned_new _ (by decide) hnew).along hrouted (inv_new RefTable.hash (by decide) hnew)
    fun locate => by simp [book_of_new hnew, OrderBook.new, kWindow]
  obtain ⟨s'', r, hrun', hr, _, htop⟩ := best_bid_ask_exact RefTable.hash (by decide) hnew 1
    (fun _ => default) (hok.imp fun s m h => ⟨h.1, h.2 1⟩)
  obtain rfl := Option.some.inj (hrun'.symm.trans hrun)
  obtain rfl := Option.some.inj (hr.symm.trans hbest)
  exact ⟨s, s'', hnew, hrun, (htop _ _ rfl).1⟩

end FeedHandler.V3
