import FeedHandler.V3.LevelCoding
import FeedHandler.V3.Occupancy
import FeedHandler.V3.Queues

/-!
# The invariant of one book

`BookShape` ties the levels of a book and the shared pool to lists of nodes; it holds of a book of
any size. `BookExact` adds what the level indices mean and that the bits and the cached best levels
are right; it needs indices that a signed 32-bit number can hold. `link_order_spec`,
`unlink_order_spec` and `reduce_level_spec` say what the three ways to change a level do.
-/

namespace FeedHandler.V3

open OrderBook OrderPool

/-- A book whose levels hold the given lists of nodes. -/
structure BookShape (p : OrderPool) (b : OrderBook) (q : Nat → List Nat) : Prop where
  sized : b.Sized
  queue : ∀ (i : Nat) (lvl : PriceLevel), b.levels[i]? = some lvl → Queue p lvl i (q i)
  outside : ∀ i, b.levels.size ≤ i → q i = []

/-- A book whose indices stand for sides and prices and whose bits are those of its lists. -/
structure BookExact (b : OrderBook) (q : Nat → List Nat) : Prop where
  coded : b.Coded
  marked : b.Marked fun i => q i ≠ []
  priced : ∀ i, q i ≠ [] → ∃ bid price, price < 2 ^ 32 ∧ b.levelOf bid price = some i

/-- The book with other level records, occupancy words and best levels. -/
def OrderBook.relevel (b : OrderBook) (levels : Array PriceLevel)
    (occupied : Vector (BitVec 64) 32) (bid ask : Int) : OrderBook :=
  { b with levels := levels }.remark occupied bid ask

section Book

variable {p p' : OrderPool} {b b' : OrderBook} {q : Nat → List Nat} {i x : Nat} {l m : List Nat}

/-- A book depends on its own nodes only. -/
theorem BookShape.frame (h : BookShape p b q) (hget : ∀ i, ∀ x ∈ q i, p'.get x = p.get x) :
    BookShape p' b q where
  sized := h.sized
  queue i lvl hlvl := (h.queue i lvl hlvl).frame (hget i)
  outside := h.outside

/-- Levels with orders exist. -/
theorem BookShape.lt_size (h : BookShape p b q) (hi : q i ≠ []) : i < b.levels.size := by
  by_contra hge
  exact hi (h.outside i (by omega))

/-- `level_for` keeps the lists. -/
theorem BookShape.extend (h : BookShape p b q) (hext : b.Extends b') : BookShape p b' q where
  sized := hext.sized
  queue i lvl hlvl := by
    rcases hext.levels with heq | heq
    · exact h.queue i lvl (heq ▸ hlvl)
    · rw [heq, Array.getElem?_push] at hlvl
      split at hlvl
      next hnew =>
        cases hlvl
        rw [h.outside i (by omega)]
        exact queue_empty p i
      next => exact h.queue i lvl hlvl
  outside i hi := by
    refine h.outside i ?_
    rcases hext.levels with heq | heq
    · exact heq ▸ hi
    · rw [heq, Array.size_push] at hi
      omega

theorem BookExact.extend (h : BookExact b q) (hsize : b.levels.size < 2 ^ 32)
    (hext : b.Extends b') : BookExact b' q where
  coded := hext.coded h.coded hsize
  marked := ⟨fun i hi => by
      rw [occ_bit_congr hext.occupied_eq]
      exact h.marked.bits i hi,
    hext.bid_eq ▸ h.marked.bid, hext.ask_eq ▸ h.marked.ask⟩
  priced i hi := by
    obtain ⟨bid, price, hprice, hcode⟩ := h.priced i hi
    exact ⟨bid, price, hprice, hext.keep bid price i hcode⟩

/-- A new record and list for one level. -/
theorem BookShape.relevel (h : BookShape p b q) {lvl : PriceLevel} (hi : i < b.levels.size)
    (hqueue : Queue p' lvl i l) (hother : ∀ j, j ≠ i → ∀ x ∈ q j, p'.get x = p.get x)
    (occupied : Vector (BitVec 64) 32) {bid : Int} (hbid : bid < 2 * kWindow) (ask : Int) :
    BookShape p' (b.relevel (b.levels.setIfInBounds i lvl) occupied bid ask)
      (Function.update q i l) where
  sized := by
    have hsize : (b.levels.setIfInBounds i lvl).size = b.levels.size := by simp
    exact ⟨hsize.symm ▸ h.sized.size_ge, hsize.symm ▸ h.sized.sides, fun bid price j hj =>
      hsize.symm ▸ h.sized.over_lt bid price j hj, hbid⟩
  queue j lvl' hlvl := by
    have hlvl : (b.levels.setIfInBounds i lvl)[j]? = some lvl' := hlvl
    rw [Array.getElem?_setIfInBounds] at hlvl
    by_cases hj : j = i
    · subst hj
      rw [if_pos rfl, if_pos hi] at hlvl
      cases hlvl
      rw [Function.update_self]
      exact hqueue
    · rw [if_neg (Ne.symm hj)] at hlvl
      rw [Function.update_of_ne hj]
      exact (h.queue j lvl' hlvl).frame (hother j hj)
  outside j hj := by
    have hj : (b.levels.setIfInBounds i lvl).size ≤ j := hj
    rw [Array.size_setIfInBounds] at hj
    rw [Function.update_of_ne (by omega)]
    exact h.outside j hj

/-- Bits and best levels that fit a new list of one level. -/
theorem BookExact.relevel (h : BookExact b q) {levels : Array PriceLevel}
    (hsize : levels.size = b.levels.size) {occupied : Vector (BitVec 64) 32} {bid ask : Int}
    (hmarked : (b.remark occupied bid ask).Marked fun j => Function.update q i l j ≠ [])
    (hpriced : l ≠ [] → ∃ bid price, price < 2 ^ 32 ∧ b.levelOf bid price = some i) :
    BookExact (b.relevel levels occupied bid ask) (Function.update q i l) where
  coded := by
    refine ⟨h.coded.unset, fun bid price j hj => ?_, h.coded.over_inj⟩
    have hold := h.coded.outside bid price j hj
    exact ⟨hold.1, hsize.symm ▸ hold.2.1, hold.2.2⟩
  marked := ⟨hmarked.bits, hmarked.bid, hmarked.ask⟩
  priced j hj := by
    by_cases hji : j = i
    · subst hji
      rw [Function.update_self] at hj
      exact hpriced hj
    · rw [Function.update_of_ne hji] at hj
      exact h.priced j hj

/-- `link_order` appends a node to a level. -/
theorem link_order_spec (h : BookShape p b q) (hi : i < b.levels.size)
    (hnodes : Nodes p (q i ++ [x])) (hother : ∀ j, j ≠ i → ∀ y ∈ q j, y ∉ q i ++ [x])
    {qty : Nat} (hqty : qty < 2 ^ 32) :
    ∃ levels occupied bid ask p', b.linkOrder p i x qty =
        some (b.relevel levels occupied bid ask, p') ∧
      BookShape p' (b.relevel levels occupied bid ask) (Function.update q i (q i ++ [x])) ∧
      (BookExact b q → i < 2 ^ 31 →
        (∃ bid price, price < 2 ^ 32 ∧ b.levelOf bid price = some i) →
        BookExact (b.relevel levels occupied bid ask) (Function.update q i (q i ++ [x]))) ∧
      levels.size = b.levels.size ∧ Touched p p' (q i ++ [x]) ∧ p'.freeHead = p.freeHead ∧
      (p'.get x).qty = qty ∧ ∀ y, y ≠ x → (p'.get y).qty = (p.get y).qty := by
  have hlvl : b.levels[i]? = some b.levels[i] := Array.getElem?_eq_getElem hi
  obtain ⟨p', lvl', hpush, hqueue, htouched, hfree, hx, hsame⟩ :=
    push_back_spec (h.queue i _ hlvl) hnodes hqty
  obtain ⟨c, hc⟩ : ∃ c, { b with levels := b.levels.setIfInBounds i lvl' } = c := ⟨_, rfl⟩
  obtain ⟨occupied, bid, ask, hoccupy, hbid⟩ := c.occupy_total i
  refine ⟨b.levels.setIfInBounds i lvl', occupied, bid, ask, p', ?_,
    h.relevel hi hqueue (fun j hj y hy => htouched.get_eq y (hother j hj y hy)) _
      (hbid (hc ▸ h.sized.bid_lt)) _, fun hexact hlt hpriced => ?_, by simp, htouched, hfree, hx,
    hsame⟩
  · simp only [linkOrder, hlvl, hpush, hc, hoccupy, Option.bind_eq_bind, Option.bind_some]
    rw [← hc]
    rfl
  · -- The level has an order now, whether or not it had one before.
    have hmarked : c.Marked fun j => q j ≠ [] :=
      hc ▸ ⟨hexact.marked.bits, hexact.marked.bid, hexact.marked.ask⟩
    obtain ⟨occupied', bid', ask', hoccupy', hmarked'⟩ := occupy_spec hmarked hlt
    rw [← hoccupy', hoccupy, ← hc] at hmarked'
    refine hexact.relevel (by simp) ?_ fun _ => hpriced
    refine Marked.congr ⟨hmarked'.bits, hmarked'.bid, hmarked'.ask⟩ fun j => ?_
    by_cases hj : j = i
    · subst hj
      simp
    · simp [hj]

/-- `unlink_order` takes a node out of its level. -/
theorem unlink_order_spec (h : BookShape p b q) (hq : q i = l ++ x :: m)
    (hnodes : Nodes p (l ++ x :: m)) (hother : ∀ j, j ≠ i → ∀ y ∈ q j, y ∉ l ++ x :: m) :
    ∃ levels occupied bid ask p', b.unlinkOrder p x =
        some (b.relevel levels occupied bid ask, p') ∧
      BookShape p' (b.relevel levels occupied bid ask) (Function.update q i (l ++ m)) ∧
      (BookExact b q → i < 2 ^ 31 →
        BookExact (b.relevel levels occupied bid ask) (Function.update q i (l ++ m))) ∧
      levels.size = b.levels.size ∧ Touched p p' (l ++ m) ∧ p'.freeHead = p.freeHead ∧
      ∀ y, (p'.get y).qty = (p.get y).qty := by
  have hi : i < b.levels.size := h.lt_size (by simp [hq])
  have hlvl : b.levels[i]? = some b.levels[i] := Array.getElem?_eq_getElem hi
  have hqueue := h.queue i _ hlvl
  rw [hq] at hqueue
  have hindex : (p.get x).levelIdx = i := hqueue.index x (by simp)
  obtain ⟨p', lvl', hremove, hqueue', htouched, hfree, hsame⟩ := remove_spec hqueue hnodes
  have hsub : ∀ y ∈ l ++ m, y ∈ l ++ x :: m := by
    intro y hy
    simp only [List.mem_append, List.mem_cons] at hy ⊢
    tauto
  have hnodes' : Nodes p' (l ++ m) := by
    refine ⟨?_, fun y hy => htouched.size_eq ▸ hnodes.lt_size y (hsub y hy), fun hy =>
      hnodes.ne_null (hsub _ hy)⟩
    exact (List.nodup_middle.mp hnodes.nodup).of_cons
  have hframe : ∀ j, j ≠ i → ∀ y ∈ q j, p'.get y = p.get y := fun j hj y hy =>
    htouched.get_eq y fun hmem => hother j hj y hy (hsub y hmem)
  have hhead := hqueue'.head_eq_null_iff hnodes'
  obtain ⟨c, hc⟩ : ∃ c, { b with levels := b.levels.setIfInBounds i lvl' } = c := ⟨_, rfl⟩
  have hmarked (hexact : BookExact b q) : c.Marked fun j => q j ≠ [] :=
    hc ▸ ⟨hexact.marked.bits, hexact.marked.bid, hexact.marked.ask⟩
  -- A level that becomes empty loses its bit; on any other nothing else changes.
  by_cases hempty : l ++ m = []
  · obtain ⟨occupied, bid, ask, hvacate, hbid⟩ :=
      vacate_total (b := c) (hc ▸ h.sized.bid_lt) i
    refine ⟨b.levels.setIfInBounds i lvl', occupied, bid, ask, p', ?_,
      h.relevel hi hqueue' hframe _ hbid _, fun hexact hlt => ?_, by simp, htouched, hfree, hsame⟩
    · simp only [unlinkOrder, slots_get (hnodes.lt_size x (by simp)), hindex, hlvl, hremove,
        hhead.mpr hempty, hc, hvacate, if_true, Option.bind_eq_bind, Option.bind_some]
      rw [← hc]
      rfl
    · obtain ⟨occupied', bid', ask', hvacate', hmarked'⟩ := vacate_spec (hmarked hexact) hlt
      rw [← Option.some.inj (hvacate.symm.trans hvacate'), ← hc] at hmarked'
      refine hexact.relevel (by simp) ?_ fun _ => hexact.priced i (by simp [hq])
      refine Marked.congr ⟨hmarked'.bits, hmarked'.bid, hmarked'.ask⟩ fun j => ?_
      by_cases hj : j = i
      · subst hj
        simp [hempty]
      · simp [hj]
  · refine ⟨b.levels.setIfInBounds i lvl', b.occupied, b.bestBidIdx, b.bestAskIdx, p', ?_,
      h.relevel hi hqueue' hframe _ h.sized.bid_lt _, fun hexact _ => ?_, by simp, htouched, hfree,
      hsame⟩
    · simp only [unlinkOrder, slots_get (hnodes.lt_size x (by simp)), hindex, hlvl, hremove,
        if_neg (mt hhead.mp hempty), Option.bind_eq_bind, Option.bind_some]
      rfl
    · refine hexact.relevel (by simp) (hexact.marked.congr fun j => ?_)
        fun _ => hexact.priced i (by simp [hq])
      by_cases hj : j = i
      · subst hj
        simp [hempty, hq]
      · simp [hj]

/-- A partial execution changes one quantity, in the node and in its level. -/
theorem reduce_level_spec (h : BookShape p b q) (hq : q i = l ++ x :: m)
    (hnodes : Nodes p (l ++ x :: m)) (hother : ∀ j, j ≠ i → ∀ y ∈ q j, y ∉ l ++ x :: m)
    {qty : Nat} (hqty : qty ≤ (p.get x).qty) :
    ∃ lvl, b.levels[i]? = some lvl ∧
      BookShape (p.write x fun o => { o with qty := sub32 o.qty qty })
        { b with levels :=
          b.levels.setIfInBounds i { lvl with totalQty := sub32 lvl.totalQty qty } } q := by
  have hi : i < b.levels.size := h.lt_size (by simp [hq])
  have hlvl : b.levels[i]? = some b.levels[i] := Array.getElem?_eq_getElem hi
  have hqueue := h.queue i _ hlvl
  rw [hq] at hqueue
  have hx := hnodes.lt_size x (by simp)
  refine ⟨_, hlvl, ?_⟩
  have hframe : ∀ j, j ≠ i → ∀ y ∈ q j,
      (p.write x fun o => { o with qty := sub32 o.qty qty }).get y = p.get y := by
    intro j hj y hy
    rw [get_write hx, if_neg fun hyx => hother j hj y hy (by simp [hyx])]
  have hbook := h.relevel hi (reduce_spec hqueue hnodes hqty) hframe b.occupied h.sized.bid_lt
    b.bestAskIdx
  rwa [← hq, Function.update_eq_self] at hbook

/-- The records of the levels do not matter for the indices and bits. -/
theorem BookExact.set_levels (h : BookExact b q) {levels : Array PriceLevel}
    (hsize : levels.size = b.levels.size) : BookExact { b with levels := levels } q := by
  have hpriced : q 0 ≠ [] → ∃ bid price, price < 2 ^ 32 ∧ b.levelOf bid price = some 0 :=
    h.priced 0
  have hmarked : b.Marked fun j => Function.update q 0 (q 0) j ≠ [] := by
    rw [Function.update_eq_self]
    exact h.marked
  have hbook := h.relevel hsize hmarked hpriced
  rwa [Function.update_eq_self] at hbook

/-- A new book has no orders. -/
theorem book_shape_new (p : OrderPool) : BookShape p OrderBook.new fun _ => [] where
  sized := sized_new
  queue i lvl hlvl := by
    obtain ⟨hlt, hlvl⟩ := Array.getElem?_eq_some_iff.mp hlvl
    have hempty : lvl = PriceLevel.empty := by
      rw [← hlvl]
      simp [OrderBook.new]
    exact hempty ▸ queue_empty p i
  outside _ _ := rfl

theorem book_exact_new : BookExact OrderBook.new fun _ => [] where
  coded := coded_new
  marked := ⟨fun i hi => by
      have hbit : OrderBook.new.occBit i = false := by
        have hword : OrderBook.new.words (i / 64) = 0#64 := by
          by_cases hw : i / 64 < 32 <;> simp [words, OrderBook.new, hw]
        rw [occ_bit_eq, hword, BitVec.getLsbD_zero]
      simp [hbit],
    .inl ⟨rfl, by simp⟩, .inl ⟨rfl, by simp⟩⟩
  priced i hi := absurd rfl hi

end Book

end FeedHandler.V3
