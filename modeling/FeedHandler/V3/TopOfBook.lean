import FeedHandler.V3.View

/-!
# The top of a v3 book

`best_bid_ask` merges the cached best level of the window with a scan of the overflow levels.
`best_bid_ask_spec` says that the answer is the top of book, for all prices in either region.
-/

namespace FeedHandler.V3

open Itch Book OrderBook OrderPool

section Merge

variable {s t : Set Nat}

/-- The better bid of the window and of the overflow levels. -/
def betterBid : Option Nat → Option Nat → Option Nat
  | some p, some q => some (if q > p then q else p)
  | none, far => far
  | bid, none => bid

/-- The better ask of the window and of the overflow levels. -/
def betterAsk : Option Nat → Option Nat → Option Nat
  | some p, some q => some (if q < p then q else p)
  | none, far => far
  | ask, none => ask

theorem better_bid_highest {w o : Option Nat} (hw : Highest s w) (ho : Highest t o) :
    Highest (s ∪ t) (betterBid w o) := by
  cases w with
  | none =>
      have hs : s = ∅ := hw
      rw [hs, Set.empty_union]
      exact ho
  | some p =>
      cases o with
      | none =>
          have ht : t = ∅ := ho
          rw [ht, Set.union_empty]
          exact hw
      | some q =>
          have hmax := hw.union ho
          have heq : max p q = if q > p then q else p := by
            split <;> omega
          rwa [heq] at hmax

theorem better_ask_lowest {w o : Option Nat} (hw : Lowest s w) (ho : Lowest t o) :
    Lowest (s ∪ t) (betterAsk w o) := by
  cases w with
  | none =>
      have hs : s = ∅ := hw
      rw [hs, Set.empty_union]
      exact ho
  | some p =>
      cases o with
      | none =>
          have ht : t = ∅ := ho
          rw [ht, Set.union_empty]
          exact hw
      | some q =>
          have hmin := hw.union ho
          have heq : min p q = if q < p then q else p := by
            split <;> omega
          rwa [heq] at hmin

end Merge

section Best

variable {s : Shared} {b : OrderBook} {q : Nat → List Nat} {bid : Bool} {price i : Nat}

/-- The parts of `best_bid_ask`. -/
theorem best_bid_ask_eq {bid far ask farAsk : Option Nat}
    (hbid : (if b.bestBidIdx ≥ 0 then (b.priceOf b.bestBidIdx.toNat).map some else some none) =
      some bid)
    (hfar : b.firstOccupied b.overflowBid.entries.reverse = some far)
    (hask : (if b.bestAskIdx ≥ 0 then (b.priceOf b.bestAskIdx.toNat).map some else some none) =
      some ask)
    (hoverAsk : b.firstOccupied b.overflowAsk.entries = some farAsk) :
    b.bestBidAsk = some (both (betterBid bid far) (betterAsk ask farAsk)) := by
  unfold bestBidAsk
  by_cases hb : b.bestBidIdx ≥ 0 <;> by_cases ha : b.bestAskIdx ≥ 0 <;>
    simp only [hb, ha, if_true, if_false] at hbid hask <;>
    simp only [hb, ha, if_true, if_false, hbid, hask, hfar, hoverAsk, Option.map_some,
      Option.bind_eq_bind, Option.bind_some] <;>
    cases bid <;> cases far <;> cases ask <;> cases farAsk <;>
    first | rfl | (simp at hask; done) | simp at hbid

/-- The scan of overflow levels stops at the first one that holds an order. -/
theorem first_occupied_spec (hnull : ∀ i, i < b.levels.size →
      ∃ lvl, b.levels[i]? = some lvl ∧ (lvl.headIdx = kNullIdx ↔ q i = []))
    {r : Nat → Nat → Prop} {entries : List (Nat × Nat)}
    (hlt : ∀ e ∈ entries, e.2 < b.levels.size)
    (hsorted : entries.Pairwise fun e e' => r e.1 e'.1) :
    ∃ far, b.firstOccupied entries = some far ∧ match far with
      | none => ∀ e ∈ entries, q e.2 = []
      | some p => (∃ e ∈ entries, e.1 = p ∧ q e.2 ≠ []) ∧
          ∀ e ∈ entries, q e.2 ≠ [] → e.1 = p ∨ r p e.1 := by
  induction entries with
  | nil => exact ⟨none, rfl, by simp⟩
  | cons e entries ih =>
      obtain ⟨price, idx⟩ := e
      obtain ⟨hfirst, hrest⟩ := List.pairwise_cons.mp hsorted
      obtain ⟨lvl, hlvl, hhead⟩ := hnull idx (hlt _ List.mem_cons_self)
      by_cases hempty : q idx = []
      · obtain ⟨far, hfar, hspec⟩ := ih (fun e he => hlt e (.tail _ he)) hrest
        refine ⟨far, ?_, ?_⟩
        · simp only [firstOccupied, hlvl, Option.bind_eq_bind, Option.bind_some,
            hhead.mpr hempty, ne_eq, not_true, if_false, hfar]
        · cases far with
          | none => simpa [hempty] using hspec
          | some p =>
              obtain ⟨⟨e, he, hp, hq⟩, hbest⟩ := hspec
              refine ⟨⟨e, .tail _ he, hp, hq⟩, fun e' he' hq' => ?_⟩
              rcases List.mem_cons.mp he' with rfl | he'
              · exact absurd hempty hq'
              · exact hbest e' he' hq'
      · refine ⟨some price, ?_, ⟨_, List.mem_cons_self, rfl, hempty⟩, fun e he _ => ?_⟩
        · simp only [firstOccupied, hlvl, Option.bind_eq_bind, Option.bind_some,
            mt hhead.mp hempty, ne_eq, not_false_iff, if_true]
          rfl
        · rcases List.mem_cons.mp he with rfl | he
          · exact .inl rfl
          · exact .inr (hfirst e he)

/-- The prices of a side at which orders rest in the window. -/
def windowPrices (b : OrderBook) (q : Nat → List Nat) (bid : Bool) : Set Nat :=
  {p | ∃ i, i < 2 * kWindow ∧ b.levelOf bid p = some i ∧ q i ≠ []}

/-- The prices of a side at which orders rest on overflow levels. -/
def overflowPrices (b : OrderBook) (q : Nat → List Nat) (bid : Bool) : Set Nat :=
  {p | ∃ i, 2 * kWindow ≤ i ∧ b.levelOf bid p = some i ∧ q i ≠ []}

theorem prices_eq (s : Shared) (b : OrderBook) (q : Nat → List Nat) (bid : Bool) :
    prices (viewOf s b q).queue bid = windowPrices b q bid ∪ overflowPrices b q bid := by
  ext p
  simp only [prices, windowPrices, overflowPrices, Set.mem_union, Set.mem_ofPred_eq]
  cases hi : b.levelOf bid p with
  | none => simp [queue_of_no_level hi]
  | some i =>
      rw [queue_of_level hi]
      constructor
      · intro hq
        rcases Nat.lt_or_ge i (2 * kWindow) with hlt | hge
        · exact .inl ⟨i, hlt, rfl, hq⟩
        · exact .inr ⟨i, hge, rfl, hq⟩
      · rintro (⟨j, _, hj, hq⟩ | ⟨j, _, hj, hq⟩) <;> cases hj <;> exact hq

/-- An overflow level with orders belongs to the side of its map. -/
theorem level_of_overflow (h : BookExact b q) (hfind : (b.overflowOf bid).find? price = some i)
    (hi : q i ≠ []) : b.levelOf bid price = some i := by
  obtain ⟨bid', price', _, hlevel⟩ := h.priced i hi
  obtain ⟨hset, _⟩ := level_of_cases hlevel
  rw [levelOf, if_pos hset, (h.coded.outside bid price i hfind).2.2.1]
  exact hfind

/-- The best bid of the window. -/
theorem window_bid_highest (h : BookExact b q) :
    ∃ w, (if b.bestBidIdx ≥ 0 then (b.priceOf b.bestBidIdx.toNat).map some else some none) =
      some w ∧ Highest (windowPrices b q true) w := by
  rcases h.marked.bid with ⟨hbest, hnone⟩ | ⟨n, hbest, ⟨hn, hq⟩, hmax⟩
  · refine ⟨none, by rw [hbest]; rfl, Set.eq_empty_iff_forall_notMem.mpr ?_⟩
    intro p hgiven
    obtain ⟨i, hlt, hlevel, hi⟩ := hgiven
    obtain ⟨off, hoff, rfl, _⟩ := window_level h.coded hlevel hlt
    exact hnone i ⟨hoff, hi⟩
  · obtain ⟨bid, price, hprice, hlevel⟩ := h.priced n hq
    have hwindow : n < 2 * kWindow := by
      simp only [kAskBase] at hn
      omega
    obtain ⟨off, hoff, hcode, hcent, hbase⟩ := window_level h.coded hlevel hwindow
    cases bid
    · have hn : n < kAskBase := hn
      simp only [Bool.false_eq_true, if_false] at hcode
      omega
    · have hcode : n = off := hcode
      subst hcode
      refine ⟨some price, ?_, ⟨n, hwindow, hlevel, hq⟩, ?_⟩
      · rw [hbest, if_pos (by omega), Int.toNat_natCast, h.coded.price_of hprice hlevel]
        rfl
      · intro p hgiven
        obtain ⟨i, hlt, hlevel', hi⟩ := hgiven
        obtain ⟨off', hoff', rfl, hcent', hbase'⟩ := window_level h.coded hlevel' hlt
        have hle := hmax ⟨hoff', hi⟩
        omega

/-- The best ask of the window. -/
theorem window_ask_lowest (h : BookExact b q) :
    ∃ w, (if b.bestAskIdx ≥ 0 then (b.priceOf b.bestAskIdx.toNat).map some else some none) =
      some w ∧ Lowest (windowPrices b q false) w := by
  rcases h.marked.ask with ⟨hbest, hnone⟩ | ⟨n, hbest, ⟨hge, hwindow, hq⟩, hmin⟩
  · refine ⟨none, by rw [hbest]; rfl, Set.eq_empty_iff_forall_notMem.mpr ?_⟩
    intro p hgiven
    obtain ⟨i, hlt, hlevel, hi⟩ := hgiven
    obtain ⟨off, hoff, rfl, _⟩ := window_level h.coded hlevel hlt
    exact hnone _ ⟨Nat.le_add_right _ _, hlt, hi⟩
  · obtain ⟨bid, price, hprice, hlevel⟩ := h.priced n hq
    obtain ⟨off, hoff, hcode, hcent, hbase⟩ := window_level h.coded hlevel hwindow
    cases bid
    · have hcode : n = kAskBase + off := hcode
      subst hcode
      refine ⟨some price, ?_, ⟨_, hwindow, hlevel, hq⟩, ?_⟩
      · rw [hbest, if_pos (by omega), Int.toNat_natCast, h.coded.price_of hprice hlevel]
        rfl
      · intro p hgiven
        obtain ⟨i, hlt, hlevel', hi⟩ := hgiven
        obtain ⟨off', hoff', rfl, hcent', hbase'⟩ := window_level h.coded hlevel' hlt
        have hle := hmin ⟨Nat.le_add_right _ _, hlt, hi⟩
        omega
    · have hge : kAskBase ≤ n := hge
      have hcode : n = off := hcode
      simp only [kAskBase] at hge
      omega

/-- The scan of the overflow levels of a side, in the order of the scan. -/
theorem overflow_best_spec (h : BookExact b q) (hnull : ∀ i, i < b.levels.size →
      ∃ lvl, b.levels[i]? = some lvl ∧ (lvl.headIdx = kNullIdx ↔ q i = []))
    {r : Nat → Nat → Prop} {entries : List (Nat × Nat)}
    (hmem : ∀ e, e ∈ entries ↔ (b.overflowOf bid).find? e.1 = some e.2)
    (hsorted : entries.Pairwise fun e e' => r e.1 e'.1) :
    ∃ far, b.firstOccupied entries = some far ∧ match far with
      | none => overflowPrices b q bid = ∅
      | some price => price ∈ overflowPrices b q bid ∧
          ∀ p ∈ overflowPrices b q bid, p = price ∨ r price p := by
  obtain ⟨far, hfar, hspec⟩ := first_occupied_spec hnull
    (fun e he => (h.coded.outside bid e.1 e.2 ((hmem e).mp he)).2.1) hsorted
  refine ⟨far, hfar, ?_⟩
  cases far with
  | none =>
      refine Set.eq_empty_iff_forall_notMem.mpr ?_
      intro p hgiven
      obtain ⟨i, hge, hlevel, hi⟩ := hgiven
      exact hi (hspec (p, i) ((hmem _).mpr (overflow_level hlevel hge)))
  | some price =>
      obtain ⟨⟨⟨p, i⟩, he, rfl, hi⟩, hbest⟩ := hspec
      have hfind := (hmem _).mp he
      refine ⟨⟨i, (h.coded.outside bid p i hfind).1, level_of_overflow h hfind hi, hi⟩, ?_⟩
      intro p' hgiven
      obtain ⟨i', hge, hlevel, hi'⟩ := hgiven
      exact hbest (p', i') ((hmem _).mpr (overflow_level hlevel hge)) hi'

/-- The best bid of the overflow levels. -/
theorem overflow_bid_highest (h : BookExact b q) (hnull : ∀ i, i < b.levels.size →
      ∃ lvl, b.levels[i]? = some lvl ∧ (lvl.headIdx = kNullIdx ↔ q i = [])) :
    ∃ far, b.firstOccupied b.overflowBid.entries.reverse = some far ∧
      Highest (overflowPrices b q true) far := by
  have hmem : ∀ e, e ∈ b.overflowBid.entries.reverse ↔ (b.overflowOf true).find? e.1 = some e.2 :=
    fun e => List.mem_reverse.trans (OrderedMap.mem_entries_iff _)
  obtain ⟨far, hfar, hspec⟩ := overflow_best_spec h hnull (r := (· > ·)) hmem
    (List.pairwise_reverse.mpr b.overflowBid.sorted)
  refine ⟨far, hfar, ?_⟩
  cases far with
  | none => exact hspec
  | some price =>
      obtain ⟨hprice, hbest⟩ := hspec
      refine ⟨hprice, fun p hp => ?_⟩
      rcases hbest p hp with heq | hgt
      · exact Nat.le_of_eq heq
      · exact Nat.le_of_lt hgt

/-- The best ask of the overflow levels. -/
theorem overflow_ask_lowest (h : BookExact b q) (hnull : ∀ i, i < b.levels.size →
      ∃ lvl, b.levels[i]? = some lvl ∧ (lvl.headIdx = kNullIdx ↔ q i = [])) :
    ∃ far, b.firstOccupied b.overflowAsk.entries = some far ∧
      Lowest (overflowPrices b q false) far := by
  have hmem : ∀ e, e ∈ b.overflowAsk.entries ↔ (b.overflowOf false).find? e.1 = some e.2 :=
    fun e => OrderedMap.mem_entries_iff _
  obtain ⟨far, hfar, hspec⟩ := overflow_best_spec h hnull (r := (· < ·)) hmem b.overflowAsk.sorted
  refine ⟨far, hfar, ?_⟩
  cases far with
  | none => exact hspec
  | some price =>
      obtain ⟨hprice, hbest⟩ := hspec
      refine ⟨hprice, fun p hp => ?_⟩
      rcases hbest p hp with heq | hlt
      · exact Nat.le_of_eq heq.symm
      · exact Nat.le_of_lt hlt

/-- The answer of `best_bid_ask`. -/
theorem best_bid_ask_spec (hshape : BookShape s.pool b q) (hexact : BookExact b q)
    (hnodes : ∀ i, Nodes s.pool (q i)) :
    ∃ r, b.bestBidAsk = some r ∧
      TopOfBook (prices (viewOf s b q).queue true) (prices (viewOf s b q).queue false) r := by
  have hnull : ∀ i, i < b.levels.size →
      ∃ lvl, b.levels[i]? = some lvl ∧ (lvl.headIdx = kNullIdx ↔ q i = []) := fun i hi =>
    ⟨_, Array.getElem?_eq_getElem hi,
      (hshape.queue i _ (Array.getElem?_eq_getElem hi)).head_eq_null_iff (hnodes i)⟩
  obtain ⟨bid, hbid, hbidHigh⟩ := window_bid_highest hexact
  obtain ⟨ask, hask, haskLow⟩ := window_ask_lowest hexact
  obtain ⟨far, hfar, hoverHigh⟩ := overflow_bid_highest hexact hnull
  obtain ⟨farAsk, hoverAsk, hoverLow⟩ := overflow_ask_lowest hexact hnull
  refine ⟨_, best_bid_ask_eq hbid hfar hask hoverAsk, ?_⟩
  rw [prices_eq, prices_eq]
  exact top_of_book (better_bid_highest hbidHigh hoverHigh) (better_ask_lowest haskLow hoverLow)

/-- The answer of `best_bid_ask` in a store that shows orders. -/
theorem Store.Follows.best {hash : Nat → Nat} {capacity : Nat} {s : Store} {lists : Lists}
    {os : Nat → Orders} (h : s.Follows hash capacity lists os) (locate : Nat) :
    ∃ r, (s.bookOf locate).bestBidAsk = some r ∧ TopOfBook
      {p | ∃ o ∈ os locate, o.bid = true ∧ o.price = p}
      {p | ∃ o ∈ os locate, o.bid = false ∧ o.price = p} r := by
  rw [← (h.shows locate).prices_eq, ← (h.shows locate).prices_eq]
  exact best_bid_ask_spec (h.inv.book locate) (h.exact locate) fun i => h.inv.nodes rfl

end Best

end FeedHandler.V3
