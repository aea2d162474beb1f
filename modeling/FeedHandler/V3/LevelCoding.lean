import FeedHandler.V3.OrderBook

/-!
# Price levels

`level_for` codes sides and prices as level indices: prices of whole cents near the first price in
the window, all others in the overflow maps. `levelOf` is the index a side and a price have. `Sized`
says that every index is one of a level; `Coded` that different sides and prices have different
indices, which holds as long as 32 bits can number the levels. `level_for_spec` says that
`level_for` only adds indices.
-/

namespace FeedHandler.V3.OrderBook

open Itch

/-- The overflow map of the bid or the ask side. -/
def overflowOf (b : OrderBook) (bid : Bool) : OrderedMap Nat Nat :=
  if bid then b.overflowBid else b.overflowAsk

/-- The place of a price in the window. -/
def windowOffset (b : OrderBook) (price : Nat) : Option Nat :=
  let off : Int := (price / 100 : Nat) - b.baseCents
  if price % 100 = 0 ∧ 0 ≤ off ∧ off < kWindow then some off.toNat else none

/-- The index of a side and a price, if they have one. -/
def levelOf (b : OrderBook) (bid : Bool) (price : Nat) : Option Nat :=
  if b.baseSet then
    match b.windowOffset price with
    | some off => some (if bid then off else kAskBase + off)
    | none => (b.overflowOf bid).find? price
  else none

/-- The indices of a book are indices of levels. -/
structure Sized (b : OrderBook) : Prop where
  size_ge : 2 * kWindow ≤ b.levels.size
  sides : b.overflowSide.size + 2 * kWindow = b.levels.size
  over_lt : ∀ bid price i, (b.overflowOf bid).find? price = some i → i < b.levels.size
  bid_lt : b.bestBidIdx < 2 * kWindow

/-- The invariant of the coding. -/
structure Coded (b : OrderBook) : Prop where
  unset : b.baseSet = false → ∀ bid price, (b.overflowOf bid).find? price = none
  outside : ∀ bid price i, (b.overflowOf bid).find? price = some i →
    2 * kWindow ≤ i ∧ i < b.levels.size ∧ b.windowOffset price = none ∧ price < 2 ^ 32 ∧
      ∃ c, b.overflowSide[i - 2 * kWindow]? = some c ∧ isBid c = bid
  over_inj : ∀ bid price price' i, (b.overflowOf bid).find? price = some i →
    (b.overflowOf bid).find? price' = some i → price = price'

section Window

variable {b : OrderBook} {price off : Nat}

theorem window_offset_eq_some_iff :
    b.windowOffset price = some off ↔
      off < kWindow ∧ price % 100 = 0 ∧ ((price / 100 : Nat) : Int) = b.baseCents + off := by
  simp only [windowOffset]
  split
  next h =>
    rw [Option.some.injEq]
    omega
  next h =>
    simp only [reduceCtorEq, false_iff]
    intro hgiven
    obtain ⟨hoff, hcent, heq⟩ := hgiven
    exact h ⟨hcent, by omega, by omega⟩

end Window

section Coded

variable {b : OrderBook} {bid bid' : Bool} {price price' i : Nat}

/-- An index is either in the window or in the overflow maps. -/
theorem level_of_cases (h : b.levelOf bid price = some i) :
    b.baseSet = true ∧
      ((∃ off, b.windowOffset price = some off ∧ i = if bid then off else kAskBase + off) ∨
        (b.windowOffset price = none ∧ (b.overflowOf bid).find? price = some i)) := by
  unfold levelOf at h
  split at h
  next hset =>
    refine ⟨hset, ?_⟩
    cases hoff : b.windowOffset price with
    | some off =>
        rw [hoff] at h
        exact .inl ⟨off, rfl, (Option.some.inj h).symm⟩
    | none =>
        rw [hoff] at h
        exact .inr ⟨rfl, h⟩
  next => cases h

theorem Sized.level_lt (h : b.Sized) (hi : b.levelOf bid price = some i) : i < b.levels.size := by
  have hsize := h.size_ge
  obtain ⟨_, ⟨off, hoff, rfl⟩ | ⟨_, hfind⟩⟩ := level_of_cases hi
  · have hlt := (window_offset_eq_some_iff.mp hoff).1
    simp only [kWindow, kAskBase] at *
    split <;> omega
  · exact h.over_lt bid price i hfind

/-- Every level has a side. -/
theorem Sized.side_of (h : b.Sized) (hi : i < b.levels.size) : ∃ c, b.sideOf i = some c := by
  have hsides := h.sides
  unfold sideOf
  split
  next => exact ⟨_, rfl⟩
  next =>
    split
    next => exact ⟨_, rfl⟩
    next => exact ⟨_, Array.getElem?_eq_getElem (by omega)⟩

/-- Different sides or prices have different indices. -/
theorem Coded.level_inj (h : b.Coded) (hi : b.levelOf bid price = some i)
    (hi' : b.levelOf bid' price' = some i) : bid = bid' ∧ price = price' := by
  obtain ⟨_, hcase⟩ := level_of_cases hi
  obtain ⟨_, hcase'⟩ := level_of_cases hi'
  rcases hcase with ⟨off, hoff, heq⟩ | ⟨_, hfind⟩ <;>
    rcases hcase' with ⟨off', hoff', heq'⟩ | ⟨_, hfind'⟩
  · obtain ⟨hlt, hcent, hbase⟩ := window_offset_eq_some_iff.mp hoff
    obtain ⟨hlt', hcent', hbase'⟩ := window_offset_eq_some_iff.mp hoff'
    simp only [kWindow, kAskBase] at *
    cases bid <;> cases bid' <;> simp at heq heq' ⊢ <;> omega
  · have hlt := (window_offset_eq_some_iff.mp hoff).1
    have hge := (h.outside bid' price' i hfind').1
    simp only [kWindow, kAskBase] at *
    split at heq <;> omega
  · have hlt := (window_offset_eq_some_iff.mp hoff').1
    have hge := (h.outside bid price i hfind).1
    simp only [kWindow, kAskBase] at *
    split at heq' <;> omega
  · obtain ⟨_, _, _, _, c, hc, hbid⟩ := h.outside bid price i hfind
    obtain ⟨_, _, _, _, c', hc', hbid'⟩ := h.outside bid' price' i hfind'
    rw [hc] at hc'
    obtain rfl := Option.some.inj hc'
    obtain rfl : bid = bid' := hbid.symm.trans hbid'
    exact ⟨rfl, h.over_inj bid price price' i hfind hfind'⟩

theorem outside_window (h : 2 * kWindow ≤ i) : ¬ i < kAskBase ∧ ¬ i < 2 * kWindow := by
  simp only [kAskBase, kWindow] at *
  omega

/-- `side_of` gives back the side. -/
theorem Coded.side_of (h : b.Coded) (hi : b.levelOf bid price = some i) :
    ∃ c, b.sideOf i = some c ∧ isBid c = bid := by
  obtain ⟨_, ⟨off, hoff, rfl⟩ | ⟨_, hfind⟩⟩ := level_of_cases hi
  · have hlt := (window_offset_eq_some_iff.mp hoff).1
    cases bid
    · have hnotBid : ¬ kAskBase + off < kAskBase := by omega
      have hask : kAskBase + off < 2 * kWindow := by
        simp only [kAskBase]
        omega
      exact ⟨0x53, by rw [if_neg (by decide), sideOf, if_neg hnotBid, if_pos hask], by decide⟩
    · exact ⟨kBid, by rw [if_pos rfl, sideOf, if_pos (show off < kAskBase from hlt)], by decide⟩
  · obtain ⟨hge, _, _, _, c, hc, hbid⟩ := h.outside bid price i hfind
    obtain ⟨hnotBid, hnotAsk⟩ := outside_window hge
    exact ⟨c, by rw [sideOf, if_neg hnotBid, if_neg hnotAsk, hc], hbid⟩

/-- `price_of` gives back the price. -/
theorem Coded.price_of (h : b.Coded) (hprice : price < 2 ^ 32)
    (hi : b.levelOf bid price = some i) : b.priceOf i = some price := by
  obtain ⟨c, hside, hbid⟩ := h.side_of hi
  obtain ⟨_, ⟨off, hoff, rfl⟩ | ⟨_, hfind⟩⟩ := level_of_cases hi
  · obtain ⟨hlt, hcent, hbase⟩ := window_offset_eq_some_iff.mp hoff
    have hback : (((b.baseCents + off) * 100) % 2 ^ 32).toNat = price := by omega
    cases bid
    · have hnotBid : ¬ kAskBase + off < kAskBase := by omega
      have hask : kAskBase + off < 2 * kWindow := by
        simp only [kAskBase]
        omega
      rw [if_neg (by decide), priceOf, if_neg hnotBid, if_pos hask, Nat.add_sub_cancel_left, hback]
    · rw [if_pos rfl, priceOf, if_pos (show off < kAskBase from hlt), hback]
  · have hge := (h.outside bid price i hfind).1
    have hmap : b.overflow c = b.overflowOf bid := by
      rw [← hbid, overflow, overflowOf, isBid]
      simp only [decide_eq_true_eq]
    obtain ⟨hnotBid, hnotAsk⟩ := outside_window hge
    rw [priceOf, if_neg hnotBid, if_neg hnotAsk, hside, Option.bind_eq_bind, Option.bind_some,
      hmap]
    cases hentry : (b.overflowOf bid).entries.find? fun kv => decide (kv.2 = i) with
    | none =>
        have hmem := ((b.overflowOf bid).mem_entries_iff).mpr hfind
        have hno := List.find?_eq_none.mp hentry _ hmem
        simp at hno
    | some kv =>
        have hval : kv.2 = i := by simpa using List.find?_some hentry
        have hfind' := ((b.overflowOf bid).mem_entries_iff).mp (List.mem_of_find?_eq_some hentry)
        rw [hval] at hfind'
        simp only [h.over_inj bid _ _ i hfind' hfind]

/-- The place of a window level. -/
theorem window_level (h : b.Coded) (hi : b.levelOf bid price = some i) (hlt : i < 2 * kWindow) :
    ∃ off, off < kWindow ∧ i = (if bid then off else kAskBase + off) ∧ price % 100 = 0 ∧
      ((price / 100 : Nat) : Int) = b.baseCents + off := by
  obtain ⟨_, ⟨off, hoff, heq⟩ | ⟨_, hfind⟩⟩ := level_of_cases hi
  · obtain ⟨hoff, hcent, hbase⟩ := window_offset_eq_some_iff.mp hoff
    exact ⟨off, hoff, heq, hcent, hbase⟩
  · have := (h.outside bid price i hfind).1
    omega

/-- An overflow level is found in the map of its side. -/
theorem overflow_level (hi : b.levelOf bid price = some i) (hge : 2 * kWindow ≤ i) :
    (b.overflowOf bid).find? price = some i := by
  obtain ⟨_, ⟨off, hoff, heq⟩ | ⟨_, hfind⟩⟩ := level_of_cases hi
  · have hoff := (window_offset_eq_some_iff.mp hoff).1
    simp only [kWindow, kAskBase] at *
    split at heq <;> omega
  · exact hfind

end Coded

/-! ## New levels -/

/-- What `level_for` may change: it places the window at the first call and adds levels without
orders behind the existing ones. Indices are 32-bit numbers, so that a new level has an index of
its own as long as there are fewer than `2 ^ 32` levels. -/
structure Extends (b b' : OrderBook) : Prop where
  sized : b'.Sized
  based : b'.baseSet = true
  levels : b'.levels = b.levels ∨ b'.levels = b.levels.push PriceLevel.empty
  keep : ∀ bid price i, b.levelOf bid price = some i → b'.levelOf bid price = some i
  coded : b.Coded → b.levels.size < 2 ^ 32 → b'.Coded
  occupied_eq : b'.occupied = b.occupied
  bid_eq : b'.bestBidIdx = b.bestBidIdx
  ask_eq : b'.bestAskIdx = b.bestAskIdx

section LevelFor

variable {b b' b'' : OrderBook} {price : Nat} {side : UInt8}

theorem Extends.trans (h : b.Extends b') (hlevels : b'.levels = b.levels) (h' : b'.Extends b'') :
    b.Extends b'' where
  sized := h'.sized
  based := h'.based
  levels := hlevels ▸ h'.levels
  keep bid price i hi := h'.keep bid price i (h.keep bid price i hi)
  coded hcoded hsize := h'.coded (h.coded hcoded hsize) (hlevels ▸ hsize)
  occupied_eq := h'.occupied_eq.trans h.occupied_eq
  bid_eq := h'.bid_eq.trans h.bid_eq
  ask_eq := h'.ask_eq.trans h.ask_eq

/-- A call adds at most one level. -/
theorem Extends.size_le (h : b.Extends b') :
    b.levels.size ≤ b'.levels.size ∧ b'.levels.size ≤ b.levels.size + 1 := by
  rcases h.levels with heq | heq <;> rw [heq]
  · exact ⟨Nat.le_refl _, Nat.le_succ _⟩
  · rw [Array.size_push]
    exact ⟨Nat.le_succ _, Nat.le_refl _⟩

/-- A book whose window has been placed. -/
theorem Sized.extends_self (h : b.Sized) (hset : b.baseSet = true) : b.Extends b :=
  ⟨h, hset, .inl rfl, fun _ _ _ => id, fun hcoded _ => hcoded, rfl, rfl, rfl⟩

/-- Placing the window. -/
theorem set_base_spec (h : b.Sized) (price : Nat) :
    b.Extends (b.setBase price) ∧ (b.setBase price).levels = b.levels := by
  unfold setBase
  split
  next hset => exact ⟨h.extends_self hset, rfl⟩
  next hset =>
    have hunset : b.baseSet = false := by simpa using hset
    have hnone : ∀ bid price, b.levelOf bid price = none := fun bid price => by
      rw [levelOf, if_neg hset]
    refine ⟨⟨⟨h.size_ge, h.sides, h.over_lt, h.bid_lt⟩, rfl, .inl rfl, ?_, fun hcoded _ => ?_, rfl,
      rfl, rfl⟩, rfl⟩
    · intro bid p i hi
      rw [hnone] at hi
      cases hi
    · have hempty : ∀ bid p i, (b.overflowOf bid).find? p ≠ some i := by
        intro bid p i hi
        rw [hcoded.unset hunset] at hi
        cases hi
      refine ⟨fun hfalse => ?_, ?_, ?_⟩
      · cases hfalse
      · exact fun bid p i hi => absurd hi (hempty bid p i)
      · exact fun bid p _ i hi => absurd hi (hempty bid p i)

/-- The overflow maps after a fresh level. -/
theorem overflow_of_push_level (b : OrderBook) (price : Nat) (side : UInt8) (bid : Bool) :
    (b.pushLevel price side).1.overflowOf bid =
      if bid = isBid side then (b.overflowOf bid).assign price (b.levels.size % 2 ^ 32)
      else b.overflowOf bid := by
  unfold pushLevel overflowOf isBid
  by_cases hside : side = kBid <;> cases bid <;> simp [hside]

/-- The book `b'` is `b` with one more level, which the map of `side` names for `price`. -/
structure Pushed (b b' : OrderBook) (price idx : Nat) (side : UInt8) : Prop where
  levels : b'.levels = b.levels.push PriceLevel.empty
  sides : b'.overflowSide = b.overflowSide.push side
  base_eq : b'.baseCents = b.baseCents
  set_eq : b'.baseSet = b.baseSet
  occupied_eq : b'.occupied = b.occupied
  bid_eq : b'.bestBidIdx = b.bestBidIdx
  ask_eq : b'.bestAskIdx = b.bestAskIdx
  index : idx = b.levels.size % 2 ^ 32
  find_of : ∀ bid p, (b'.overflowOf bid).find? p =
    if bid = isBid side ∧ p = price then some idx else (b.overflowOf bid).find? p

theorem push_level_pushed (b : OrderBook) (price : Nat) (side : UInt8) :
    b.Pushed (b.pushLevel price side).1 price (b.pushLevel price side).2 side := by
  have hover := b.overflow_of_push_level price side
  have hindex : (b.pushLevel price side).2 = b.levels.size % 2 ^ 32 := by
    rw [pushLevel]
    split <;> rfl
  obtain ⟨hlevels, hsides, hbase, hset, hoccupied, hbid, hask⟩ :
      (b.pushLevel price side).1.levels = b.levels.push PriceLevel.empty ∧
      (b.pushLevel price side).1.overflowSide = b.overflowSide.push side ∧
      (b.pushLevel price side).1.baseCents = b.baseCents ∧
      (b.pushLevel price side).1.baseSet = b.baseSet ∧
      (b.pushLevel price side).1.occupied = b.occupied ∧
      (b.pushLevel price side).1.bestBidIdx = b.bestBidIdx ∧
      (b.pushLevel price side).1.bestAskIdx = b.bestAskIdx := by
    rw [pushLevel]
    split <;> exact ⟨rfl, rfl, rfl, rfl, rfl, rfl, rfl⟩
  refine ⟨hlevels, hsides, hbase, hset, hoccupied, hbid, hask, hindex, fun bid p => ?_⟩
  rw [hover, hindex]
  by_cases hside : bid = isBid side <;> simp [hside, OrderedMap.find_assign]

section Pushed

variable {idx : Nat}

theorem Pushed.size_eq (h : b.Pushed b' price idx side) :
    b'.levels.size = b.levels.size + 1 := by
  rw [h.levels, Array.size_push]

theorem Pushed.window_offset (h : b.Pushed b' price idx side) (p : Nat) :
    b'.windowOffset p = b.windowOffset p := by
  rw [windowOffset, windowOffset, h.base_eq]

/-- The fresh level has a code, and every other code is what it was. -/
theorem Pushed.level_of (h : b.Pushed b' price idx side) (hset : b.baseSet = true)
    (hoff : b.windowOffset price = none) (bid : Bool) (p : Nat) :
    b'.levelOf bid p =
      if bid = isBid side ∧ p = price then some idx else b.levelOf bid p := by
  simp only [levelOf, h.set_eq, hset, if_true, h.window_offset]
  by_cases hp : p = price
  · subst hp
    rw [hoff, h.find_of]
  · cases b.windowOffset p with
    | some off => simp [hp]
    | none => simp [h.find_of, hp]

theorem Pushed.sized (h : b.Pushed b' price idx side) (hsized : b.Sized) : b'.Sized where
  size_ge := by
    have hge := hsized.size_ge
    rw [h.size_eq]
    omega
  sides := by
    have hsides := hsized.sides
    rw [h.size_eq, h.sides, Array.size_push]
    omega
  over_lt := by
    intro bid p i hi
    rw [h.find_of] at hi
    rw [h.size_eq]
    split at hi
    next =>
      cases hi
      have hindex := h.index
      omega
    next =>
      have hlt := hsized.over_lt bid p i hi
      omega
  bid_lt := h.bid_eq ▸ hsized.bid_lt

/-- As long as the number of levels fits in an index, the fresh index is behind all the others, so
that no two prices of a side share one. -/
theorem Pushed.coded (h : b.Pushed b' price idx side) (hsized : b.Sized) (hset : b.baseSet = true)
    (hprice : price < 2 ^ 32) (hoff : b.windowOffset price = none) (hcoded : b.Coded)
    (hsize : b.levels.size < 2 ^ 32) : b'.Coded := by
  have hidx : idx = b.levels.size := h.index.trans (Nat.mod_eq_of_lt hsize)
  subst hidx
  have hsidesize := hsized.sides
  refine ⟨?_, ?_, ?_⟩
  · rw [h.set_eq, hset]
    intro hfalse
    cases hfalse
  · intro bid p i hi
    rw [h.find_of] at hi
    rw [h.window_offset, h.size_eq, h.sides]
    split at hi
    next hnew =>
      cases hi
      refine ⟨hsized.size_ge, Nat.lt_succ_self _, hnew.2 ▸ hoff, hnew.2 ▸ hprice, side, ?_,
        hnew.1.symm⟩
      rw [← hsidesize, Nat.add_sub_cancel, Array.getElem?_push_size]
    next hold =>
      obtain ⟨hge, hlt, hnone, hp, c, hc, hbid⟩ := hcoded.outside bid p i hi
      refine ⟨hge, Nat.lt_succ_of_lt hlt, hnone, hp, c, ?_, hbid⟩
      obtain ⟨hk, _⟩ := Array.getElem?_eq_some_iff.mp hc
      rw [Array.getElem?_push, if_neg (by omega), hc]
  · -- Two prices with one index: both fresh, both old, or an old index equal to the size.
    intro bid p p' i hi hi'
    rw [h.find_of] at hi hi'
    split at hi <;> split at hi'
    next hnew hnew' => exact hnew.2.trans hnew'.2.symm
    next hnew _ =>
      cases hi
      have := (hcoded.outside bid p' _ hi').2.1
      omega
    next _ hnew' =>
      cases hi'
      have := (hcoded.outside bid p _ hi).2.1
      omega
    next => exact hcoded.over_inj bid p p' i hi hi'

end Pushed

/-- A fresh overflow level for a price that has none. -/
theorem push_level_spec (h : b.Sized) (hset : b.baseSet = true) (hprice : price < 2 ^ 32)
    (hoff : b.windowOffset price = none)
    (hfind : (b.overflowOf (isBid side)).find? price = none) :
    b.Extends (b.pushLevel price side).1 ∧
      (b.pushLevel price side).1.levelOf (isBid side) price = some (b.pushLevel price side).2 := by
  have hpushed := b.push_level_pushed price side
  have hlevelOf := hpushed.level_of hset hoff
  refine ⟨⟨hpushed.sized h, hpushed.set_eq.trans hset, .inr hpushed.levels, fun bid p i hi => ?_,
    hpushed.coded h hset hprice hoff, hpushed.occupied_eq, hpushed.bid_eq, hpushed.ask_eq⟩, ?_⟩
  · rw [hlevelOf, if_neg]
    · exact hi
    · -- A code that is kept is not the fresh one: its price had no level.
      intro hboth
      obtain ⟨rfl, rfl⟩ := hboth
      rw [levelOf, if_pos hset, hoff] at hi
      simp only [hfind] at hi
      cases hi
  · rw [hlevelOf, if_pos ⟨rfl, rfl⟩]

/-- `level_for` returns the index of the side and the price, new or not. -/
theorem level_for_spec (side : UInt8) (h : b.Sized) (hprice : price < 2 ^ 32) :
    b.Extends (b.levelFor price side).1 ∧
      (b.levelFor price side).1.levelOf (isBid side) price = some (b.levelFor price side).2 := by
  obtain ⟨hext, hlevels⟩ := set_base_spec h price
  have hset := hext.based
  have hsized := hext.sized
  unfold levelFor
  obtain ⟨c, hc⟩ : ∃ c, b.setBase price = c := ⟨_, rfl⟩
  rw [hc] at hext hlevels hset hsized ⊢
  simp only
  split
  next hin =>
    refine ⟨hext, ?_⟩
    have hoff : c.windowOffset price = some ((price / 100 : Nat) - c.baseCents : Int).toNat :=
      if_pos hin
    rw [levelOf, if_pos hset, hoff]
    simp only [isBid, decide_eq_true_eq]
  next hout =>
    have hoff : c.windowOffset price = none := if_neg hout
    have hmap : c.overflow side = c.overflowOf (isBid side) := by
      rw [overflow, overflowOf, isBid]
      simp only [decide_eq_true_eq]
    rw [hmap]
    cases hfind : (c.overflowOf (isBid side)).find? price with
    | some idx =>
        refine ⟨hext, ?_⟩
        rw [levelOf, if_pos hset, hoff]
        exact hfind
    | none =>
        obtain ⟨hext', hof⟩ := push_level_spec hsized hset hprice hoff hfind
        exact ⟨hext.trans hlevels hext', hof⟩

/-- A new book codes nothing. -/
theorem sized_new : new.Sized where
  size_ge := by simp [new]
  sides := by simp [new]
  over_lt bid price i h := by cases bid <;> cases h
  bid_lt := by decide

theorem coded_new : new.Coded where
  unset _ bid price := by cases bid <;> rfl
  outside bid price i h := by cases bid <;> cases h
  over_inj bid price price' i h := by cases bid <;> cases h

end LevelFor

end FeedHandler.V3.OrderBook
