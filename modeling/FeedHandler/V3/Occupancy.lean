import FeedHandler.Foundations.BitScan
import FeedHandler.V3.OrderBook

/-!
# The occupancy bits and the cached best levels

`find_prev_set` and `find_next_set` find the nearest set bit, and with them `link_order` and
`unlink_order` keep the bits and the cached best levels in step with the levels that hold orders.
Read `Marked`, `occupy_spec` and `vacate_spec` first.
-/

namespace FeedHandler.V3.OrderBook

open BitScan

/-- The words of the bit map. -/
def words (b : OrderBook) (w : Nat) : BitVec 64 := b.occupied[w]?.getD 0#64

/-- The occupancy bit of a window level. -/
def occBit (b : OrderBook) (i : Nat) : Bool := bit b.words i

theorem occupied_get {b : OrderBook} {w : Nat} (h : w < 32) :
    b.occupied[w]? = some (b.words w) := by
  simp [words, h]

theorem occ_bit_eq (b : OrderBook) (i : Nat) :
    b.occBit i = (b.words (i / 64)).getLsbD (i % 64) := rfl

/-- The bits are those of the occupancy words. -/
theorem occ_bit_congr {b b' : OrderBook} (h : b.occupied = b'.occupied) (i : Nat) :
    b.occBit i = b'.occBit i := by
  rw [occ_bit_eq, occ_bit_eq, words, words, h]

/-- Only window levels have a bit. -/
theorem occ_bit_lt {b : OrderBook} {i : Nat} (h : b.occBit i = true) : i < 2 * kWindow := by
  by_contra hge
  simp only [kWindow] at hge
  have hword : b.words (i / 64) = 0#64 := by simp [words, show ¬ i / 64 < 32 by omega]
  rw [occ_bit_eq, hword] at h
  simp at h

section Scan

variable {b : OrderBook}

/-- The downward loop finds the highest bit among those of its word and of the words below. -/
theorem prev_loop_spec (w : Nat) (word : BitVec 64) (hw : w < 32) :
    ∃ r, prevLoop b.occupied w word = some r ∧
      Highest (fun i => (i / 64 = w ∧ word.getLsbD (i % 64) = true) ∨
        (i / 64 < w ∧ b.occBit i = true)) r := by
  by_cases hword : word = 0
  case neg =>
    refine ⟨_, ?_, highest_at (by decide) hword w _⟩
    cases w <;> rw [prevLoop, if_pos hword]
  -- An empty word hands over to the word below, whose bits all count.
  case pos =>
    have hzero := eq_zero_iff.mp hword
    cases w with
    | zero =>
        refine ⟨-1, by rw [prevLoop, if_neg (by simp [hword])], .inl ⟨rfl, ?_⟩⟩
        intro i hor
        rcases hor with ⟨_, hbit⟩ | ⟨hlt, _⟩
        · rw [hzero] at hbit
          cases hbit
        · omega
    | succ w =>
        obtain ⟨r, hr, hhigh⟩ := prev_loop_spec w (b.words w) (by omega)
        refine ⟨r, ?_, hhigh.congr fun i => ?_⟩
        · rw [prevLoop, if_neg (by simp [hword])]
          simp only [occupied_get (by omega : w < 32), Option.bind_eq_bind, Option.bind_some, hr]
        · rw [hzero, occ_bit_eq, Nat.lt_succ_iff_lt_or_eq]
          constructor
          · intro hor
            rcases hor with ⟨rfl, hbit⟩ | hlow
            · exact .inr ⟨.inr rfl, hbit⟩
            · exact .inr ⟨.inl hlow.1, hlow.2⟩
          · intro hor
            rcases hor with ⟨_, hbit⟩ | ⟨hlt | rfl, hbit⟩
            · cases hbit
            · exact .inr ⟨hlt, hbit⟩
            · exact .inl ⟨rfl, hbit⟩

/-- The upward loop finds the lowest bit among those of its word and of the words above. -/
theorem next_loop_spec (fuel w : Nat) (word : BitVec 64) (hw : w < 32) (hfuel : 32 ≤ w + fuel) :
    ∃ r, nextLoop b.occupied fuel w word = some r ∧
      Lowest (fun i => i < 2 * kWindow ∧ ((i / 64 = w ∧ word.getLsbD (i % 64) = true) ∨
        (w < i / 64 ∧ b.occBit i = true))) r := by
  induction fuel generalizing w word with
  | zero => omega
  | succ fuel ih =>
      by_cases hword : word = 0
      case neg =>
        refine ⟨_, by rw [nextLoop, if_pos hword], ?_⟩
        -- A bit of this word is below every bit of the words above.
        rcases lowest_at (by decide) hword w fun i => b.occBit i = true with
          ⟨hneg, _⟩ | ⟨n, hn, hbit, hmin⟩
        · omega
        · refine .inr ⟨n, hn, ⟨?_, hbit⟩, fun i hi => hmin hi.2⟩
          rcases hbit with ⟨heq, _⟩ | ⟨_, hbit⟩
          · simp only [kWindow]
            omega
          · exact occ_bit_lt hbit
      case pos =>
        have hzero := eq_zero_iff.mp hword
        rw [nextLoop, if_neg (by simp [hword])]
        by_cases hlast : w ≥ (2 * kWindow - 1) / 64
        · -- This was the last word.
          refine ⟨-1, by rw [if_pos hlast], .inl ⟨rfl, ?_⟩⟩
          intro i h
          obtain ⟨hi, ⟨_, hbit⟩ | ⟨hlt, _⟩⟩ := h
          · rw [hzero] at hbit
            cases hbit
          · simp only [kWindow] at hi hlast
            omega
        · have hnext : w + 1 < 32 := by
            simp only [kWindow] at hlast
            omega
          obtain ⟨r, hr, hlow⟩ := ih (w + 1) (b.words (w + 1)) hnext (by omega)
          refine ⟨r, ?_, hlow.congr fun i => and_congr_right fun _ => ?_⟩
          · rw [if_neg hlast]
            simp only [occupied_get hnext, Option.bind_eq_bind, Option.bind_some, hr]
          · have hsplit : w < i / 64 ↔ w + 1 < i / 64 ∨ w + 1 = i / 64 := by omega
            rw [hzero, occ_bit_eq, hsplit]
            constructor
            · intro hor
              rcases hor with ⟨heq, hbit⟩ | hhigh
              · exact .inr ⟨.inr heq.symm, heq ▸ hbit⟩
              · exact .inr ⟨.inl hhigh.1, hhigh.2⟩
            · intro hor
              rcases hor with ⟨_, hbit⟩ | ⟨hlt | heq, hbit⟩
              · cases hbit
              · exact .inr ⟨hlt, hbit⟩
              · exact .inl ⟨heq.symm, heq ▸ hbit⟩

/-- `find_prev_set`: the highest set bit at or below a window level. -/
theorem find_prev_set_spec {src : Int} (hsrc : src < 2 * kWindow) :
    ∃ r, b.findPrevSet src = some r ∧
      Highest (fun i => (i : Int) ≤ src ∧ b.occBit i = true) r := by
  unfold findPrevSet
  split
  next hneg => exact ⟨-1, rfl, .inl ⟨rfl, fun i hi => by omega⟩⟩
  next hpos =>
    simp only [kWindow] at hsrc
    obtain ⟨n, rfl⟩ := Int.eq_ofNat_of_zero_le (Int.not_lt.mp hpos)
    have hw : n / 64 < 32 := by omega
    obtain ⟨r, hr, hhigh⟩ := prev_loop_spec (b := b) (n / 64)
      (b.words (n / 64) &&& if n % 64 = 63 then ~~~0#64 else (1#64 <<< (n % 64 + 1)) - 1#64) hw
    refine ⟨r, ?_, hhigh.congr fun i => ?_⟩
    · simp only [Int.toNat_natCast, occupied_get hw, Option.bind_eq_bind, Option.bind_some, hr]
    · rw [get_lsb_below _ (Nat.mod_lt n (by decide)), occ_bit_eq, Bool.and_eq_true,
        decide_eq_true_iff]
      constructor
      · intro hor
        rcases hor with ⟨heq, hbit, hle⟩ | ⟨hlt, hbit⟩
        · exact ⟨by omega, heq ▸ hbit⟩
        · exact ⟨by omega, hbit⟩
      · intro h
        obtain ⟨hle, hbit⟩ := h
        rcases Nat.lt_or_ge (i / 64) (n / 64) with hlt | hge
        · exact .inr ⟨hlt, hbit⟩
        · have heq : i / 64 = n / 64 := by omega
          exact .inl ⟨heq, heq ▸ hbit, by omega⟩

/-- `find_next_set`: the lowest set bit at or above a level. -/
theorem find_next_set_spec (src : Int) :
    ∃ r, b.findNextSet src = some r ∧
      Lowest (fun i => src ≤ (i : Int) ∧ b.occBit i = true) r := by
  unfold findNextSet
  split
  next hbig =>
    refine ⟨-1, rfl, .inl ⟨rfl, ?_⟩⟩
    intro i h
    obtain ⟨hle, hbit⟩ := h
    have := occ_bit_lt hbit
    omega
  next hsmall =>
    obtain ⟨n, hn⟩ : ∃ n, (if src < 0 then 0 else src.toNat) = n := ⟨_, rfl⟩
    have hn' : ∀ i : Nat, src ≤ i ↔ n ≤ i := by
      intro i
      split at hn <;> omega
    simp only [kWindow] at hsmall
    have hw : n / 64 < 32 := by
      split at hn <;> omega
    obtain ⟨r, hr, hlow⟩ := next_loop_spec (b := b) 32 (n / 64)
      (b.words (n / 64) &&& (~~~0#64 <<< (n % 64))) hw (by omega)
    refine ⟨r, ?_, hlow.congr fun i => ?_⟩
    · simp only [hn, occupied_get hw, Option.bind_eq_bind, Option.bind_some, hr]
    · rw [get_lsb_above, occ_bit_eq, Bool.and_eq_true, decide_eq_true_iff, hn']
      constructor
      · intro h
        obtain ⟨_, ⟨heq, hbit, hle⟩ | ⟨hlt, hbit⟩⟩ := h
        · exact ⟨by omega, heq ▸ hbit⟩
        · exact ⟨by omega, hbit⟩
      · intro h
        obtain ⟨hle, hbit⟩ := h
        refine ⟨occ_bit_lt hbit, ?_⟩
        rcases Nat.lt_or_ge (n / 64) (i / 64) with hlt | hge
        · exact .inr ⟨hlt, hbit⟩
        · have heq : i / 64 = n / 64 := by omega
          exact .inl ⟨heq, heq ▸ hbit, by omega⟩

/-- For every content of the words and every level, `find_next_set` ends inside the array with the
lowest set bit at or above the level, or at or above zero if the level is negative, and
`find_prev_set` with the highest set bit at or below it; both return -1 if there is no such bit. The
second scan asks for a level of the window, or a negative one. -/
theorem scans_find_nearest (b : OrderBook) (src : Int) :
    (∃ r, b.findNextSet src = some r ∧
      Lowest (fun i => max src 0 ≤ (i : Int) ∧ i < 2 * kWindow ∧ b.occBit i = true) r) ∧
    (src < 2 * kWindow → ∃ r, b.findPrevSet src = some r ∧
      Highest (fun i => (i : Int) ≤ src ∧ i < 2 * kWindow ∧ b.occBit i = true) r) := by
  have hbits : ∀ i, i < 2 * kWindow ∧ b.occBit i = true ↔ b.occBit i = true := fun i =>
    and_iff_right_of_imp occ_bit_lt
  constructor
  · obtain ⟨r, hr, hlow⟩ := find_next_set_spec (b := b) src
    refine ⟨r, hr, hlow.congr fun i => ?_⟩
    rw [hbits, max_le_iff, and_iff_left (Int.natCast_nonneg i)]
  · intro hsrc
    obtain ⟨r, hr, hhigh⟩ := find_prev_set_spec (b := b) hsrc
    refine ⟨r, hr, hhigh.congr fun i => ?_⟩
    rw [hbits]

/-- The last bit of the first word and the first bit of the last word, with empty words between:
each is found from the level next to the other. -/
theorem scans_find_nearest_word_edges :
    ∃ b : OrderBook,
      (b.findNextSet 64 = some 1984 ∧
        Lowest (fun i => 64 ≤ (i : Int) ∧ i < 2 * kWindow ∧ b.occBit i = true) 1984) ∧
      b.findPrevSet 1983 = some 63 ∧
        Highest (fun i => (i : Int) ≤ 1983 ∧ i < 2 * kWindow ∧ b.occBit i = true) 63 := by
  obtain ⟨b, hb⟩ : ∃ b, (OrderBook.new.writeBit 63 fun word bit => word ||| bit).writeBit 1984
    (fun word bit => word ||| bit) = b := ⟨_, rfl⟩
  obtain ⟨⟨_, hnext, hlow⟩, _⟩ := scans_find_nearest b 64
  obtain ⟨_, hprev, hhigh⟩ := (scans_find_nearest b 1983).2 (by decide)
  have hnext' : b.findNextSet 64 = some 1984 := hb ▸ by decide +kernel
  have hprev' : b.findPrevSet 1983 = some 63 := hb ▸ by decide +kernel
  cases hnext.symm.trans hnext'
  cases hprev.symm.trans hprev'
  exact ⟨b, ⟨hnext', hlow⟩, hprev', hhigh⟩

end Scan

/-! ## Setting and clearing bits -/

section Write

variable {b : OrderBook} {i : Nat}

/-- The book with other occupancy words and best levels. -/
def remark (b : OrderBook) (occupied : Vector (BitVec 64) 32) (bid ask : Int) : OrderBook :=
  { b with occupied := occupied, bestBidIdx := bid, bestAskIdx := ask }

/-- Only the occupancy words change. -/
theorem write_bit_eq (b : OrderBook) (i : Nat) (f : BitVec 64 → BitVec 64 → BitVec 64) :
    ∃ occ, b.writeBit i f = b.remark occ b.bestBidIdx b.bestAskIdx := by
  unfold writeBit
  split
  next => exact ⟨_, rfl⟩
  next => exact ⟨b.occupied, rfl⟩

theorem words_write_bit (hi : i < 2 * kWindow) (f : BitVec 64 → BitVec 64 → BitVec 64) (w : Nat) :
    (b.writeBit i f).words w =
      if w = i / 64 then f (b.words w) (1#64 <<< (i % 64)) else b.words w := by
  have hw : i / 64 < 32 := by
    simp only [kWindow] at hi
    omega
  rw [writeBit, dif_pos hi]
  by_cases heq : w = i / 64
  · subst heq
    simp [words, hw]
  · simp [words, heq, Ne.symm heq]

/-- The one bit of a shifted one. -/
theorem get_lsb_one_shift {k m : Nat} (hm : m < 64) :
    (1#64 <<< k).getLsbD m = decide (m = k) := by
  rw [BitVec.getLsbD_shiftLeft, BitVec.getLsbD_one]
  by_cases hlt : m < k
  · simp [hlt, hm, hlt.ne]
  · simp [hlt, hm]
    omega

theorem occ_bit_set (hi : i < 2 * kWindow) (j : Nat) :
    (b.writeBit i fun word bit => word ||| bit).occBit j = (b.occBit j || decide (j = i)) := by
  rw [occ_bit_eq, occ_bit_eq, words_write_bit hi]
  by_cases heq : j / 64 = i / 64
  · rw [if_pos heq, BitVec.getLsbD_or, get_lsb_one_shift (Nat.mod_lt j (by decide))]
    congr 1
    exact decide_eq_decide.mpr (by omega)
  · have hne : j ≠ i := fun h => heq (h ▸ rfl)
    rw [if_neg heq, decide_eq_false hne, Bool.or_false]

theorem occ_bit_clear (hi : i < 2 * kWindow) (j : Nat) :
    (b.writeBit i fun word bit => word &&& ~~~bit).occBit j = (b.occBit j && !decide (j = i)) := by
  have hj := Nat.mod_lt j (show 64 > 0 by decide)
  rw [occ_bit_eq, occ_bit_eq, words_write_bit hi]
  by_cases heq : j / 64 = i / 64
  · rw [if_pos heq, BitVec.getLsbD_and, BitVec.getLsbD_not, get_lsb_one_shift hj,
      decide_eq_true hj, Bool.true_and]
    congr 2
    exact decide_eq_decide.mpr (by omega)
  · have hne : j ≠ i := fun h => heq (h ▸ rfl)
    rw [if_neg heq, decide_eq_false hne, Bool.not_false, Bool.and_true]

end Write

/-! ## What linking and unlinking touch -/

section Total

variable {b : OrderBook}

/-- Linking changes the words and the best levels only. -/
theorem occupy_total (b : OrderBook) (i : Nat) :
    ∃ occupied bid ask, b.occupy i = b.remark occupied bid ask ∧
      (b.bestBidIdx < 2 * kWindow → bid < 2 * kWindow) := by
  obtain ⟨words, hwords⟩ := b.write_bit_eq i fun word bit => word ||| bit
  simp only [occupy, hwords]
  split
  next hside =>
    have hlt : toInt32 i < 2 * kWindow := by
      simp only [kAskBase, kWindow] at *
      rw [toInt32, if_pos (by omega)]
      omega
    split
    next => exact ⟨words, toInt32 i, b.bestAskIdx, rfl, fun _ => hlt⟩
    next => exact ⟨words, b.bestBidIdx, b.bestAskIdx, rfl, id⟩
  next =>
    split
    next =>
      split
      next => exact ⟨words, b.bestBidIdx, toInt32 i, rfl, id⟩
      next => exact ⟨words, b.bestBidIdx, b.bestAskIdx, rfl, id⟩
    next => exact ⟨words, b.bestBidIdx, b.bestAskIdx, rfl, id⟩

/-- `rescan_best('B')`. -/
theorem rescan_bid_eq (h : b.bestBidIdx < 2 * kWindow) :
    ∃ bid, b.rescanBid = some (b.remark b.occupied bid b.bestAskIdx) ∧
      Highest (fun i => (i : Int) ≤ b.bestBidIdx ∧ b.occBit i = true) bid := by
  obtain ⟨r, hr, hhigh⟩ := find_prev_set_spec h
  exact ⟨r, by rw [rescanBid, hr]; rfl, hhigh⟩

/-- `rescan_best('S')`. -/
theorem rescan_ask_eq (b : OrderBook) :
    ∃ ask, b.rescanAsk = some (b.remark b.occupied b.bestBidIdx ask) ∧
      Lowest (fun i => b.bestAskIdx ≤ (i : Int) ∧ b.occBit i = true) ask := by
  obtain ⟨r, hr, hlow⟩ := find_next_set_spec (b := b) b.bestAskIdx
  exact ⟨r, by rw [rescanAsk, hr]; rfl, hlow⟩

/-- So does unlinking, whose scans end. -/
theorem vacate_total (h : b.bestBidIdx < 2 * kWindow) (i : Nat) :
    ∃ occupied bid ask, b.vacate i = some (b.remark occupied bid ask) ∧ bid < 2 * kWindow := by
  obtain ⟨words, hwords⟩ := b.write_bit_eq i fun word bit => word &&& ~~~bit
  obtain ⟨bid, hbid, hlt⟩ : ∃ bid,
      (if toInt32 i = b.bestBidIdx then (b.remark words b.bestBidIdx b.bestAskIdx).rescanBid
        else some (b.remark words b.bestBidIdx b.bestAskIdx)) =
        some (b.remark words bid b.bestAskIdx) ∧ bid < 2 * kWindow := by
    split
    next =>
      obtain ⟨r, hr, hhigh⟩ := rescan_bid_eq (b := b.remark words b.bestBidIdx b.bestAskIdx) h
      refine ⟨r, hr, ?_⟩
      rcases hhigh with ⟨hnone, _⟩ | ⟨n, hn, ⟨_, hbit⟩, _⟩
      · exact hnone ▸ by decide
      · have := occ_bit_lt hbit
        omega
    next => exact ⟨b.bestBidIdx, rfl, h⟩
  obtain ⟨ask, hask⟩ : ∃ ask,
      (if toInt32 i = b.bestAskIdx then (b.remark words bid b.bestAskIdx).rescanAsk
        else some (b.remark words bid b.bestAskIdx)) = some (b.remark words bid ask) := by
    split
    next =>
      obtain ⟨r, hr, _⟩ := rescan_ask_eq (b.remark words bid b.bestAskIdx)
      exact ⟨r, hr⟩
    next => exact ⟨b.bestAskIdx, rfl⟩
  refine ⟨words, bid, ask, ?_, hlt⟩
  simp only [vacate, hwords]
  rw [show (b.remark words b.bestBidIdx b.bestAskIdx).bestBidIdx = b.bestBidIdx from rfl, hbid]
  exact hask

end Total

/-! ## Keeping the best levels -/

/-- The bits and the cached best levels say which window levels hold orders. -/
structure Marked (b : OrderBook) (occ : Nat → Prop) : Prop where
  bits : ∀ i, i < 2 * kWindow → (b.occBit i = true ↔ occ i)
  bid : Highest (fun i => i < kAskBase ∧ occ i) b.bestBidIdx
  ask : Lowest (fun i => kAskBase ≤ i ∧ i < 2 * kWindow ∧ occ i) b.bestAskIdx

section Marked

variable {b : OrderBook} {occ occ' : Nat → Prop} {i : Nat}

theorem Marked.congr (h : b.Marked occ) (hocc : ∀ i, occ i ↔ occ' i) : b.Marked occ' := by
  rwa [← funext fun i => propext (hocc i)]

theorem to_int32_eq (hi : i < 2 ^ 31) : toInt32 i = i := if_pos hi

/-- A level gets its first order, or one more. -/
theorem occupy_spec (h : b.Marked occ) (hi : i < 2 ^ 31) :
    ∃ occupied bid ask, b.occupy i = b.remark occupied bid ask ∧
      (b.remark occupied bid ask).Marked fun j => occ j ∨ j = i := by
  obtain ⟨words, hwords⟩ := b.write_bit_eq i fun word bit => word ||| bit
  have hsame : ∀ bid ask j, (b.remark words bid ask).occBit j =
      (b.remark words b.bestBidIdx b.bestAskIdx).occBit j := fun _ _ => occ_bit_congr rfl
  simp only [occupy, hwords, to_int32_eq hi]
  by_cases hwindow : i < 2 * kWindow
  · have hbits : ∀ bid ask j, j < 2 * kWindow →
        ((b.remark words bid ask).occBit j = true ↔ occ j ∨ j = i) := by
      intro bid ask j hj
      have hset := occ_bit_set (b := b) hwindow j
      rw [hwords] at hset
      rw [hsame bid ask j, hset, Bool.or_eq_true, decide_eq_true_iff, h.bits j hj]
    by_cases hside : i < kAskBase
    · refine ⟨words, if (i : Int) > b.bestBidIdx then i else b.bestBidIdx, b.bestAskIdx, ?_,
        hbits _ _, (h.bid.insert i).congr fun j => ?_, h.ask.congr fun j => ?_⟩
      · rw [if_pos hside]
        by_cases hbest : (i : Int) > b.bestBidIdx <;> simp only [remark, hbest, if_true, if_false]
      · constructor
        · intro hor
          rcases hor with ⟨hj, hocc⟩ | rfl
          · exact ⟨hj, .inl hocc⟩
          · exact ⟨hside, .inr rfl⟩
        · intro hgiven
          obtain ⟨hj, hocc | rfl⟩ := hgiven
          · exact .inl ⟨hj, hocc⟩
          · exact .inr rfl
      · -- No level of the other side is the new one.
        have : kAskBase ≤ j → j ≠ i := by omega
        grind
    · refine ⟨words, b.bestBidIdx,
        if b.bestAskIdx < 0 ∨ (i : Int) < b.bestAskIdx then i else b.bestAskIdx, ?_,
        hbits _ _, h.bid.congr fun j => ?_, (h.ask.insert i).congr fun j => ?_⟩
      · rw [if_neg hside, if_pos hwindow]
        by_cases hbest : b.bestAskIdx < 0 ∨ (i : Int) < b.bestAskIdx <;>
          simp only [remark, hbest, if_true, if_false]
      · have : j < kAskBase → j ≠ i := by omega
        grind
      · constructor
        · intro hor
          rcases hor with ⟨hlo, hhi, hocc⟩ | rfl
          · exact ⟨hlo, hhi, .inl hocc⟩
          · exact ⟨Nat.not_lt.mp hside, hwindow, .inr rfl⟩
        · intro hgiven
          obtain ⟨hlo, hhi, hocc | rfl⟩ := hgiven
          · exact .inl ⟨hlo, hhi, hocc⟩
          · exact .inr rfl
  · -- An overflow level has no bit and no best level.
    have hunchanged : b.remark words b.bestBidIdx b.bestAskIdx = b := by
      rw [← hwords, writeBit, dif_neg hwindow]
    have hside : ¬ i < kAskBase := fun hlt => hwindow (by simp only [kAskBase] at hlt; omega)
    refine ⟨words, b.bestBidIdx, b.bestAskIdx, by rw [if_neg hside, if_neg hwindow], ?_⟩
    rw [hunchanged]
    have hne : ∀ j, j < 2 * kWindow → j ≠ i := by omega
    refine ⟨fun j hj => ?_, h.bid.congr fun j => ?_, h.ask.congr fun j => ?_⟩
    · rw [h.bits j hj, or_iff_left (hne j hj)]
    · have : j < kAskBase → j ≠ i := by omega
      grind
    · have := hne j
      grind

/-- `rescan_best('B')` after the bits have lost the cached level, and nothing above it. -/
theorem rescan_bid_spec (hbits : ∀ i, i < 2 * kWindow → (b.occBit i = true ↔ occ i))
    (hbid : ∀ i, i < kAskBase → occ i → (i : Int) ≤ b.bestBidIdx) (hlt : b.bestBidIdx < kAskBase) :
    ∃ bid, b.rescanBid = some (b.remark b.occupied bid b.bestAskIdx) ∧
      Highest (fun i => i < kAskBase ∧ occ i) bid := by
  simp only [kAskBase, kWindow] at *
  have hsrc : b.bestBidIdx < 2 * kWindow := by simp only [kWindow]; omega
  obtain ⟨r, hr, hhigh⟩ := rescan_bid_eq hsrc
  refine ⟨r, hr, hhigh.congr fun i => ?_⟩
  constructor
  · intro h
    obtain ⟨hle, hbit⟩ := h
    exact ⟨by omega, (hbits i (by omega)).mp hbit⟩
  · intro h
    obtain ⟨hi, hocc⟩ := h
    exact ⟨hbid i hi hocc, (hbits i (by omega)).mpr hocc⟩

/-- `rescan_best('S')` after the bits have lost the cached level, and nothing below it. -/
theorem rescan_ask_spec (hbits : ∀ i, i < 2 * kWindow → (b.occBit i = true ↔ occ i))
    (hask : ∀ i, kAskBase ≤ i → i < 2 * kWindow → occ i → b.bestAskIdx ≤ (i : Int))
    (hge : (kAskBase : Int) ≤ b.bestAskIdx) :
    ∃ ask, b.rescanAsk = some (b.remark b.occupied b.bestBidIdx ask) ∧
      Lowest (fun i => kAskBase ≤ i ∧ i < 2 * kWindow ∧ occ i) ask := by
  obtain ⟨r, hr, hlow⟩ := b.rescan_ask_eq
  refine ⟨r, hr, hlow.congr fun i => ?_⟩
  constructor
  · intro h
    obtain ⟨hle, hbit⟩ := h
    have hi := occ_bit_lt hbit
    exact ⟨by omega, hi, (hbits i hi).mp hbit⟩
  · intro h
    obtain ⟨hlo, hhi, hocc⟩ := h
    exact ⟨hask i hlo hhi hocc, (hbits i hhi).mpr hocc⟩

/-- A level loses its last order. -/
theorem vacate_spec (h : b.Marked occ) (hi : i < 2 ^ 31) :
    ∃ occupied bid ask, b.vacate i = some (b.remark occupied bid ask) ∧
      (b.remark occupied bid ask).Marked fun j => occ j ∧ j ≠ i := by
  obtain ⟨words, hwords⟩ := b.write_bit_eq i fun word bit => word &&& ~~~bit
  have hsame : ∀ bid ask j, (b.remark words bid ask).occBit j =
      (b.remark words b.bestBidIdx b.bestAskIdx).occBit j := fun _ _ => occ_bit_congr rfl
  have hbits : ∀ bid ask j, j < 2 * kWindow →
      ((b.remark words bid ask).occBit j = true ↔ occ j ∧ j ≠ i) := by
    intro bid ask j hj
    rw [hsame bid ask j, ← hwords]
    by_cases hwindow : i < 2 * kWindow
    · rw [occ_bit_clear hwindow, Bool.and_eq_true, Bool.not_eq_true', decide_eq_false_iff_not,
        h.bits j hj]
    · rw [writeBit, dif_neg hwindow, h.bits j hj, and_iff_left (by omega)]
  -- the cached bid is rescanned exactly if the level was the best bid
  obtain ⟨bid, hbid, hhigh⟩ : ∃ bid,
      (if (i : Int) = b.bestBidIdx then (b.remark words b.bestBidIdx b.bestAskIdx).rescanBid
        else some (b.remark words b.bestBidIdx b.bestAskIdx)) =
        some (b.remark words bid b.bestAskIdx) ∧
      Highest (fun j => j < kAskBase ∧ occ j ∧ j ≠ i) bid := by
    by_cases hbest : (i : Int) = b.bestBidIdx
    · rw [if_pos hbest]
      refine rescan_bid_spec (hbits _ _) (fun j hj hocc => h.bid.le ⟨hj, hocc.1⟩) ?_
      rcases h.bid with ⟨hnone, _⟩ | ⟨n, hn, hocc, _⟩
      · exact hnone ▸ by decide
      · have hlt : n < kAskBase := hocc.1
        simp only [remark]
        omega
    · refine ⟨b.bestBidIdx, by rw [if_neg hbest], (h.bid.remove_ne hbest).congr fun j => ?_⟩
      rw [and_assoc]
  obtain ⟨ask, hask, hlow⟩ : ∃ ask,
      (if (i : Int) = b.bestAskIdx then (b.remark words bid b.bestAskIdx).rescanAsk
        else some (b.remark words bid b.bestAskIdx)) = some (b.remark words bid ask) ∧
      Lowest (fun j => kAskBase ≤ j ∧ j < 2 * kWindow ∧ occ j ∧ j ≠ i) ask := by
    by_cases hbest : (i : Int) = b.bestAskIdx
    · rw [if_pos hbest]
      refine rescan_ask_spec (b := b.remark words bid b.bestAskIdx) (hbits _ _)
        (fun j hlo hhi hocc => h.ask.le ⟨hlo, hhi, hocc.1⟩) ?_
      rcases h.ask with ⟨hnone, _⟩ | ⟨n, hn, hocc, _⟩
      · omega
      · have hge : kAskBase ≤ n := hocc.1
        simp only [remark]
        omega
    · refine ⟨b.bestAskIdx, by rw [if_neg hbest], (h.ask.remove_ne hbest).congr fun j => ?_⟩
      rw [and_assoc, and_assoc]
  refine ⟨words, bid, ask, ?_, hbits bid ask, hhigh, hlow⟩
  simp only [vacate, hwords, to_int32_eq hi]
  rw [show (b.remark words b.bestBidIdx b.bestAskIdx).bestBidIdx = b.bestBidIdx from rfl, hbid]
  exact hask

end Marked

end FeedHandler.V3.OrderBook
