import FeedHandler.V3.LevelCoding

/-!
# Runs of `level_for`

Any sequence of calls of `level_for` on one book. `level_of_index` says that in every later state
the index a call returned is the one `levelOf` gives its side and price; that the indices are a
faithful and stable coding, `level_indices_faithful`, is read off the invariant of the coding.
-/

namespace FeedHandler.V3.OrderBook

open Itch

/-- The arguments of a call of `level_for`. -/
structure LevelCall where
  price : UInt32
  side : UInt8
  deriving DecidableEq, Repr

/-- `level_for`, at the arguments of a call. -/
def callLevelFor (b : OrderBook) (c : LevelCall) : OrderBook × Nat :=
  b.levelFor c.price.toNat c.side

/-- A new book after the first calls of a sequence. -/
def afterCalls (calls : List LevelCall) (n : Nat) : OrderBook :=
  (calls.take n).foldl (fun b c => (b.callLevelFor c).1) new

/-- The index that a call of a sequence returns. -/
def indexOf (calls : List LevelCall) (i : Fin calls.length) : Nat :=
  ((afterCalls calls i).callLevelFor calls[i]).2

/-- The side class of a call: `'B'`, or any other byte. -/
def LevelCall.bid (c : LevelCall) : Bool := isBid c.side

/-- A side and a price have one index, at any two points of a sequence of calls, and give it back
in every later state. -/
structure FaithfulCoding (calls : List LevelCall) : Prop where
  in_range : ∀ (i : Fin calls.length) n, i < n → n ≤ calls.length →
    indexOf calls i < (afterCalls calls n).levels.size
  index_eq_iff : ∀ i j : Fin calls.length, indexOf calls i = indexOf calls j ↔
    calls[i].bid = calls[j].bid ∧ calls[i].price = calls[j].price
  price_of : ∀ (i : Fin calls.length) n, i < n → n ≤ calls.length →
    (afterCalls calls n).priceOf (indexOf calls i) = some calls[i].price.toNat
  side_of : ∀ (i : Fin calls.length) n, i < n → n ≤ calls.length →
    ∃ c, (afterCalls calls n).sideOf (indexOf calls i) = some c ∧
      (c = kBid ↔ calls[i].side = kBid)
  window_order : ∀ i j : Fin calls.length, calls[i].bid = calls[j].bid →
    indexOf calls i < 2 * kWindow → indexOf calls j < 2 * kWindow →
    (indexOf calls i < indexOf calls j ↔ calls[i].price < calls[j].price)

section Calls

variable {calls : List LevelCall} {n m : Nat}

theorem after_calls_succ (i : Fin calls.length) :
    afterCalls calls (i + 1) = ((afterCalls calls i).callLevelFor calls[i]).1 := by
  show (calls.take (i + 1)).foldl _ new = _
  rw [List.take_succ_eq_append_getElem i.isLt, List.foldl_append]
  rfl

theorem sized_after (calls : List LevelCall) (n : Nat) : (afterCalls calls n).Sized := by
  show ((calls.take n).foldl _ new).Sized
  induction calls.take n using List.reverseRecOn with
  | nil => exact sized_new
  | append_singleton l c ih =>
      rw [List.foldl_append]
      exact (level_for_spec c.side ih c.price.toNat_lt).1.sized

/-- What a call of a sequence does. -/
theorem call_spec (i : Fin calls.length) :
    (afterCalls calls i).Extends (afterCalls calls (i + 1)) ∧
      (afterCalls calls (i + 1)).levelOf calls[i].bid calls[i].price.toNat =
        some (indexOf calls i) := by
  rw [after_calls_succ i]
  exact level_for_spec calls[i].side (sized_after calls i) calls[i].price.toNat_lt

theorem levels_size_le (calls : List LevelCall) (hn : n ≤ calls.length) :
    (afterCalls calls n).levels.size ≤ 2 * kWindow + n := by
  induction n with
  | zero => exact Nat.le_of_eq Array.size_replicate
  | succ n ih =>
      have hstep := (call_spec (⟨n, hn⟩ : Fin calls.length)).1.size_le.2
      have hle := ih (Nat.le_of_succ_le hn)
      show (afterCalls calls (n + 1)).levels.size ≤ 2 * kWindow + (n + 1)
      exact Nat.le_trans hstep (Nat.succ_le_succ hle)

/-- The number of levels never falls, so that a bound at the end of the calls is one throughout. -/
theorem levels_size_mono (hnm : n ≤ m) (hm : m ≤ calls.length) :
    (afterCalls calls n).levels.size ≤ (afterCalls calls m).levels.size := by
  induction hnm with
  | refl => exact Nat.le_refl _
  | @step m _ ih =>
      have hstep := (call_spec (⟨m, hm⟩ : Fin calls.length)).1.size_le.1
      exact Nat.le_trans (ih (Nat.le_of_succ_le hm)) hstep

theorem coded_after (hn : n ≤ calls.length)
    (hsize : (afterCalls calls calls.length).levels.size < 2 ^ 32) :
    (afterCalls calls n).Coded := by
  induction n with
  | zero => exact coded_new
  | succ n ih =>
      have hle := levels_size_mono (Nat.le_of_succ_le hn) (Nat.le_refl calls.length)
      exact (call_spec (⟨n, hn⟩ : Fin calls.length)).1.coded (ih (Nat.le_of_succ_le hn))
        (Nat.lt_of_le_of_lt hle hsize)

/-- The index a call returned stays the index of its side and price. -/
theorem level_of_index (i : Fin calls.length) (hi : i < n) (hn : n ≤ calls.length) :
    (afterCalls calls n).levelOf calls[i].bid calls[i].price.toNat = some (indexOf calls i) := by
  induction hi with
  | refl => exact (call_spec i).2
  | @step n _ ih =>
      have hkeep := (call_spec (⟨n, hn⟩ : Fin calls.length)).1.keep
      exact hkeep _ _ _ (ih (Nat.le_of_succ_le hn))

/-- In the window of one side, indices are ordered as the prices. -/
theorem Coded.level_lt_iff {b : OrderBook} {bid : Bool} {price price' i i' : Nat} (h : b.Coded)
    (hi : b.levelOf bid price = some i) (hi' : b.levelOf bid price' = some i')
    (hwin : i < 2 * kWindow) (hwin' : i' < 2 * kWindow) : i < i' ↔ price < price' := by
  obtain ⟨off, _, rfl, hcent, hbase⟩ := window_level h hi hwin
  obtain ⟨off', _, rfl, hcent', hbase'⟩ := window_level h hi' hwin'
  -- The base is common to the side, so that the offsets are ordered as the whole cents.
  have horder : off < off' ↔ price < price' := by omega
  cases bid
  · show kAskBase + off < kAskBase + off' ↔ price < price'
    rw [Nat.add_lt_add_iff_left, horder]
  · exact horder

theorem level_indices_faithful (calls : List LevelCall)
    (hsize : (afterCalls calls calls.length).levels.size < 2 ^ 31) : FaithfulCoding calls := by
  have hcoded : ∀ {n}, n ≤ calls.length → (afterCalls calls n).Coded := fun hn =>
    coded_after hn (Nat.lt_of_lt_of_le hsize (by decide))
  have hend := hcoded (Nat.le_refl _)
  have hlevel : ∀ i : Fin calls.length, (afterCalls calls calls.length).levelOf calls[i].bid
      calls[i].price.toNat = some (indexOf calls i) := fun i =>
    level_of_index i i.isLt (Nat.le_refl _)
  refine ⟨?in_range, ?index_eq_iff, ?price_of, ?side_of, ?window_order⟩
  case in_range =>
    intro i n hi hn
    exact (sized_after calls n).level_lt (level_of_index i hi hn)
  case index_eq_iff =>
    intro i j
    constructor
    · intro heq
      obtain ⟨hbid, hprice⟩ := hend.level_inj (hlevel i) (heq ▸ hlevel j)
      exact ⟨hbid, UInt32.toNat.inj hprice⟩
    · intro ⟨hbid, hprice⟩
      have hj := hlevel j
      rw [← hbid, ← hprice, hlevel i] at hj
      exact Option.some.inj hj
  case price_of =>
    intro i n hi hn
    exact (hcoded hn).price_of calls[i].price.toNat_lt (level_of_index i hi hn)
  case side_of =>
    intro i n hi hn
    obtain ⟨c, hside, hbid⟩ := (hcoded hn).side_of (level_of_index i hi hn)
    refine ⟨c, hside, ?_⟩
    simpa [isBid, LevelCall.bid] using hbid
  case window_order =>
    intro i j hbid hwin hwin'
    exact hend.level_lt_iff (hlevel i) (hbid ▸ hlevel j) hwin hwin'

/-- The low edge of the window, a price below it, one inside that is not a whole cent, the last
level of the window and the first price above, on both sides. -/
theorem level_indices_faithful_edges :
    let calls : List LevelCall := [⟨100000, 0x42⟩, ⟨48800, 0x42⟩, ⟨48700, 0x42⟩, ⟨100050, 0x42⟩,
      ⟨151100, 0x42⟩, ⟨151200, 0x53⟩, ⟨48800, 0x53⟩]
    (afterCalls calls calls.length).levels.size < 2 ^ 31 ∧ FaithfulCoding calls := by
  have hsize := levels_size_le [⟨100000, 0x42⟩, ⟨48800, 0x42⟩, ⟨48700, 0x42⟩, ⟨100050, 0x42⟩,
    ⟨151100, 0x42⟩, ⟨151200, 0x53⟩, ⟨48800, 0x53⟩] (Nat.le_refl _)
  have hbound := Nat.lt_of_le_of_lt hsize (show _ < 2 ^ 31 by decide)
  exact ⟨hbound, level_indices_faithful _ hbound⟩

end Calls

end FeedHandler.V3.OrderBook
