import FeedHandler.Common.ItchMessages
import FeedHandler.Foundations.OrderedMap

/-!
# The analysis of a feed

The passes of `src/common/analyze_data.cpp`, after which the capacities of the v3 pool and table
and its window were chosen. The first collects prices by symbol, the references that are live, and
the most that ever were. Only additions, deletions and replacements are looked at, so a reference
stays live after its last share is executed or cancelled. `max_live_le` bounds the peak by what a
feed introduces. The second counts for a window how many additions it would have held;
`larger_window` says that the counts of all windows add up to those of the first pass and that a
larger one holds no less.
-/

namespace FeedHandler.Itch

/-- `SymStats`. -/
structure SymStats where
  minPrice : Nat
  maxPrice : Nat
  distinctPrices : OrderedMap Nat Unit

/-- The initial values of `SymStats`. -/
def SymStats.new : SymStats := ⟨2 ^ 32 - 1, 0, ∅⟩

/-- The variables of the first pass. -/
structure AnalyzeData where
  stats : OrderedMap Nat SymStats
  liveOrders : OrderedMap Nat Nat
  maxLive : Nat
  totalAdds : Nat
  notMultipleOf1000 : Nat
  notMultipleOf100 : Nat

namespace AnalyzeData

/-- The variables before the first message. -/
def initial : AnalyzeData := ⟨∅, ∅, 0, 0, 0, 0⟩

/-- The case of an addition. -/
def add (t : AnalyzeData) (m : AddOrder) : AnalyzeData :=
  let s := (t.stats.find? m.stockLocate.toNat).getD .new
  let price := m.price.toNat
  let live := t.liveOrders.assign m.orderRef.toNat m.stockLocate.toNat
  { stats := t.stats.assign m.stockLocate.toNat
      ⟨min s.minPrice price, max s.maxPrice price, s.distinctPrices.assign price ()⟩
    liveOrders := live
    maxLive := max t.maxLive live.length
    totalAdds := t.totalAdds + 1
    notMultipleOf1000 := t.notMultipleOf1000 + if price % 1000 ≠ 0 then 1 else 0
    notMultipleOf100 := t.notMultipleOf100 + if price % 100 ≠ 0 then 1 else 0 }

/-- One message. -/
def step (t : AnalyzeData) : Message → AnalyzeData
  | .addOrder m => t.add m
  | .orderDelete m => { t with liveOrders := t.liveOrders.erase m.orderRef.toNat }
  | .orderReplace m =>
      { t with liveOrders :=
          (t.liveOrders.erase m.originalOrderRef.toNat).assign m.newOrderRef.toNat 0 }
  | .orderExecuted _ | .orderCancel _ => t

/-- All messages of a feed. -/
def analyze (msgs : List Message) : AnalyzeData := msgs.foldl step initial

variable {t : AnalyzeData} {m : Message} {msgs : List Message} {ref : Nat}

theorem analyze_concat (msgs : List Message) (m : Message) :
    analyze (msgs ++ [m]) = (analyze msgs).step m := by
  rw [analyze, List.foldl_append]
  rfl

/-- The peak does not fall. -/
theorem max_live_le_step (t : AnalyzeData) (m : Message) : t.maxLive ≤ (t.step m).maxLive := by
  cases m with
  | addOrder m => exact Nat.le_max_left _ _
  | orderDelete _ | orderReplace _ | orderExecuted _ | orderCancel _ => exact le_rfl

theorem max_live_mono (msgs msgs' : List Message) :
    (analyze msgs).maxLive ≤ (analyze (msgs ++ msgs')).maxLive := by
  induction msgs' using List.reverseRecOn with
  | nil => rw [List.append_nil]
  | append_singleton msgs' m ih =>
      rw [← List.append_assoc, analyze_concat]
      exact ih.trans (max_live_le_step _ m)

/-- A live reference stays live until it is deleted or replaced, and an introduced one is live. -/
theorem live_step (h : m.introduced = some ref ∨
      t.liveOrders.find? ref ≠ none ∧ (m.target = some ref → m.taken ≠ none)) :
    (t.step m).liveOrders.find? ref ≠ none := by
  cases m with
  | addOrder m =>
      show (t.liveOrders.assign _ _).find? ref ≠ none
      rw [OrderedMap.find_assign]
      split
      next => simp
      next hne =>
        rcases h with hintro | ⟨hlive, _⟩
        · exact absurd (Option.some.inj hintro).symm hne
        · exact hlive
  | orderDelete m =>
      show (t.liveOrders.erase _).find? ref ≠ none
      obtain ⟨hlive, hkeep⟩ := h.resolve_left (by simp [Message.introduced])
      rw [OrderedMap.find_erase, if_neg]
      · exact hlive
      · intro heq
        exact hkeep (congrArg some heq.symm) rfl
  | orderReplace m =>
      show ((t.liveOrders.erase _).assign _ 0).find? ref ≠ none
      rw [OrderedMap.find_assign]
      split
      next => simp
      next hne =>
        obtain ⟨hlive, hkeep⟩ := h.resolve_left fun hintro => hne (Option.some.inj hintro).symm
        rw [OrderedMap.find_erase, if_neg]
        · exact hlive
        · intro heq
          exact hkeep (congrArg some heq.symm) rfl
  | orderExecuted m => exact (h.resolve_left (by simp [Message.introduced])).1
  | orderCancel m => exact (h.resolve_left (by simp [Message.introduced])).1

/-- The prices that have been seen of a symbol. -/
def pricesOf (t : AnalyzeData) (locate : Nat) : OrderedMap Nat Unit :=
  ((t.stats.find? locate).getD .new).distinctPrices

/-- An addition adds its price to those of its symbol, and no message takes one away. -/
theorem prices_step {locate price : Nat} (h : (t.pricesOf locate).find? price ≠ none ∨
      ∃ a, m = .addOrder a ∧ a.stockLocate.toNat = locate ∧ a.price.toNat = price) :
    ((t.step m).pricesOf locate).find? price ≠ none := by
  cases m with
  | addOrder a =>
      show (((t.stats.assign _ _).find? locate).getD .new).distinctPrices.find? price ≠ none
      rw [OrderedMap.find_assign]
      split
      next hl =>
        show (OrderedMap.assign _ _ _).find? price ≠ none
        rw [OrderedMap.find_assign]
        split
        next => simp
        next hne =>
          rcases h with hseen | ⟨a', ha', _, hprice⟩
          · exact hl ▸ hseen
          · cases ha'
            exact absurd hprice.symm hne
      next hl =>
        rcases h with hseen | ⟨a', ha', hl', _⟩
        · exact hseen
        · cases ha'
          exact absurd hl'.symm hl
  | orderDelete | orderReplace | orderExecuted | orderCancel => exact h.resolve_right (by simp)

/-- Erasing a key does not add one. -/
theorem length_erase_le (live : OrderedMap Nat Nat) (ref : Nat) :
    (live.erase ref).length ≤ live.length := List.length_filter_le _ _

/-- No more references are live, or ever were, than have been introduced. -/
theorem live_le_introduced (msgs : List Message) :
    (analyze msgs).liveOrders.length ≤ (msgs.filterMap Message.introduced).length ∧
      (analyze msgs).maxLive ≤ (msgs.filterMap Message.introduced).length := by
  induction msgs using List.reverseRecOn with
  | nil => exact ⟨le_rfl, le_rfl⟩
  | append_singleton msgs m ih =>
      obtain ⟨hlive, hmax⟩ := ih
      rw [analyze_concat, List.filterMap_append, List.length_append]
      cases m with
      | addOrder m =>
          have hone := length_erase_le (analyze msgs).liveOrders m.orderRef.toNat
          have hlen := OrderedMap.length_assign (analyze msgs).liveOrders m.orderRef.toNat
            m.stockLocate.toNat
          show (OrderedMap.assign _ _ _).length ≤ _ + 1 ∧ max _ (OrderedMap.assign _ _ _).length ≤
            _ + 1
          omega
      | orderDelete m =>
          have hone := length_erase_le (analyze msgs).liveOrders m.orderRef.toNat
          exact ⟨hone.trans hlive, hmax⟩
      | orderReplace m =>
          have hone := length_erase_le (analyze msgs).liveOrders m.originalOrderRef.toNat
          have htwo := length_erase_le ((analyze msgs).liveOrders.erase m.originalOrderRef.toNat)
            m.newOrderRef.toNat
          have hlen := OrderedMap.length_assign
            ((analyze msgs).liveOrders.erase m.originalOrderRef.toNat) m.newOrderRef.toNat 0
          show (OrderedMap.assign _ _ _).length ≤ _ + 1 ∧ (analyze msgs).maxLive ≤ _ + 1
          omega
      | orderExecuted m => exact ⟨hlive, hmax⟩
      | orderCancel m => exact ⟨hlive, hmax⟩

theorem max_live_le (msgs : List Message) :
    (analyze msgs).maxLive ≤ (msgs.filterMap Message.introduced).length :=
  (live_le_introduced msgs).2

end AnalyzeData

/-! ## The second pass -/

/-- The variables of the second pass for a window. The keys of `base` are of a symbol and a side. -/
structure WindowPass where
  base : OrderedMap Nat Int
  inWindow : Nat
  overflow : Nat
  subpenny : Nat

namespace WindowPass

/-- The variables before the first message. -/
def initial : WindowPass := ⟨∅, 0, 0, 0⟩

/-- The key of a symbol and a side. -/
def keyOf (m : AddOrder) : Nat := (m.stockLocate.toNat <<< 1) ||| if m.side = kBid then 0 else 1

/-- An addition. -/
def add (window : Nat) (t : WindowPass) (m : AddOrder) : WindowPass :=
  if m.price.toNat % 100 ≠ 0 then
    { t with subpenny := t.subpenny + 1, overflow := t.overflow + 1 }
  else
    let cents : Int := (m.price.toNat / 100 : Nat)
    match t.base.find? (keyOf m) with
    | none =>
        { t with
          base := t.base.assign (keyOf m) (cents - (window / 2 : Nat))
          inWindow := t.inWindow + 1 }
    | some base =>
        let off := cents - base
        if 0 ≤ off ∧ off < window then { t with inWindow := t.inWindow + 1 }
        else { t with overflow := t.overflow + 1 }

/-- One message. -/
def step (window : Nat) (t : WindowPass) : Message → WindowPass
  | .addOrder m => t.add window m
  | .orderExecuted _ | .orderCancel _ | .orderDelete _ | .orderReplace _ => t

/-- All messages of a feed. -/
def count (window : Nat) (msgs : List Message) : WindowPass := msgs.foldl (step window) initial

variable {window window' : Nat} {t t' : WindowPass} {msgs : List Message}

theorem count_concat (window : Nat) (msgs : List Message) (m : Message) :
    count window (msgs ++ [m]) = (count window msgs).step window m := by
  rw [count, List.foldl_append]
  rfl

/-- An addition is counted once, and again if its price is not of whole cents. -/
theorem add_totals (window : Nat) (t : WindowPass) (m : AddOrder) :
    (t.add window m).inWindow + (t.add window m).overflow = t.inWindow + t.overflow + 1 ∧
      (t.add window m).subpenny = t.subpenny + if m.price.toNat % 100 ≠ 0 then 1 else 0 := by
  unfold add
  split
  next => exact ⟨rfl, rfl⟩
  next =>
    cases t.base.find? (keyOf m) with
    | none => exact ⟨Nat.succ_add _ _, rfl⟩
    | some base =>
        simp only
        split
        next => exact ⟨Nat.succ_add _ _, rfl⟩
        next => exact ⟨rfl, rfl⟩

/-- The counts of the two passes. -/
theorem count_totals (window : Nat) (msgs : List Message) :
    (count window msgs).inWindow + (count window msgs).overflow =
        (AnalyzeData.analyze msgs).totalAdds ∧
      (count window msgs).subpenny = (AnalyzeData.analyze msgs).notMultipleOf100 := by
  induction msgs using List.reverseRecOn with
  | nil => exact ⟨rfl, rfl⟩
  | append_singleton msgs m ih =>
      obtain ⟨htotal, hsub⟩ := ih
      rw [count_concat, AnalyzeData.analyze_concat]
      cases m with
      | addOrder m =>
          obtain ⟨hadd, haddSub⟩ := add_totals window (count window msgs) m
          exact ⟨hadd.trans (congrArg Nat.succ htotal), haddSub.trans (hsub ▸ rfl)⟩
      | orderExecuted | orderCancel | orderDelete | orderReplace => exact ⟨htotal, hsub⟩

/-- The same symbols and sides have a window, around the same price, and the larger one holds no
less. -/
structure Wider (window window' : Nat) (t t' : WindowPass) : Prop where
  centre : ∀ key, (t.base.find? key).map (fun base : Int => base + (window / 2 : Nat)) =
    (t'.base.find? key).map fun base : Int => base + (window' / 2 : Nat)
  inWindow_le : t.inWindow ≤ t'.inWindow

theorem Wider.add (h : Wider window window' t t') (hle : window ≤ window') (m : AddOrder) :
    Wider window window' (t.add window m) (t'.add window' m) := by
  have hcentre := h.centre (keyOf m)
  have hcount := h.inWindow_le
  unfold WindowPass.add
  split
  next => exact ⟨h.centre, h.inWindow_le⟩
  next hcent =>
    cases hbase : t.base.find? (keyOf m) with
    | none =>
        rw [hbase, Option.map_none, eq_comm, Option.map_eq_none_iff] at hcentre
        rw [hcentre]
        refine ⟨fun key => ?_, Nat.succ_le_succ hcount⟩
        rw [OrderedMap.find_assign, OrderedMap.find_assign]
        split
        next => simp
        next => exact h.centre key
    | some base =>
        rw [hbase, Option.map_some, eq_comm, Option.map_eq_some_iff] at hcentre
        obtain ⟨base', hbase', heq⟩ := hcentre
        rw [hbase']
        simp only
        -- an offset into the smaller window is one into the larger
        split <;> split
        next => exact ⟨h.centre, Nat.succ_le_succ hcount⟩
        next hin hout => omega
        next => exact ⟨h.centre, Nat.le_succ_of_le hcount⟩
        next => exact ⟨h.centre, hcount⟩

theorem wider_count (hle : window ≤ window') (msgs : List Message) :
    Wider window window' (count window msgs) (count window' msgs) := by
  induction msgs using List.reverseRecOn with
  | nil => exact ⟨fun _ => rfl, le_rfl⟩
  | append_singleton msgs m ih =>
      rw [count_concat, count_concat]
      cases m with
      | addOrder m => exact ih.add hle m
      | orderExecuted | orderCancel | orderDelete | orderReplace => exact ih

/-- For every feed and any two windows, what is in a window and what is not add up to the additions
of the first pass, prices that are not of whole cents are those of the first pass, and what the
smaller window holds the larger one does. -/
theorem larger_window (hle : window ≤ window') (msgs : List Message) :
    (count window msgs).inWindow + (count window msgs).overflow =
        (AnalyzeData.analyze msgs).totalAdds ∧
      (count window' msgs).subpenny = (AnalyzeData.analyze msgs).notMultipleOf100 ∧
      (count window msgs).inWindow ≤ (count window' msgs).inWindow ∧
      (count window' msgs).overflow ≤ (count window msgs).overflow := by
  obtain ⟨htotal, _⟩ := count_totals window msgs
  obtain ⟨htotal', hsub'⟩ := count_totals window' msgs
  have hin := (wider_count hle msgs).inWindow_le
  exact ⟨htotal, hsub', hin, by omega⟩

-- A bid two hundred cents above the first is in the larger window only.
example : (count 256 [.add 1 10 kBid 5 1000000, .add 1 11 kBid 5 1020000]).inWindow = 1 ∧
    (count 1024 [.add 1 10 kBid 5 1000000, .add 1 11 kBid 5 1020000]).inWindow = 2 := by decide

end WindowPass

end FeedHandler.Itch
