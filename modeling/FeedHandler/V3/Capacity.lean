import FeedHandler.Common.AnalyzeData
import FeedHandler.V3.AllOrNothing
import FeedHandler.V3.View

/-!
# How large the pool and the table have to be

The capacities of `src/v3/main.cpp` were chosen by the peak that `analyze_data` prints. The table
never holds a reference that is not live in the analysis (`Known.step`), and as long as the levels
and the table are in balance its size is the number of used slots. So additions find room as long as
the peak fits the pool and half of the table (`has_space_of_live`).
-/

namespace FeedHandler.V3

open Itch OrderBook Runs Slots

/-- Every reference in the table is live in the analysis. -/
def Known (s : Store) (t : AnalyzeData) : Prop :=
  ∀ ref, s.refs.lookup ref ≠ none → t.liveOrders.find? ref ≠ none

/-- The peak of the analysis fits the pool and half of the table. -/
structure Fits (capacity refCapacity : Nat) (t : AnalyzeData) : Prop where
  pool : t.maxLive ≤ min capacity kNullIdx
  table : 2 * t.maxLive ≤ refCapacity

/-- A part of a feed has no higher peak. -/
theorem Fits.mono {capacity refCapacity : Nat} {seen msgs : List Message}
    (h : Fits capacity refCapacity (AnalyzeData.analyze msgs)) (hseen : seen <+: msgs) :
    Fits capacity refCapacity (AnalyzeData.analyze seen) := by
  obtain ⟨rest, rfl⟩ := hseen
  have hpeak := AnalyzeData.max_live_mono seen rest
  exact ⟨hpeak.trans h.pool, (Nat.mul_le_mul_left 2 hpeak).trans h.table⟩

/-- Keys that include those of a table bound its size. -/
theorem RefTable.WF.size_le {hash : Nat → Nat} {t : RefTable} (h : t.WF hash) {keys : List Nat}
    (hkeys : ∀ ref, t.lookup ref ≠ none → ref ∈ keys) : t.size ≤ keys.length := by
  rw [h.size_eq]
  refine h.probing.load_le fun ref x hx => hkeys ref ?_
  rw [(RefTable.lookup_eq_some_iff h).mpr hx]
  exact Option.some_ne_none x

section Steps

variable {hash : Nat → Nat} {capacity locate : Nat} {s s' : Store} {lists lists' : Lists}
  {m : Message} {t : AnalyzeData}

/-- The capacity of the table does not change. -/
theorem Effect.table_eq {s s' : Shared} {b b' : OrderBook}
    (h : Effect locate s b lists m s' b' lists') : s'.refs.slots.size = s.refs.slots.size := by
  cases h with
  | ignored => rfl
  | dropped => rfl
  | placed _ hplaced => exact hplaced.refs.capacity_eq
  | reduced _ _ _ _ _ _ _ _ _ hrefs => rw [hrefs]
  | removed _ _ _ _ hremoved => exact hremoved.capacity_eq
  | replaced _ _ _ hremoved _ _ hplaced =>
      exact hplaced.refs.capacity_eq.trans hremoved.capacity_eq

/-- A reference in the table after an insertion is the inserted one or was there. -/
theorem Inserted.lookup_ne {t t' : RefTable} {ref x r : Nat} (h : Inserted t t' ref x)
    (hr : t'.lookup r ≠ none) : r = ref ∨ t.lookup r ≠ none := by
  by_cases heq : r = ref
  · exact .inl heq
  · exact .inr (h.lookup_eq heq ▸ hr)

/-- What a message does to the table it does to the live references. -/
theorem Known.step (h : Known s t)
    (heffect : Effect m.stockLocate s.toShared (s.bookOf m.stockLocate) lists m s'.toShared
      (s'.bookOf m.stockLocate) lists') : Known s' (t.step m) := by
  intro r hr
  refine AnalyzeData.live_step ?_
  obtain ⟨b', hb'⟩ : ∃ b', s'.bookOf m.stockLocate = b' := ⟨_, rfl⟩
  obtain ⟨sh, hsh⟩ : ∃ sh, s'.toShared = sh := ⟨_, rfl⟩
  rw [hb', hsh] at heffect
  rw [hsh] at hr
  cases heffect with
  | ignored hm hname =>
      refine .inr ⟨h r hr, fun htarget => ?_⟩
      obtain rfl := Option.some.inj (hm.symm.trans htarget)
      exact absurd hname hr
  | dropped => exact .inr ⟨h r hr, fun htarget => by cases htarget⟩
  | placed _ hplaced =>
      rcases hplaced.refs.lookup_ne hr with rfl | hold
      · exact .inl rfl
      · exact .inr ⟨h r hold, fun htarget => by cases htarget⟩
  | reduced _ hqty _ _ _ _ _ _ _ hrefs =>
      rw [hrefs] at hr
      exact .inr ⟨h r hr, fun _ hnone => by rw [hqty] at hnone; cases hnone⟩
  | removed hm _ _ _ hremoved =>
      rw [hremoved.lookup_eq, Function.update_apply] at hr
      split at hr
      next => exact absurd rfl hr
      next hne =>
        refine .inr ⟨h r hr, fun htarget => ?_⟩
        exact absurd (Option.some.inj (htarget.symm.trans hm)) hne
  | replaced _ _ _ hremoved _ _ hplaced =>
      rcases hplaced.refs.lookup_ne hr with rfl | hold
      · exact .inl rfl
      · rw [hremoved.lookup_eq, Function.update_apply] at hold
        split at hold
        next => exact absurd rfl hold
        next hne =>
          refine .inr ⟨h r hold, fun htarget => ?_⟩
          exact absurd (Option.some.inj htarget).symm hne

/-- The conditions of a message, in terms of the store. -/
theorem Admitted.admissible (hok : Admitted s lists m)
    (h : Inv hash capacity s.toShared s.bookOf lists) : s.Admissible m where
  keys := hok.keys
  own ref href locate hlive := by
    obtain ⟨x, i, hname, hx⟩ := h.live_in_iff.mp hlive
    exact hok.own ref href x locate i hname hx

/-- An addition finds room if the peak behind it fits. -/
theorem has_space_of_live (h : Inv hash capacity s.toShared s.bookOf lists)
    (hbalanced : Balanced s) (hfresh : Fresh s m) (hknown : Known s t)
    (hfits : Fits capacity s.refs.slots.size (t.step m)) : s.HasSpace m := by
  cases m with
  | addOrder a =>
      obtain ⟨hpool, htable⟩ := hfits
      obtain ⟨live, hlive⟩ : ∃ live, live = t.liveOrders.assign a.orderRef.toNat
        a.stockLocate.toNat := ⟨_, rfl⟩
      have hpeak : live.length ≤ (t.step (.addOrder a)).maxLive := hlive ▸ Nat.le_max_right _ _
      -- the references in the table and the new one are live now
      have hsize : s.refs.size + 1 ≤ live.length := by
        have hkeys : ∀ ref, s.refs.lookup ref ≠ none →
            ref ∈ (t.liveOrders.erase a.orderRef.toNat).entries.map Prod.fst := by
          intro ref href
          obtain ⟨locate, hlocate⟩ := Option.ne_none_iff_exists'.mp (hknown ref href)
          refine List.mem_map.mpr ⟨(ref, locate), ?_, rfl⟩
          rw [OrderedMap.mem_entries_iff, OrderedMap.find_erase, if_neg, hlocate]
          intro heq
          subst heq
          exact href hfresh
        have hle := h.refs.size_le hkeys
        rw [List.length_map] at hle
        rw [hlive, OrderedMap.length_assign]
        exact Nat.succ_le_succ hle
      rw [h.balanced_iff] at hbalanced
      refine ⟨fun hnull => ?_, by omega⟩
      rw [h.free_head_eq_null_iff.mp hnull, List.length_nil] at hbalanced
      omega
  | orderExecuted _ | orderCancel _ | orderDelete _ | orderReplace _ => trivial

end Steps

end FeedHandler.V3
