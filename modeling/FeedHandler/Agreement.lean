import FeedHandler.Book.Selections
import FeedHandler.Reordering
import FeedHandler.Equivalence
import FeedHandler.V3.Capacity

/-!
# The books agree on every selection of a history

`v3_simulates_v1` asks at every message what the books are in when it comes. Here the conditions are
about the messages alone: they are some messages of a valid history, in any order, and the peak that
the analysis finds in them fits the pool and half of the table. Read `InStep` first.
`selections_agree` says that the v1 and the v3 books then answer every question alike.
-/

namespace FeedHandler

open Itch Book Runs V3

/-- The v1 and the v3 books after a selection of the messages of a history. -/
structure InStep (hash : Nat → Nat) (capacity refCapacity : Nat) (msgs seen : List Message)
    (s : V3.Store) (t : V1.Store) (lists : Lists) (os : Nat → Orders) : Prop where
  v3 : s.Follows hash capacity lists os
  v1 : t.Follows os
  selected : Selected msgs seen os
  balanced : Balanced s
  known : Known s (AnalyzeData.analyze seen)
  table : s.refs.slots.size = refCapacity
  small : ∀ locate, (s.bookOf locate).levels.size ≤ 2 * kWindow + seen.length

section Steps

variable {hash : Nat → Nat} {capacity refCapacity : Nat} {msgs seen : List Message}
  {s : V3.Store} {t : V1.Store} {lists : Lists} {os : Nat → Orders} {m : Message}

/-- A reference in the table stands for an order of the book whose level its slot is on. -/
theorem order_of_lookup (h : s.Follows hash capacity lists os) {ref x locate i : Nat}
    (hname : s.refs.lookup ref = some x) (hx : x ∈ lists (some (locate, i))) :
    ∃ o ∈ os locate, o.ref = some ref := by
  have hsome := (h.shows locate).named_is_some ref
  rw [V3.Store.view, named_iff.mpr ⟨hname, i, hx⟩, Option.isSome_some, eq_comm,
    Option.isSome_iff_exists] at hsome
  obtain ⟨o, ho⟩ := hsome
  exact ⟨o, named_mem ho⟩

/-- A message of a selection is admitted. -/
theorem admitted_of_selected (h : s.Follows hash capacity lists os)
    (hselected : Selected msgs seen os) (hmsgs : Coherent msgs) (hkeys : Keyed msgs)
    (hpart : (seen ++ [m]).Subperm msgs) :
    Admitted s lists m where
  keys := hkeys m (mem_of_part hpart)
  own ref href x locate i hname hx := by
    obtain ⟨o, ho, hoRef⟩ := order_of_lookup h hname hx
    exact hselected.own hmsgs hpart href ho hoRef

/-- A message of a selection introduces a reference that is not in the table. -/
theorem fresh_of_selected (h : s.Follows hash capacity lists os)
    (hselected : Selected msgs seen os) (hmsgs : Coherent msgs)
    (hpart : (seen ++ [m]).Subperm msgs) : Fresh s m := by
  have hnew : ∀ ref, m.introduced = some ref → s.refs.lookup ref = none := by
    intro ref hintro
    cases hname : s.refs.lookup ref with
    | none => rfl
    | some x =>
        obtain ⟨locate, i, hx⟩ := h.inv.named ref x hname
        obtain ⟨o, ho, hoRef⟩ := order_of_lookup h hname hx
        exact absurd hoRef (hselected.fresh hmsgs hpart hintro locate o ho)
  cases m with
  | addOrder m => exact hnew _ rfl
  | orderReplace m => exact fun _ => hnew _ rfl
  | orderExecuted _ | orderCancel _ | orderDelete _ => trivial

/-- An addition of a selection finds room if the peak behind it fits. -/
theorem InStep.has_space (h : InStep hash capacity refCapacity msgs seen s t lists os)
    (hmsgs : Coherent msgs) (hpart : (seen ++ [m]).Subperm msgs)
    (hfits : Fits capacity refCapacity (AnalyzeData.analyze (seen ++ [m]))) : s.HasSpace m := by
  rw [AnalyzeData.analyze_concat, ← h.table] at hfits
  have hfresh := fresh_of_selected h.v3 h.selected hmsgs hpart
  exact has_space_of_live h.v3.inv h.balanced hfresh h.known hfits

/-- One message of a selection. -/
theorem InStep.step (h : InStep hash capacity refCapacity msgs seen s t lists os)
    (hmsgs : Coherent msgs) (hkeys : Keyed msgs) (hpart : (seen ++ [m]).Subperm msgs)
    (hfits : Fits capacity refCapacity (AnalyzeData.analyze (seen ++ [m])))
    (hshort : 2 * kWindow + seen.length < 2 ^ 31) :
    ∃ s' t' lists' os', s.step hash m = some s' ∧ t.step m = some t' ∧
      InStep hash capacity refCapacity msgs (seen ++ [m]) s' t' lists' os' := by
  have hadmitted := admitted_of_selected h.v3 h.selected hmsgs hkeys hpart
  have hadmissible := hadmitted.admissible h.v3.inv
  have hfresh := fresh_of_selected h.v3 h.selected hmsgs hpart
  have hsmall : s.Small := fun locate => (h.small locate).trans_lt hshort
  have hspace := h.has_space hmsgs hpart hfits
  have hroom : HasRoom s m := by
    cases m with
    | addOrder a => exact .inr hspace.2
    | orderExecuted _ | orderCancel _ | orderDelete _ | orderReplace _ => trivial
  obtain ⟨s', lists', hs', h3⟩ := h.v3.step hadmitted hsmall hspace
  obtain ⟨t', ht', h1⟩ := h.v1.step (h.selected.within hmsgs hpart)
  obtain ⟨_, _, heffect⟩ := h.v3.inv.effect_of_step hadmissible hs'
  obtain ⟨s'', _, hs'', _, hlevels⟩ := step_inv h.v3.inv hadmissible
  obtain rfl := Option.some.inj (hs''.symm.trans hs')
  refine ⟨s'', t', lists', _, hs', ht', h3, h1, h.selected.concat hpart rfl, ?_, ?_, ?_, ?_⟩
  · exact balanced_step h.v3.inv hadmissible hfresh hroom h.balanced hs'
  · rw [AnalyzeData.analyze_concat]
    exact h.known.step heffect
  · exact heffect.table_eq.trans h.table
  · intro locate
    have hle := h.small locate
    have hone := hlevels locate
    rw [List.length_append, List.length_singleton]
    omega

/-- Before the first message. -/
theorem in_step_new {refExp : Nat} (hexp : 1 ≤ refExp)
    (hnew : V3.Store.new capacity (2 ^ refExp) = some s) :
    InStep hash capacity (2 ^ refExp) msgs [] s ∅ (initialLists capacity) fun _ => [] where
  v3 := V3.Store.follows_new hexp hnew
  v1 := V1.Store.follows_new
  selected := selected_nil msgs
  balanced := balanced_new hexp hnew
  known ref href := absurd (lookup_new hexp hnew ref) href
  table := by
    simp only [V3.Store.new, Option.bind_eq_bind, Option.bind_eq_some_iff, Option.pure_def,
      Option.some.injEq] at hnew
    obtain ⟨_, _, rfl⟩ := hnew
    simp [RefTable.new]
  small locate := by
    rw [book_of_new hnew]
    simp [OrderBook.new]

/-- The messages of a selection, one by one. -/
theorem InStep.run {rest : List Message}
    (h : InStep hash capacity refCapacity msgs seen s t lists os) (hmsgs : Coherent msgs)
    (hkeys : Keyed msgs) (hpart : (seen ++ rest).Subperm msgs)
    (hfits : Fits capacity refCapacity (AnalyzeData.analyze (seen ++ rest)))
    (hshort : 2 * kWindow + (seen ++ rest).length ≤ 2 ^ 31) :
    ∃ s' t' lists' os', Runs.run (V3.Store.step hash) s rest = some s' ∧
      Runs.run V1.Store.step t rest = some t' ∧
      InStep hash capacity refCapacity msgs (seen ++ rest) s' t' lists' os' := by
  induction rest generalizing seen s t lists os with
  | nil => exact ⟨s, t, lists, os, rfl, rfl, by rwa [List.append_nil]⟩
  | cons m rest ih =>
      rw [List.append_cons] at hpart hfits hshort ⊢
      have hfirst : (seen ++ [m]).Subperm msgs :=
        (List.sublist_append_left _ _).subperm.trans hpart
      have hfits' := hfits.mono (List.prefix_append (seen ++ [m]) rest)
      simp only [List.length_append, List.length_singleton] at hshort
      obtain ⟨s₁, t₁, lists₁, os₁, hs₁, ht₁, h₁⟩ :=
        h.step hmsgs hkeys hfirst hfits' (by omega)
      obtain ⟨s', t', lists', os', hs', ht', h'⟩ := ih h₁ hpart hfits (by
        simp only [List.length_append, List.length_singleton]
        omega)
      exact ⟨s', t', lists', os', by rw [run_cons, hs₁, Option.bind_some, hs'],
        by rw [run_cons, ht₁, Option.bind_some, ht'], h'⟩

end Steps

/-- The v1 and the v3 books after a selection of a valid history. -/
theorem in_step_of_selection (hash : Nat → Nat) {capacity refExp : Nat} {s : V3.Store}
    (hexp : 1 ≤ refExp) (hnew : V3.Store.new capacity (2 ^ refExp) = some s)
    {msgs got : List Message} (hvalid : ValidHistory msgs) (hkeys : Keyed msgs)
    (hpart : got.Subperm msgs) (hfits : Fits capacity (2 ^ refExp) (AnalyzeData.analyze got))
    (hshort : 2 * kWindow + got.length ≤ 2 ^ 31) :
    ∃ s' t' lists os, run (V3.Store.step hash) s got = some s' ∧
      run V1.Store.step ∅ got = some t' ∧
      InStep hash capacity (2 ^ refExp) msgs got s' t' lists os :=
  (in_step_new hexp hnew).run hvalid.good.2 hkeys hpart hfits hshort

/-- Take some of the messages of a valid history without the empty key, in any order, so that
references may be unknown when they are named, and few enough for the level indices. If the peak of
live references in them fits the pool and half of the table, the v1 and the v3 books answer every
question alike after every message, and no addition is dropped or refused. -/
theorem selections_agree (hash : Nat → Nat) {capacity refExp : Nat} {s : V3.Store}
    (hexp : 1 ≤ refExp) (hnew : V3.Store.new capacity (2 ^ refExp) = some s)
    {msgs got : List Message} (hvalid : ValidHistory msgs) (hkeys : Keyed msgs)
    (hpart : got.Subperm msgs) (hfits : Fits capacity (2 ^ refExp) (AnalyzeData.analyze got))
    (hshort : 2 * kWindow + got.length ≤ 2 ^ 31) {seen : List Message} (hseen : seen <+: got) :
    ∃ s' t', run (V3.Store.step hash) s seen = some s' ∧ run V1.Store.step ∅ seen = some t' ∧
      Equivalent hash s' t' ∧ ∀ m, seen ++ [m] <+: got → s'.HasSpace m := by
  have hlen := hseen.length_le
  obtain ⟨s', t', lists, os, hs', ht', h⟩ := in_step_of_selection hash hexp hnew hvalid hkeys
    (hseen.sublist.subperm.trans hpart) (hfits.mono hseen) (by omega)
  refine ⟨s', t', hs', ht', equivalent_of_follows h.v3 h.v1, fun m hm => ?_⟩
  exact h.has_space hvalid.good.2 (hm.sublist.subperm.trans hpart) (hfits.mono hm)

/-- A replacement that overtakes the addition of its order, and a deletion that is lost. -/
theorem selections_agree_late_addition :
    ∃ s s' t', V3.Store.new 4 (2 ^ 2) = some s ∧
      run (V3.Store.step RefTable.hash) s
        [.replace 1 10 11 7 10100, .add 1 10 kBid 5 10000, .execute 1 10 2] = some s' ∧
      run V1.Store.step ∅
        [.replace 1 10 11 7 10100, .add 1 10 kBid 5 10000, .execute 1 10 2] = some t' ∧
      Equivalent RefTable.hash s' t' := by
  obtain ⟨s, hnew⟩ : ∃ s, V3.Store.new 4 (2 ^ 2) = some s := ⟨_, rfl⟩
  have hvalid : ValidHistory [.add 1 10 kBid 5 10000, .execute 1 10 2,
      .replace 1 10 11 7 10100, .delete 1 11] := by decide
  have hpart : [Message.replace 1 10 11 7 10100, .add 1 10 kBid 5 10000,
      .execute 1 10 2].Subperm [.add 1 10 kBid 5 10000, .execute 1 10 2,
        .replace 1 10 11 7 10100, .delete 1 11] :=
    ⟨[.add 1 10 kBid 5 10000, .execute 1 10 2, .replace 1 10 11 7 10100], by decide, by decide⟩
  have hfits : Fits 4 (2 ^ 2) (AnalyzeData.analyze
      [.replace 1 10 11 7 10100, .add 1 10 kBid 5 10000, .execute 1 10 2]) :=
    ⟨by decide, by decide⟩
  obtain ⟨s', t', hs', ht', hequiv, _⟩ := selections_agree RefTable.hash (by decide) hnew hvalid
    (by decide) hpart hfits (by decide) (List.prefix_refl _)
  exact ⟨s, s', t', hnew, hs', ht', hequiv⟩

end FeedHandler
