import FeedHandler.V3.Steps

/-!
# What a message leaves alone

`Effect.frame` says that a message to one book changes nothing of the others: not their lists, not
the quantities on them and not the references of their orders. `Effect.lookup_eq` says that the
table changes at the references of the message only.
-/

namespace FeedHandler.V3

open Itch Slots

section Names

variable {s s' : Shared} {t t' : RefTable} {b b' : OrderBook} {ref ref' x y : Nat}

/-- An insertion changes one entry. -/
theorem Inserted.lookup_eq (h : Inserted t t' ref x) (hne : ref' ≠ ref) :
    t'.lookup ref' = t.lookup ref' := by
  rcases h.cases with ⟨_, rfl⟩ | ⟨_, hmap, _⟩
  · rfl
  · rw [hmap, Function.update_of_ne hne]

/-- Inserting another node under a reference that does not name `y` keeps the names of `y`. -/
theorem Inserted.names_iff (h : Inserted t t' ref x) (hy : y ≠ x) (hother : t.lookup ref ≠ some y) :
    t'.lookup ref' = some y ↔ t.lookup ref' = some y := by
  by_cases hne : ref' = ref
  · subst hne
    refine iff_of_false (fun hname => ?_) hother
    rcases h.cases with ⟨_, rfl⟩ | ⟨_, hmap, _⟩
    · exact hother hname
    · rw [hmap, Function.update_self] at hname
      exact hy (Option.some.inj hname).symm
  · rw [h.lookup_eq hne]

/-- A removal forgets one entry. -/
theorem Removed.lookup_of_ne (h : Removed s s' b b' ref) (hne : ref' ≠ ref) :
    s'.refs.lookup ref' = s.refs.lookup ref' := by
  rw [h.lookup_eq, Function.update_of_ne hne]

/-- Removing another node keeps the names of `y`. -/
theorem Removed.names_iff (h : Removed s s' b b' ref) (hname : s.refs.lookup ref = some x)
    (hy : y ≠ x) : s'.refs.lookup ref' = some y ↔ s.refs.lookup ref' = some y := by
  by_cases hne : ref' = ref
  · subst hne
    rw [h.lookup_eq, Function.update_self, hname, Option.some.injEq]
    exact iff_of_false (by simp) (Ne.symm hy)
  · rw [h.lookup_of_ne hne]

end Names

section Frame

variable {hash : Nat → Nat} {capacity : Nat} {s : Store} {lists lists' : Lists} {m : Message}
  {s' : Shared} {b' : OrderBook}

/-- The table changes at the references of the message only. -/
theorem Effect.lookup_eq {locate : Nat} {s : Shared} {b : OrderBook}
    (h : Effect locate s b lists m s' b' lists') {ref : Nat} (href : ref ∉ m.refs) :
    s'.refs.lookup ref = s.refs.lookup ref := by
  have htarget : ∀ {ref'}, m.target = some ref' → ref ≠ ref' :=
    fun hm heq => href (heq ▸ Message.target_mem hm)
  cases h with
  | ignored => rfl
  | dropped => rfl
  | placed _ hplaced => exact hplaced.refs.lookup_eq fun heq => href (by simp [Message.refs, heq])
  | reduced _ _ _ _ _ _ _ _ _ hrefs => rw [hrefs]
  | removed hm _ _ _ hremoved => exact hremoved.lookup_of_ne (htarget hm)
  | replaced _ _ _ hremoved _ _ hplaced =>
      rw [hplaced.refs.lookup_eq fun heq => href (by simp [Message.refs, heq]),
        hremoved.lookup_of_ne fun heq => href (by simp [Message.refs, heq])]

/-- The lists of the other books, the quantities on them and the references of their orders. -/
theorem Effect.frame (h : Inv hash capacity s.toShared s.bookOf lists) (hok : Admitted s lists m)
    (heffect : Effect m.stockLocate s.toShared (s.bookOf m.stockLocate) lists m s' b' lists')
    {k : Nat} (hk : k ≠ m.stockLocate) (i : Nat) :
    lists' (some (k, i)) = lists (some (k, i)) ∧
      ∀ y ∈ lists (some (k, i)), (s'.pool.get y).qty = (s.pool.get y).qty ∧
        ∀ ref, s'.refs.lookup ref = some y ↔ s.refs.lookup ref = some y := by
  have hother : ∀ j, some (k, i) ≠ some (m.stockLocate, j) := by simp [hk]
  -- a node of another book is none of the nodes the message is about
  have happart : ∀ {x y : Nat} {j : Option (Nat × Nat)}, j ≠ some (k, i) → x ∈ lists j →
      y ∈ lists (some (k, i)) → y ≠ x := by
    intro x y j hj hx hy heq
    subst heq
    exact h.apart hj hx hy
  have hnew : ∀ {ref}, ref ∈ m.refs → ∀ y ∈ lists (some (k, i)), s.refs.lookup ref ≠ some y :=
    fun href y hy hname => hk (hok.own _ href y k i hname hy)
  cases heffect with
  | ignored => exact ⟨rfl, fun y _ => ⟨rfl, fun _ => Iff.rfl⟩⟩
  | dropped => exact ⟨rfl, fun y _ => ⟨rfl, fun _ => Iff.rfl⟩⟩
  | @placed _ x _ _ _ _ hfree hplaced =>
      refine ⟨move_other (by simp) (hother _), fun y hy => ?_⟩
      have hyx : y ≠ x := happart (j := none) (by simp) (hfree ▸ List.mem_cons_self) hy
      exact ⟨hplaced.qty_other y hyx, fun ref =>
        hplaced.refs.names_iff hyx (hnew (by simp [Message.refs]) y hy)⟩
  | reduced _ _ _ hx _ _ _ _ hsame hrefs =>
      refine ⟨rfl, fun y hy => ⟨hsame y (happart (hother _).symm hx hy), fun ref => by rw [hrefs]⟩⟩
  | @removed _ _ x i' l k' _ _ hm hname _ hlist hremoved =>
      refine ⟨move_other (hother _) (by simp), fun y hy => ⟨hremoved.qty y, fun ref => ?_⟩⟩
      exact hremoved.names_iff hname
        (happart (x := x) (hother i').symm (by simp [hlist]) hy)
  | @replaced _ x i' j _ l k' s₁ _ b₁ _ lists₁ hname hlist _ hremoved hlists _ hplaced =>
      have hsame : lists₁ (some (k, i)) = lists (some (k, i)) := by
        rw [hlists, move_other (hother i') (by simp)]
      refine ⟨(move_other (by simp) (hother j)).trans hsame, fun y hy => ?_⟩
      have hyx : y ≠ x := happart (hother i').symm (by simp [hlist]) hy
      refine ⟨(hplaced.qty_other y hyx).trans (hremoved.qty y), fun ref => ?_⟩
      rw [hplaced.refs.names_iff hyx, hremoved.names_iff hname hyx]
      rw [Ne, hremoved.names_iff hname hyx]
      exact hnew (by simp [Message.refs]) y hy

end Frame

end FeedHandler.V3
