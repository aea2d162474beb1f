import Mathlib.Data.List.Nodup
import Mathlib.Data.List.Perm.Basic
import Mathlib.Data.Set.Card
import Mathlib.Logic.Function.Basic

/-!
# Slots on lists

A pool of slots numbered from zero, each on exactly one of a family of lists. `Partitioned.move`
says that moving a slot from one list to another keeps it so, `Partitioned.ncard_add_length` counts
the slots on the other lists than one.
-/

namespace FeedHandler.Slots

universe u

variable {κ : Type u}

/-- Every slot below `n` stands on exactly one list, once. -/
structure Partitioned (n : Nat) (lists : κ → List Nat) : Prop where
  nodup : ∀ k, (lists k).Nodup
  disjoint : ∀ k k' x, x ∈ lists k → x ∈ lists k' → k = k'
  lt : ∀ k x, x ∈ lists k → x < n
  cover : ∀ x, x < n → ∃ k, x ∈ lists k

variable [DecidableEq κ] {n x : Nat} {lists : κ → List Nat} {a b : κ} {la lb : List Nat}

/-- The family after a slot has moved from list `a` to list `b`. -/
def move (lists : κ → List Nat) (a b : κ) (la lb : List Nat) : κ → List Nat :=
  Function.update (Function.update lists a la) b lb

theorem move_dst : move lists a b la lb b = lb := Function.update_self ..

theorem move_src (hab : a ≠ b) : move lists a b la lb a = la := by
  rw [move, Function.update_of_ne hab, Function.update_self]

theorem move_other {k : κ} (ha : k ≠ a) (hb : k ≠ b) : move lists a b la lb k = lists k := by
  rw [move, Function.update_of_ne hb, Function.update_of_ne ha]

/-- Which slots a list holds after a move. -/
theorem Partitioned.mem_move (h : Partitioned n lists) (hab : a ≠ b)
    (ha : (lists a).Perm (x :: la)) (hb : lb.Perm (x :: lists b)) (k : κ) (y : Nat) :
    y ∈ move lists a b la lb k ↔ (y = x ∧ k = b) ∨ (y ≠ x ∧ y ∈ lists k) := by
  have hxa : x ∈ lists a := ha.mem_iff.mpr List.mem_cons_self
  have hnodup : x ∉ la := (List.nodup_cons.mp (ha.nodup_iff.mp (h.nodup a))).1
  by_cases hkb : k = b
  · subst hkb
    have hxb : x ∉ lists k := fun hx => hab (h.disjoint a k x hxa hx)
    rw [move_dst, hb.mem_iff, List.mem_cons]
    by_cases hy : y = x
    · simp [hy]
    · simp [hy]
  · by_cases hka : k = a
    · subst hka
      rw [move_src hab, ha.mem_iff, List.mem_cons]
      by_cases hy : y = x
      · simp [hy, hnodup, hab]
      · simp [hy]
    · rw [move_other hka hkb]
      by_cases hy : y = x
      · subst hy
        simp only [hkb, and_false, false_or, ne_eq, not_true, false_and, iff_false]
        exact fun hx => hka (h.disjoint k a y hx hxa)
      · simp [hy]

/-- Moving a slot keeps the partition. -/
theorem Partitioned.move (h : Partitioned n lists) (hab : a ≠ b)
    (ha : (lists a).Perm (x :: la)) (hb : lb.Perm (x :: lists b)) :
    Partitioned n (move lists a b la lb) := by
  have hmem := h.mem_move hab ha hb
  have hxa : x ∈ lists a := ha.mem_iff.mpr List.mem_cons_self
  refine ⟨fun k => ?_, fun k k' y hy hy' => ?_, fun k y hy => ?_, fun y hy => ?_⟩
  · by_cases hkb : k = b
    · subst hkb
      rw [move_dst, hb.nodup_iff, List.nodup_cons]
      exact ⟨fun hx => hab (h.disjoint a k x hxa hx), h.nodup k⟩
    · by_cases hka : k = a
      · subst hka
        rw [move_src hab]
        exact (List.nodup_cons.mp (ha.nodup_iff.mp (h.nodup k))).2
      · rw [move_other hka hkb]
        exact h.nodup k
  · rcases (hmem k y).mp hy with ⟨rfl, hk⟩ | ⟨hne, hk⟩ <;>
      rcases (hmem k' y).mp hy' with ⟨heq, hk'⟩ | ⟨hne', hk'⟩
    · exact hk.trans hk'.symm
    · exact absurd rfl hne'
    · exact absurd heq hne
    · exact h.disjoint k k' y hk hk'
  · rcases (hmem k y).mp hy with ⟨rfl, _⟩ | ⟨_, hk⟩
    · exact h.lt a y hxa
    · exact h.lt k y hk
  · by_cases hyx : y = x
    · exact ⟨b, (hmem b y).mpr (.inl ⟨hyx, rfl⟩)⟩
    · obtain ⟨k, hk⟩ := h.cover y hy
      exact ⟨k, (hmem k y).mpr (.inr ⟨hyx, hk⟩)⟩

omit [DecidableEq κ] in
/-- The slots on the lists other than `k`, and those on `k`. -/
theorem Partitioned.ncard_add_length (h : Partitioned n lists) (k : κ) :
    {x | ∃ k', k' ≠ k ∧ x ∈ lists k'}.ncard + (lists k).length = n := by
  have hset : {x | ∃ k', k' ≠ k ∧ x ∈ lists k'} =
      ((Finset.range n \ (lists k).toFinset : Finset Nat) : Set Nat) := by
    ext x
    simp only [Set.mem_ofPred_eq, Finset.coe_sdiff, Set.mem_sdiff, Finset.mem_coe, Finset.mem_range,
      List.mem_toFinset]
    constructor
    · intro hgiven
      obtain ⟨k', hk', hx⟩ := hgiven
      exact ⟨h.lt k' x hx, fun hx' => hk' (h.disjoint k' k x hx hx')⟩
    · intro hboth
      obtain ⟨hlt, hx⟩ := hboth
      obtain ⟨k', hx'⟩ := h.cover x hlt
      exact ⟨k', fun heq => hx (heq ▸ hx'), hx'⟩
  have hsub : (lists k).toFinset ⊆ Finset.range n := fun x hx =>
    Finset.mem_range.mpr (h.lt k x (List.mem_toFinset.mp hx))
  have hcard := Finset.card_sdiff_add_card_eq_card hsub
  rw [List.toFinset_card_of_nodup (h.nodup k), Finset.card_range] at hcard
  rw [hset, Set.ncard_coe_finset, hcard]

end FeedHandler.Slots
