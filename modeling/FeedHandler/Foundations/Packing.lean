import Mathlib.Data.List.Infix

/-!
# Greedy packing

A list is cut into consecutive groups that fit, each as long as possible. `length_greedy_le` says
that no other way to cut it into groups that fit needs fewer groups, as long as every part of what
fits does.
-/

namespace FeedHandler.Packing

universe u

variable {α : Type u} (fits : List α → Prop) [DecidablePred fits]

/-- The groups of a list behind an open group. -/
def greedy : List α → List α → List (List α)
  | [], [] => []
  | cur, [] => [cur]
  | cur, x :: xs => if fits (cur ++ [x]) then greedy (cur ++ [x]) xs else cur :: greedy [x] xs

variable {fits} {cur xs : List α} {x : α} {gs : List (List α)}

theorem greedy_cons (cur : List α) (x : α) (xs : List α) : greedy fits cur (x :: xs) =
    if fits (cur ++ [x]) then greedy fits (cur ++ [x]) xs else cur :: greedy fits [x] xs := by
  cases cur <;> rfl

theorem greedy_nil (hcur : cur ≠ []) : greedy fits cur [] = [cur] := by
  cases cur with
  | nil => exact absurd rfl hcur
  | cons y cur => rfl

/-- Groups that fit and still have to cover the open group need as many groups as the greedy
ones. -/
theorem length_greedy_le_behind (hclosed : ∀ g g', g' <:+: g → fits g → fits g') (hcur : cur ≠ [])
    (behind : List α) (hflat : gs.flatten = behind ++ (cur ++ xs)) (hgs : ∀ g ∈ gs, fits g) :
    (greedy fits cur xs).length ≤ gs.length := by
  induction xs generalizing cur behind gs with
  | nil =>
      rw [greedy_nil hcur]
      cases gs with
      | nil =>
          have hnone := List.append_eq_nil_iff.mp hflat.symm
          exact absurd (List.append_eq_nil_iff.mp hnone.2).1 hcur
      | cons g gs => exact Nat.succ_le_succ (Nat.zero_le _)
  | cons x xs ih =>
      rw [greedy_cons]
      split
      next => exact ih (by simp) behind (by simpa using hflat) hgs
      next hfull =>
        cases gs with
        | nil =>
            have hnone := List.append_eq_nil_iff.mp hflat.symm
            exact absurd (List.append_eq_nil_iff.mp hnone.2).1 hcur
        | cons g gs =>
            have hg := hgs g List.mem_cons_self
            rw [List.flatten_cons, ← List.append_assoc, List.append_eq_append_iff] at hflat
            rcases hflat with ⟨rest, hrest, hgs'⟩ | ⟨rest, hrest, hgs'⟩
            · exact Nat.succ_le_succ (ih (by simp) rest (by simpa using hgs')
                fun g' hg' => hgs g' (.tail _ hg'))
            · -- a group that reached past the open one would hold it and the next element
              cases rest with
              | nil =>
                  exact Nat.succ_le_succ (ih (by simp) [] (by simpa using hgs'.symm)
                    fun g' hg' => hgs g' (.tail _ hg'))
              | cons y rest =>
                  obtain ⟨rfl, _⟩ := List.cons_eq_cons.mp hgs'
                  refine absurd (hclosed g _ ⟨behind, rest, ?_⟩ hg) hfull
                  rw [hrest]
                  simp

/-- No other way to cut a list needs fewer groups. -/
theorem length_greedy_le (hclosed : ∀ g g', g' <:+: g → fits g → fits g')
    (hflat : gs.flatten = xs) (hgs : ∀ g ∈ gs, fits g) :
    (greedy fits [] xs).length ≤ gs.length := by
  cases xs with
  | nil => exact Nat.zero_le _
  | cons x xs =>
      have hone : fits [x] := by
        obtain ⟨g, hg, hx⟩ := List.mem_flatten.mp (hflat ▸ List.mem_cons_self : x ∈ gs.flatten)
        obtain ⟨front, back, rfl⟩ := List.append_of_mem hx
        exact hclosed _ [x] ⟨front, back, by simp⟩ (hgs _ hg)
      rw [greedy_cons, List.nil_append, if_pos hone]
      exact length_greedy_le_behind hclosed (by simp) [] (by simpa using hflat) hgs

end FeedHandler.Packing
