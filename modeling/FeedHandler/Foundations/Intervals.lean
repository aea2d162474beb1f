import FeedHandler.Foundations.OrderedMap

/-!
# Disjoint intervals in an ordered map

An ordered map from starts to lengths, read as the set of the half-open intervals
`[start, start + length)`. `Spaced` says that the intervals do not overlap; `carve` removes a part
of one interval, leaving its front and its back. Read `covers_carve`, `spaced_carve` and
`size_carve` first. `Maximal` says that the intervals are as long as possible; then they are
determined by the numbers they cover (`Maximal.ext`).
-/

namespace FeedHandler.Intervals

/-- A number lies in one of the intervals. -/
def Covers (m : OrderedMap Nat Nat) (x : Nat) : Prop :=
  ∃ start len, m.find? start = some len ∧ start ≤ x ∧ x < start + len

/-- Each interval ends before the next one starts. -/
def Spaced (m : OrderedMap Nat Nat) : Prop :=
  ∀ start len start' len', m.find? start = some len → m.find? start' = some len' →
    start < start' → start + len ≤ start'

/-- Every interval starts below a bound and ends at most there. -/
def Below (m : OrderedMap Nat Nat) (bound : Nat) : Prop :=
  ∀ start len, m.find? start = some len → start < bound ∧ start + len ≤ bound

/-- The sum of the lengths. -/
def size (m : OrderedMap Nat Nat) : Nat := m.total id

/-- Remove `[a, b)` from the interval of length `len` at `start` that contains it. -/
def carve (m : OrderedMap Nat Nat) (start len a b : Nat) : OrderedMap Nat Nat :=
  let rest := m.erase start
  let front := if a = start then rest else rest.assign start (a - start)
  if b = start + len then front else front.assign b (start + len - b)

variable {m : OrderedMap Nat Nat} {start len a b x bound : Nat}

theorem spaced_empty : Spaced ∅ := by
  intro start len start' len' h
  cases h

theorem below_empty : Below ∅ bound := by
  intro start len h
  cases h

@[simp] theorem covers_empty : ¬ Covers ∅ x := by
  intro hgiven
  obtain ⟨start, len, h, _⟩ := hgiven
  cases h

@[simp] theorem size_empty : size ∅ = 0 := rfl

theorem Below.mono (h : Below m bound) {bound' : Nat} (hle : bound ≤ bound') :
    Below m bound' := by
  intro start len hfind
  have := h start len hfind
  omega

/-- Nothing at or above the bound is covered. -/
theorem Below.lt_of_covers (h : Below m bound) (hx : Covers m x) : x < bound := by
  obtain ⟨start, len, hfind, _, hlt⟩ := hx
  have := h start len hfind
  omega

/-- The interval that covers a number is the last one that starts at or before it. -/
theorem Spaced.floor_of_covers (h : Spaced m) (hfind : m.find? start = some len)
    (hle : start ≤ x) (hlt : x < start + len) : m.floor? x = some (start, len) := by
  rw [OrderedMap.floor_eq_some_iff]
  refine ⟨hfind, hle, fun start' len' hfind' hle' => ?_⟩
  by_contra hgt
  have := h start len start' len' hfind hfind' (by omega)
  omega

/-! ## A new interval at the end -/

section Append

variable (hbelow : Below m bound)

include hbelow

theorem find_eq_none_of_below : m.find? bound = none := by
  cases hfind : m.find? bound with
  | none => rfl
  | some len =>
      have := hbelow bound len hfind
      omega

theorem spaced_append (h : Spaced m) (len : Nat) : Spaced (m.assign bound len) := by
  intro s l s' l' hs hs' hlt
  rw [OrderedMap.find_assign] at hs hs'
  split at hs
  · split at hs'
    · omega
    · have := hbelow s' l' hs'
      omega
  · split at hs'
    · have := hbelow s l hs
      omega
    · exact h s l s' l' hs hs' hlt

theorem below_append {bound' : Nat} (hlt : bound < bound') (hle : bound + len ≤ bound') :
    Below (m.assign bound len) bound' := by
  intro s l hs
  rw [OrderedMap.find_assign] at hs
  split at hs
  · cases hs
    omega
  · have := hbelow s l hs
    omega

theorem covers_append :
    Covers (m.assign bound len) x ↔ Covers m x ∨ bound ≤ x ∧ x < bound + len := by
  constructor
  · intro h
    obtain ⟨s, l, hs, hle, hlt⟩ := h
    rw [OrderedMap.find_assign] at hs
    split at hs
    · cases hs
      omega
    · exact .inl ⟨s, l, hs, hle, hlt⟩
  · intro hor
    rcases hor with ⟨s, l, hs, hle, hlt⟩ | hx
    · have := hbelow s l hs
      exact ⟨s, l, by rwa [OrderedMap.find_assign_of_ne _ _ (by omega)], hle, hlt⟩
    · exact ⟨bound, len, by simp, hx⟩

theorem size_append : size (m.assign bound len) = len + size m :=
  m.total_assign_of_find_eq_none id len (find_eq_none_of_below hbelow)

end Append

/-! ## Carving -/

section Carve

variable (hfind : m.find? start = some len) (ha : start ≤ a) (hab : a ≤ b) (hb : b ≤ start + len)

/-- The intervals after a carving: the others, the front and the back. -/
theorem find_carve (s : Nat) :
    (carve m start len a b).find? s =
      if s = b ∧ b ≠ start + len then some (start + len - b)
      else if s = start then (if a = start then none else some (a - start))
      else m.find? s := by
  unfold carve
  split <;> split <;> simp_all [OrderedMap.find_assign, OrderedMap.find_erase]

include hfind ha hab hb in
/-- What an entry of a carved map is. -/
theorem carve_cases (hspaced : Spaced m) {s l : Nat}
    (hs : (carve m start len a b).find? s = some l) :
    (s = b ∧ b < start + len ∧ l = start + len - b) ∨
    (s = start ∧ start < a ∧ l = a - start ∧ (b = start + len ∨ s ≠ b)) ∨
    (s ≠ start ∧ m.find? s = some l ∧ (s < start ∧ s + l ≤ start ∨ start + len ≤ s)) := by
  rw [find_carve] at hs
  split at hs
  next hback =>
    cases hs
    exact .inl ⟨hback.1, by omega, rfl⟩
  next hback =>
    split at hs
    next hstart =>
      split at hs
      next => cases hs
      next hfront =>
        cases hs
        exact .inr (.inl ⟨hstart, by omega, rfl, by omega⟩)
    next hstart =>
      refine .inr (.inr ⟨hstart, hs, ?_⟩)
      rcases Nat.lt_or_ge s start with hlt | hge
      · exact .inl ⟨hlt, hspaced s l start len hs hfind hlt⟩
      · exact .inr (hspaced start len s l hfind hs (by omega))

include hfind ha hab hb in
theorem spaced_carve (hspaced : Spaced m) : Spaced (carve m start len a b) := by
  intro s l s' l' hs hs' hlt
  rcases carve_cases hfind ha hab hb hspaced hs with hs | hs | ⟨hne, hs, hout⟩ <;>
    rcases carve_cases hfind ha hab hb hspaced hs' with hs' | hs' | ⟨hne', hs', hout'⟩
  · omega
  · omega
  · omega
  · omega
  · omega
  · omega
  · omega
  · omega
  · exact hspaced s l s' l' hs hs' hlt

include hfind ha hab hb in
theorem below_carve (hspaced : Spaced m) (hbelow : Below m bound) :
    Below (carve m start len a b) bound := by
  intro s l hs
  have := hbelow start len hfind
  rcases carve_cases hfind ha hab hb hspaced hs with hs | hs | ⟨_, hs, _⟩
  · omega
  · omega
  · exact hbelow s l hs

include hfind ha hab hb in
/-- Carving removes exactly the carved numbers. -/
theorem covers_carve (hspaced : Spaced m) :
    Covers (carve m start len a b) x ↔ Covers m x ∧ ¬ (a ≤ x ∧ x < b) := by
  constructor
  · intro hgiven
    obtain ⟨s, l, hs, hle, hlt⟩ := hgiven
    rcases carve_cases hfind ha hab hb hspaced hs with h | h | ⟨_, h, hout⟩
    · exact ⟨⟨start, len, hfind, by omega, by omega⟩, by omega⟩
    · exact ⟨⟨start, len, hfind, by omega, by omega⟩, by omega⟩
    · exact ⟨⟨s, l, h, hle, hlt⟩, by omega⟩
  · intro hgiven
    obtain ⟨⟨s, l, hs, hle, hlt⟩, hout⟩ := hgiven
    by_cases hstart : s = start
    · subst hstart
      obtain rfl : l = len := Option.some.inj (hs.symm.trans hfind)
      rcases Nat.lt_or_ge x a with hxa | hxa
      · refine ⟨s, a - s, ?_, hle, by omega⟩
        rw [find_carve, if_neg (by omega), if_pos rfl, if_neg (by omega)]
      · refine ⟨b, s + l - b, ?_, by omega, by omega⟩
        rw [find_carve, if_pos ⟨rfl, by omega⟩]
    · refine ⟨s, l, ?_, hle, hlt⟩
      have : s < start ∨ start + len ≤ s := by
        rcases Nat.lt_or_ge s start with h | h
        · exact .inl h
        · exact .inr (hspaced start len s l hfind hs (by omega))
      rw [find_carve, if_neg (by omega), if_neg hstart, hs]

include hfind ha hab hb in
/-- Carving shortens the intervals by the carved length. -/
theorem size_carve (hspaced : Spaced m) :
    size m = size (carve m start len a b) + (b - a) := by
  have hrest : size m = len + size (m.erase start) := m.total_erase id hfind
  have hfrontfree : (m.erase start).find? start = none := by simp
  -- The back part starts strictly inside the old interval, where no other one starts.
  have hbackfree : b ≠ start + len → ∀ v, (((m.erase start).find? b = none) ∧
      (a ≠ start → ((m.erase start).assign start v).find? b = none)) := by
    intro hne v
    have hnone : (m.erase start).find? b = none := by
      rw [OrderedMap.find_erase]
      split
      · rfl
      next hbs =>
        cases hfb : m.find? b with
        | none => rfl
        | some l =>
            have := hspaced start len b l hfind hfb (by omega)
            omega
    refine ⟨hnone, fun hastart => ?_⟩
    rw [OrderedMap.find_assign_of_ne _ _ (by omega), hnone]
  unfold carve
  by_cases hastart : a = start <;> by_cases hblast : b = start + len
  · simp only [hastart, hblast, if_true]
    omega
  · simp only [hastart, hblast, if_true, if_false]
    have hback : size ((m.erase start).assign b (start + len - b)) =
        (start + len - b) + size (m.erase start) :=
      OrderedMap.total_assign_of_find_eq_none _ id _ (hbackfree hblast 0).1
    omega
  · simp only [hastart, hblast, if_true, if_false]
    have hfront : size ((m.erase start).assign start (a - start)) =
        (a - start) + size (m.erase start) :=
      OrderedMap.total_assign_of_find_eq_none _ id _ hfrontfree
    omega
  · simp only [hastart, hblast, if_false]
    have hfront : size ((m.erase start).assign start (a - start)) =
        (a - start) + size (m.erase start) :=
      OrderedMap.total_assign_of_find_eq_none _ id _ hfrontfree
    have hback : size (((m.erase start).assign start (a - start)).assign b (start + len - b)) =
        (start + len - b) + size ((m.erase start).assign start (a - start)) :=
      OrderedMap.total_assign_of_find_eq_none _ id _ ((hbackfree hblast _).2 hastart)
    omega

end Carve

/-! ## Intervals that cannot be extended -/

/-- No interval is empty, and at least one number lies between two of them. -/
def Maximal (m : OrderedMap Nat Nat) : Prop :=
  ∀ start len, m.find? start = some len → 0 < len ∧
    ∀ start' len', m.find? start' = some len' → start < start' → start + len < start'

theorem maximal_empty : Maximal ∅ := by
  intro start len h
  cases h

theorem Maximal.spaced (h : Maximal m) : Spaced m := by
  intro s l s' l' hs hs' hlt
  exact Nat.le_of_lt ((h s l hs).2 s' l' hs' hlt)

/-- A maximal run of numbers with a property. -/
def Run (p : Nat → Prop) (start len : Nat) : Prop :=
  0 < len ∧ (∀ x, start ≤ x → x < start + len → p x) ∧ (∀ x, x + 1 = start → ¬ p x) ∧
    ¬ p (start + len)

theorem Run.congr {p p' : Nat → Prop} (h : Run p start len) (hp : ∀ x, p x ↔ p' x) :
    Run p' start len := by
  rwa [← funext fun x => propext (hp x)]

/-- Runs that share a number are the same. -/
theorem Run.unique {p : Nat → Prop} {start' len' : Nat} (h : Run p start len)
    (h' : Run p start' len') (hx : start ≤ x ∧ x < start + len)
    (hx' : start' ≤ x ∧ x < start' + len') : start = start' ∧ len = len' := by
  -- The number before a run and the number behind it do not have the property.
  have hbefore : ∀ {s l s' l' : Nat}, Run p s l → Run p s' l' → s' ≤ x → s ≤ x →
      x < s + l → ¬ s < s' := by
    intro s l s' l' hr hr' hle' hle hlt hlt'
    exact hr'.2.2.1 (s' - 1) (by omega) (hr.2.1 (s' - 1) (by omega) (by omega))
  have hsame : start = start' := by
    have := hbefore h h' hx'.1 hx.1 hx.2
    have := hbefore h' h hx.1 hx'.1 hx'.2
    omega
  subst hsame
  have hbehind : ∀ {l l' : Nat}, Run p start l → Run p start l' → ¬ l < l' := by
    intro l l' hr hr' hlt
    exact hr.2.2.2 (hr'.2.1 (start + l) (by omega) (by omega))
  have := hbehind h h'
  have := hbehind h' h
  omega

/-- The intervals are the maximal runs of the numbers they cover. -/
theorem Maximal.find_iff (h : Maximal m) : m.find? start = some len ↔ Run (Covers m) start len := by
  have hrun : ∀ {s l : Nat}, m.find? s = some l → Run (Covers m) s l := by
    intro s l hs
    obtain ⟨hpos, hnext⟩ := h s l hs
    refine ⟨hpos, fun x hle hlt => ⟨s, l, hs, hle, hlt⟩, fun x hx => ?_, ?_⟩
    · intro hcovers
      obtain ⟨s', l', hs', hle, hlt⟩ := hcovers
      have := (h s' l' hs').2 s l hs (by omega)
      omega
    · intro hcovers
      obtain ⟨s', l', hs', hle, hlt⟩ := hcovers
      have := hnext s' l' hs'
      have : s' ≤ s := by omega
      rcases Nat.lt_or_eq_of_le this with hlt' | rfl
      · have := (h s' l' hs').2 s l hs hlt'
        omega
      · obtain rfl := Option.some.inj (hs.symm.trans hs')
        omega
  constructor
  · exact hrun
  · intro hgiven
    obtain ⟨s, l, hs, hle, hlt⟩ := hgiven.2.1 start le_rfl (by have := hgiven.1; omega)
    obtain ⟨rfl, rfl⟩ := (hrun hs).unique hgiven ⟨hle, hlt⟩ ⟨le_rfl, by have := hgiven.1; omega⟩
    exact hs

/-- Intervals that cannot be extended are determined by the numbers they cover. -/
theorem Maximal.ext {m' : OrderedMap Nat Nat} (h : Maximal m) (h' : Maximal m')
    (hcovers : ∀ x, Covers m x ↔ Covers m' x) : m = m' := by
  apply OrderedMap.ext_find
  intro s
  ext l
  rw [h.find_iff, h'.find_iff]
  exact ⟨fun hr => hr.congr hcovers, fun hr => hr.congr fun x => (hcovers x).symm⟩

/-- A new interval behind all others, and apart from them. -/
theorem maximal_append (h : Maximal m) (hpos : 0 < len)
    (hbelow : ∀ s l, m.find? s = some l → s + l < bound) : Maximal (m.assign bound len) := by
  intro s l hs
  rw [OrderedMap.find_assign] at hs
  split at hs
  next heq =>
    cases hs
    refine ⟨hpos, fun s' l' hs' hlt => ?_⟩
    rw [OrderedMap.find_assign_of_ne _ _ (by omega)] at hs'
    have := hbelow s' l' hs'
    omega
  next hne =>
    refine ⟨(h s l hs).1, fun s' l' hs' hlt => ?_⟩
    rw [OrderedMap.find_assign] at hs'
    split at hs'
    next heq => exact heq ▸ hbelow s l hs
    next => exact (h s l hs).2 s' l' hs' hlt

/-- Carving leaves the carved numbers between the front and the back. -/
theorem maximal_carve (h : Maximal m) (hfind : m.find? start = some len) (ha : start ≤ a)
    (hab : a < b) (hb : b ≤ start + len) : Maximal (carve m start len a b) := by
  have hcases : ∀ {s l : Nat}, (carve m start len a b).find? s = some l →
      (s = b ∧ b < start + len ∧ l = start + len - b) ∨ (s = start ∧ start < a ∧ l = a - start) ∨
      (s ≠ start ∧ m.find? s = some l ∧ (s < start ∧ s + l < start ∨ start + len < s)) := by
    intro s l hs
    rcases carve_cases hfind ha (Nat.le_of_lt hab) hb h.spaced hs with hs | hs | ⟨hne, hs, _⟩
    · exact .inl hs
    · exact .inr (.inl ⟨hs.1, hs.2.1, hs.2.2.1⟩)
    · refine .inr (.inr ⟨hne, hs, ?_⟩)
      rcases Nat.lt_or_gt_of_ne hne with hlt | hgt
      · exact .inl ⟨hlt, (h s l hs).2 start len hfind hlt⟩
      · exact .inr ((h start len hfind).2 s l hs hgt)
  intro s l hs
  refine ⟨?_, fun s' l' hs' hlt => ?_⟩
  · rcases hcases hs with hs | hs | ⟨_, hs, _⟩
    · omega
    · omega
    · exact (h s l hs).1
  · rcases hcases hs with hs | hs | ⟨_, hs, hout⟩ <;>
      rcases hcases hs' with hs' | hs' | ⟨_, hs', hout'⟩
    · omega
    · omega
    · omega
    · omega
    · omega
    · omega
    · omega
    · omega
    · exact (h s l hs).2 s' l' hs' hlt

end FeedHandler.Intervals
