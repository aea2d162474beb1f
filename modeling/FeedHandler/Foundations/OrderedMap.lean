import Mathlib.Data.List.Sort
import Mathlib.Data.List.Pairwise
import Mathlib.Data.List.Induction
import Mathlib.Order.Defs.LinearOrder
import Mathlib.Algebra.BigOperators.Group.List.Basic
import Mathlib.Algebra.Ring.Nat

/-!
# Ordered finite maps

A finite map kept as its list of entries in increasing key order, the reading of an ordered
associative container: lookup, assignment, erasure, and the ordered queries `first?`, `last?` and
`floor?` (the entry just before an upper bound). Read `find_assign` and `find_erase` first: they
determine the map that an operation leaves, and `ext_find` says that lookups determine the map.
`total` adds a measure up over all entries.
-/

namespace FeedHandler

universe u v

/-- A finite map from `κ` to `α`: its entries in strictly increasing key order. -/
structure OrderedMap (κ : Type u) (α : Type v) [LinearOrder κ] where
  entries : List (κ × α)
  sorted : entries.Pairwise (fun x y => x.1 < y.1)

namespace OrderedMap

variable {κ : Type u} {α : Type v} [LinearOrder κ]

/-- The map without entries. -/
def empty : OrderedMap κ α := ⟨[], List.Pairwise.nil⟩

instance : EmptyCollection (OrderedMap κ α) := ⟨empty⟩

/-- The value at a key. -/
def find? (m : OrderedMap κ α) (k : κ) : Option α :=
  (m.entries.find? fun e => e.1 = k).map Prod.snd

/-- The map without a key. -/
def erase (m : OrderedMap κ α) (k : κ) : OrderedMap κ α where
  entries := m.entries.filter fun e => e.1 ≠ k
  sorted := m.sorted.filter _

/-- Insertion of an entry whose key does not occur keeps the keys increasing. -/
theorem pairwise_ordered_insert {l : List (κ × α)} (k : κ) (v : α)
    (hsorted : l.Pairwise (fun x y => x.1 < y.1)) (hfresh : ∀ e ∈ l, e.1 ≠ k) :
    (l.orderedInsert (fun x y => x.1 ≤ y.1) (k, v)).Pairwise (fun x y => x.1 < y.1) := by
  induction l with
  | nil => simp
  | cons head tail ih =>
      obtain ⟨hhead, htail⟩ := List.pairwise_cons.mp hsorted
      have hne : head.1 ≠ k := hfresh head List.mem_cons_self
      rw [List.orderedInsert_cons]
      split
      next hle =>
        have hlt : k < head.1 := lt_of_le_of_ne hle hne.symm
        refine List.pairwise_cons.mpr ⟨?_, hsorted⟩
        intro e he
        rcases List.mem_cons.mp he with rfl | he
        · exact hlt
        · exact hlt.trans (hhead e he)
      next hle =>
        refine List.pairwise_cons.mpr ⟨?_, ih htail fun e he => hfresh e (.tail _ he)⟩
        intro e he
        rcases (List.mem_orderedInsert _).mp he with rfl | he
        · exact lt_of_not_ge hle
        · exact hhead e he

/-- The map with a key set to a value, whether or not the key was there. -/
def assign (m : OrderedMap κ α) (k : κ) (v : α) : OrderedMap κ α where
  entries := (m.erase k).entries.orderedInsert (fun x y => x.1 ≤ y.1) (k, v)
  sorted := pairwise_ordered_insert k v (m.erase k).sorted fun e he => by
    simpa using (List.mem_filter.mp he).2

/-- The entry with the smallest key. -/
def first? (m : OrderedMap κ α) : Option (κ × α) := m.entries.head?

/-- The entry with the largest key. -/
def last? (m : OrderedMap κ α) : Option (κ × α) := m.entries.getLast?

/-- The entry just before the upper bound of a key: the one with the largest key not above it. -/
def floor? (m : OrderedMap κ α) (k : κ) : Option (κ × α) :=
  (m.entries.filter fun e => e.1 ≤ k).getLast?

/-- The number of keys. -/
def length (m : OrderedMap κ α) : Nat := m.entries.length

/-- The sum of a measure over all values. -/
def total (m : OrderedMap κ α) (f : α → Nat) : Nat := (m.entries.map fun e => f e.2).sum

/-! ## Lookup -/

/-- A key occurs in at most one entry. -/
theorem entry_unique (m : OrderedMap κ α) {k : κ} {v w : α}
    (hv : (k, v) ∈ m.entries) (hw : (k, w) ∈ m.entries) : v = w := by
  have hne : m.entries.Pairwise (fun x y => x.1 = y.1 → x = y) :=
    m.sorted.imp fun h heq => absurd heq h.ne
  have hsymm : Std.Symm fun x y : κ × α => x.1 = y.1 → x = y :=
    { symm := fun _ _ h heq => (h heq.symm).symm }
  exact (Prod.mk.inj (hne.forall_of_forall (fun _ _ _ => rfl) hv hw rfl)).2

/-- The entries are the graph of the lookup. -/
theorem mem_entries_iff (m : OrderedMap κ α) {k : κ} {v : α} :
    (k, v) ∈ m.entries ↔ m.find? k = some v := by
  constructor
  · intro hmem
    cases hfind : m.entries.find? (fun e => e.1 = k) with
    | none =>
        have := List.find?_eq_none.mp hfind _ hmem
        simp at this
    | some e =>
        obtain ⟨j, w⟩ := e
        have hj : j = k := by simpa using List.find?_some hfind
        subst hj
        have hw : w = v := m.entry_unique (List.mem_of_find?_eq_some hfind) hmem
        simp [find?, hfind, hw]
  · intro hfind
    obtain ⟨e, he, rfl⟩ := Option.map_eq_some_iff.mp hfind
    have hk : e.1 = k := by simpa using List.find?_some he
    subst hk
    exact List.mem_of_find?_eq_some he

/-- A key that no entry has is not found. -/
theorem find_eq_none_iff (m : OrderedMap κ α) {k : κ} :
    m.find? k = none ↔ ∀ e ∈ m.entries, e.1 ≠ k := by
  simp [find?]

@[simp] theorem find_empty (k : κ) : (∅ : OrderedMap κ α).find? k = none := rfl

/-- The entries after an assignment. -/
theorem mem_entries_assign (m : OrderedMap κ α) {k : κ} {v : α} {e : κ × α} :
    e ∈ (m.assign k v).entries ↔ e = (k, v) ∨ e ∈ m.entries ∧ e.1 ≠ k := by
  simp [assign, erase]

/-- The entries after an erasure. -/
theorem mem_entries_erase (m : OrderedMap κ α) {k : κ} {e : κ × α} :
    e ∈ (m.erase k).entries ↔ e ∈ m.entries ∧ e.1 ≠ k := by
  simp [erase]

/-- Assignment changes the lookup at its key only. -/
theorem find_assign (m : OrderedMap κ α) (k j : κ) (v : α) :
    (m.assign k v).find? j = if j = k then some v else m.find? j := by
  apply Option.ext
  intro w
  rw [← mem_entries_iff, mem_entries_assign]
  by_cases h : j = k
  · subst h
    simp [eq_comm]
  · simp [h, mem_entries_iff]

/-- Erasure changes the lookup at its key only. -/
theorem find_erase (m : OrderedMap κ α) (k j : κ) :
    (m.erase k).find? j = if j = k then none else m.find? j := by
  apply Option.ext
  intro w
  rw [← mem_entries_iff, mem_entries_erase]
  by_cases h : j = k
  · simp [h]
  · simp [h, mem_entries_iff]

@[simp] theorem find_assign_self (m : OrderedMap κ α) (k : κ) (v : α) :
    (m.assign k v).find? k = some v := by simp [find_assign]

@[simp] theorem find_erase_self (m : OrderedMap κ α) (k : κ) : (m.erase k).find? k = none := by
  simp [find_erase]

theorem find_assign_of_ne (m : OrderedMap κ α) {k j : κ} (v : α) (h : j ≠ k) :
    (m.assign k v).find? j = m.find? j := by simp [find_assign, h]

/-- Two maps with the same lookups are equal. -/
theorem ext_find {m m' : OrderedMap κ α} (h : ∀ k, m.find? k = m'.find? k) : m = m' := by
  have hentries : m.entries = m'.entries := by
    refine m.sorted.eq_of_mem_iff (r := fun x y => x.1 < y.1) m'.sorted ?_
    intro e
    obtain ⟨k, v⟩ := e
    rw [mem_entries_iff, mem_entries_iff, h k]
  cases m
  cases m'
  cases hentries
  rfl

/-! ## Ordered queries -/

/-- The last entry of a list in increasing key order has the largest key. -/
theorem get_last_eq_some_iff {l : List (κ × α)} (hsorted : l.Pairwise (fun x y => x.1 < y.1))
    {e : κ × α} : l.getLast? = some e ↔ e ∈ l ∧ ∀ d ∈ l, d.1 ≤ e.1 := by
  induction l using List.reverseRecOn with
  | nil => simp
  | append_singleton front last ih =>
      have hbelow : ∀ d ∈ front, d.1 < last.1 := fun d hd =>
        (List.pairwise_append.mp hsorted).2.2 d hd last (by simp)
      rw [List.getLast?_append_of_ne_nil _ (by simp)]
      constructor
      · intro h
        obtain rfl : last = e := by simpa using h
        refine ⟨by simp, fun d hd => ?_⟩
        rcases List.mem_append.mp hd with hd | hd
        · exact (hbelow d hd).le
        · simp_all
      · intro hboth
        obtain ⟨hmem, hmax⟩ := hboth
        rcases List.mem_append.mp hmem with hmem | hmem
        · exact absurd (hbelow e hmem) (not_lt_of_ge (hmax last (by simp)))
        · simp_all

/-- The entry `floor?` returns is the one with the largest key not above the bound. -/
theorem floor_eq_some_iff (m : OrderedMap κ α) {k j : κ} {v : α} :
    m.floor? k = some (j, v) ↔
      m.find? j = some v ∧ j ≤ k ∧ ∀ i w, m.find? i = some w → i ≤ k → i ≤ j := by
  unfold floor?
  rw [get_last_eq_some_iff (m.sorted.filter _)]
  simp only [List.mem_filter, decide_eq_true_eq, Prod.forall, mem_entries_iff]
  constructor
  · intro h
    obtain ⟨⟨hfind, hle⟩, hmax⟩ := h
    exact ⟨hfind, hle, fun i w hi hik => hmax i w ⟨hi, hik⟩⟩
  · intro h
    obtain ⟨hfind, hle, hmax⟩ := h
    exact ⟨⟨hfind, hle⟩, fun i w hi => hmax i w hi.1 hi.2⟩

/-- `floor?` finds nothing exactly when every key is above the bound. -/
theorem floor_eq_none_iff (m : OrderedMap κ α) {k : κ} :
    m.floor? k = none ↔ ∀ i w, m.find? i = some w → k < i := by
  unfold floor?
  rw [List.getLast?_eq_none_iff, List.filter_eq_nil_iff]
  simp only [decide_eq_true_eq, not_le, Prod.forall, mem_entries_iff]

/-- The entry `last?` returns is the one with the largest key. -/
theorem last_eq_some_iff (m : OrderedMap κ α) {j : κ} {v : α} :
    m.last? = some (j, v) ↔ m.find? j = some v ∧ ∀ i w, m.find? i = some w → i ≤ j := by
  unfold last?
  rw [get_last_eq_some_iff m.sorted]
  simp only [Prod.forall, mem_entries_iff]

/-- The entry `first?` returns is the one with the smallest key. -/
theorem first_eq_some_iff (m : OrderedMap κ α) {j : κ} {v : α} :
    m.first? = some (j, v) ↔ m.find? j = some v ∧ ∀ i w, m.find? i = some w → j ≤ i := by
  have hmem : ∀ i w, m.find? i = some w ↔ (i, w) ∈ m.entries := fun i w => m.mem_entries_iff.symm
  have hsorted := m.sorted
  simp only [first?, hmem]
  cases hentries : m.entries with
  | nil => simp
  | cons head tail =>
      rw [hentries] at hsorted
      have hhead := (List.pairwise_cons.mp hsorted).1
      constructor
      · intro h
        obtain rfl : head = (j, v) := by simpa using h
        refine ⟨by simp, fun i w hi => ?_⟩
        rcases List.mem_cons.mp hi with hi | hi
        · exact (congrArg Prod.fst hi).ge
        · exact (hhead _ hi).le
      · intro hboth
        obtain ⟨hj, hmin⟩ := hboth
        rcases List.mem_cons.mp hj with hj | hj
        · simp [hj]
        · have hle := hmin head.1 head.2 (by simp)
          exact absurd (hhead _ hj) (not_lt_of_ge hle)

/-! ## Totals -/

/-- The entries after an assignment are the new entry and the other entries, in some order. -/
theorem entries_assign_perm (m : OrderedMap κ α) (k : κ) (v : α) :
    (m.assign k v).entries.Perm ((k, v) :: (m.erase k).entries) :=
  List.perm_orderedInsert _ _ _

/-- Assignment replaces the summand of its key. -/
theorem total_assign (m : OrderedMap κ α) (f : α → Nat) (k : κ) (v : α) :
    (m.assign k v).total f = f v + (m.erase k).total f := by
  have h := ((m.entries_assign_perm k v).map fun e => f e.2).sum_eq
  simpa [total] using h

/-- Erasing an absent key changes nothing. -/
theorem erase_of_find_eq_none (m : OrderedMap κ α) {k : κ} (h : m.find? k = none) :
    m.erase k = m := by
  apply ext_find
  intro j
  rw [find_erase]
  split
  next hj => rw [hj, h]
  next => rfl

/-- Setting a key to the value it has changes nothing. -/
theorem assign_of_find_eq_some (m : OrderedMap κ α) {k : κ} {v : α} (h : m.find? k = some v) :
    m.assign k v = m := by
  apply ext_find
  intro j
  rw [find_assign]
  split
  next hj => rw [hj, h]
  next => rfl

/-- Erasing a present key removes its summand. -/
theorem total_erase (m : OrderedMap κ α) (f : α → Nat) {k : κ} {v : α}
    (h : m.find? k = some v) : m.total f = f v + (m.erase k).total f := by
  rw [← total_assign, assign_of_find_eq_some m h]

/-- The number of keys after an assignment. -/
theorem length_assign (m : OrderedMap κ α) (k : κ) (v : α) :
    (m.assign k v).length = (m.erase k).length + 1 :=
  (m.entries_assign_perm k v).length_eq

/-- Erasing a present key removes one key. -/
theorem length_erase (m : OrderedMap κ α) {k : κ} {v : α} (h : m.find? k = some v) :
    m.length = (m.erase k).length + 1 := by
  rw [← length_assign, assign_of_find_eq_some m h]

/-- Assigning to an absent key adds its summand. -/
theorem total_assign_of_find_eq_none (m : OrderedMap κ α) (f : α → Nat) {k : κ} (v : α)
    (h : m.find? k = none) : (m.assign k v).total f = f v + m.total f := by
  rw [total_assign, erase_of_find_eq_none m h]

end OrderedMap

end FeedHandler
