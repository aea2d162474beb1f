import Mathlib.Data.List.Nodup
import Mathlib.Logic.Function.Basic

/-!
# Linked lists in an array

Chains of links given by functions, as in an intrusive list whose nodes are array elements. `Seg`
is a path along one link, `DLL.Lists` a list that is linked in both directions between a head and
a tail. Read `DLL.Lists.append` and `DLL.Lists.unlink` first.
-/

namespace FeedHandler.Segments

universe u

variable {α : Type u}

/-- Following `next` from `a` visits the elements of a list and arrives at `b`. -/
def Seg (next : α → α) : α → List α → α → Prop
  | a, [], b => a = b
  | a, x :: l, b => a = x ∧ Seg next (next x) l b

section Seg

variable {next next' : α → α} {a b c x null : α} {l m : List α}

@[simp] theorem seg_nil : Seg next a [] b ↔ a = b := Iff.rfl

@[simp] theorem seg_cons : Seg next a (x :: l) b ↔ a = x ∧ Seg next (next x) l b := Iff.rfl

theorem seg_append : Seg next a (l ++ m) b ↔ ∃ c, Seg next a l c ∧ Seg next c m b := by
  induction l generalizing a with
  | nil => simp
  | cons x l ih => simp [ih, and_assoc]

theorem seg_concat : Seg next a (l ++ [x]) b ↔ Seg next a l x ∧ next x = b := by
  rw [seg_append]
  constructor
  · intro h
    obtain ⟨c, hl, rfl, hb⟩ := h
    exact ⟨hl, hb⟩
  · intro h
    obtain ⟨hl, hb⟩ := h
    exact ⟨x, hl, rfl, hb⟩

/-- Only the links of the visited elements matter. -/
theorem Seg.congr (h : Seg next a l b) (hnext : ∀ x ∈ l, next x = next' x) :
    Seg next' a l b := by
  induction l generalizing a with
  | nil => exact h
  | cons x l ih =>
      obtain ⟨rfl, hrest⟩ := h
      rw [hnext a List.mem_cons_self] at hrest
      exact ⟨rfl, ih hrest fun y hy => hnext y (.tail _ hy)⟩

/-- Links from each number to the following one, the last to `null`. -/
theorem seg_range {next : Nat → Nat} {n b : Nat} (hn : 0 < n)
    (hnext : ∀ i, i < n → next i = if i + 1 < n then i + 1 else b) :
    Seg next 0 (List.range n) b := by
  have hpath : ∀ i, i < n → Seg next 0 (List.range i) i := by
    intro i hi
    induction i with
    | zero => rfl
    | succ i ih =>
        rw [List.range_succ, seg_concat, hnext i (by omega), if_pos hi]
        exact ⟨ih (by omega), rfl⟩
  obtain ⟨n, rfl⟩ : ∃ m, n = m + 1 := ⟨n - 1, by omega⟩
  rw [List.range_succ, seg_concat, hnext n (by omega), if_neg (by omega)]
  exact ⟨hpath n (by omega), rfl⟩

/-- A path starts at its first element. -/
theorem Seg.start_eq (h : Seg next a l b) : a = l.head?.getD b := by
  cases l with
  | nil => exact h
  | cons x l => exact h.1

/-- A path that does not pass its end is determined by its start. -/
theorem Seg.unique (h : Seg next a l null) (h' : Seg next a m null) (hl : null ∉ l)
    (hm : null ∉ m) : l = m := by
  induction l generalizing a m with
  | nil =>
      obtain rfl := h
      cases m with
      | nil => rfl
      | cons y m => exact absurd (h'.1 ▸ List.mem_cons_self) hm
  | cons x l ih =>
      obtain ⟨rfl, hrest⟩ := h
      cases m with
      | nil => exact absurd (h' ▸ List.mem_cons_self) hl
      | cons y m =>
          obtain ⟨rfl, hrest'⟩ := h'
          rw [ih hrest hrest' (fun hn => hl (.tail _ hn)) (fun hn => hm (.tail _ hn))]

variable [DecidableEq α]

/-- Changing the link of an element that is not visited. -/
theorem Seg.update_of_notMem (h : Seg next a l b) (hx : x ∉ l) (v : α) :
    Seg (Function.update next x v) a l b := by
  refine h.congr fun y hy => ?_
  rw [Function.update_of_ne (ne_of_mem_of_not_mem hy hx)]

/-- Changing the link of the last element changes where the path arrives. -/
theorem Seg.retarget (h : Seg next a (l ++ [x]) b) (hx : x ∉ l) (c : α) :
    Seg (Function.update next x c) a (l ++ [x]) c := by
  rw [seg_concat] at h ⊢
  exact ⟨h.1.update_of_notMem hx c, Function.update_self ..⟩

end Seg

/-- Links in both directions, and the two ends of a list. -/
structure DLL (α : Type u) where
  next : α → α
  prev : α → α
  head : α
  tail : α

namespace DLL

/-- The list from the head along `next`, mirrored along `prev` from the tail. -/
structure Lists (null : α) (d : DLL α) (l : List α) : Prop where
  forward : Seg d.next d.head l null
  backward : Seg d.prev d.tail l.reverse null

variable [DecidableEq α]

/-- Put an element behind the tail. -/
def append (null : α) (d : DLL α) (x : α) : DLL α where
  next :=
    if d.tail ≠ null then Function.update (Function.update d.next x null) d.tail x
    else Function.update d.next x null
  prev := Function.update d.prev x d.tail
  head := if d.tail ≠ null then d.head else x
  tail := x

/-- Take an element out. -/
def unlink (null : α) (d : DLL α) (x : α) : DLL α where
  next := if d.prev x ≠ null then Function.update d.next (d.prev x) (d.next x) else d.next
  prev := if d.next x ≠ null then Function.update d.prev (d.next x) (d.prev x) else d.prev
  head := if d.prev x ≠ null then d.head else d.next x
  tail := if d.next x ≠ null then d.tail else d.prev x

variable {null x : α} {d d' : DLL α} {l m : List α}

omit [DecidableEq α] in
theorem Lists.congr (h : d.Lists null l) (hhead : d.head = d'.head) (htail : d.tail = d'.tail)
    (hnext : ∀ x ∈ l, d.next x = d'.next x) (hprev : ∀ x ∈ l, d.prev x = d'.prev x) :
    d'.Lists null l where
  forward := hhead ▸ h.forward.congr hnext
  backward := htail ▸ h.backward.congr fun x hx => hprev x (List.mem_reverse.mp hx)

omit [DecidableEq α] in
/-- The tail is the last element. -/
theorem Lists.tail_eq (h : d.Lists null l) : d.tail = l.getLast?.getD null := by
  rw [h.backward.start_eq, List.head?_reverse]

omit [DecidableEq α] in
/-- The head is the first element. -/
theorem Lists.head_eq (h : d.Lists null l) : d.head = l.head?.getD null := h.forward.start_eq

omit [DecidableEq α] in
/-- The list is empty exactly if the head is null. -/
theorem Lists.head_eq_null_iff (h : d.Lists null l) (hnull : null ∉ l) :
    d.head = null ↔ l = [] := by
  rw [h.head_eq]
  cases l with
  | nil => simp
  | cons x l =>
      simp only [List.head?_cons, Option.getD_some, reduceCtorEq, iff_false]
      exact fun hx => hnull (hx ▸ List.mem_cons_self)

/-- Appending appends. -/
theorem Lists.append (h : d.Lists null l) (hx : x ∉ l) (hnull : null ∉ l) (hnodup : l.Nodup) :
    (d.append null x).Lists null (l ++ [x]) := by
  have htail := h.tail_eq
  rcases l.eq_nil_or_concat' with rfl | ⟨l, y, rfl⟩
  · have hnil : d.tail = null := htail
    exact ⟨by simp [DLL.append, hnil], by simp [DLL.append, hnil]⟩
  · have hy : d.tail = y := by simpa using htail
    have hne : d.tail ≠ null := fun hyn => hnull (by simp [← hyn, hy])
    have hyl : y ∉ l := by
      rw [List.nodup_append] at hnodup
      exact fun hmem => hnodup.2.2 y hmem y (by simp) rfl
    have hxy : x ≠ y := fun heq => hx (by simp [heq])
    refine ⟨?_, ?_⟩
    · simp only [DLL.append, if_pos hne]
      rw [seg_concat, hy]
      refine ⟨(h.forward.update_of_notMem hx null).retarget hyl x, ?_⟩
      rw [Function.update_of_ne hxy, Function.update_self]
    · have hback := h.backward.update_of_notMem (fun hmem => hx (List.mem_reverse.mp hmem)) d.tail
      simpa [DLL.append] using hback

omit [DecidableEq α] in
/-- The neighbours of an element. -/
theorem Lists.neighbours (h : d.Lists null (l ++ x :: m)) :
    d.prev x = l.getLast?.getD null ∧ d.next x = m.head?.getD null := by
  obtain ⟨c, _, rfl, hm⟩ := seg_append.mp h.forward
  have hback := h.backward
  rw [List.reverse_append, List.reverse_cons, List.append_assoc, List.singleton_append] at hback
  obtain ⟨c', _, rfl, hl⟩ := seg_append.mp hback
  refine ⟨?_, hm.start_eq⟩
  rw [hl.start_eq, List.head?_reverse]

/-- Half of unlinking: the path that led to an element leads past it. -/
theorem relink {next : α → α} {a c : α} (h : Seg next a l x) (hnull : null ∉ l)
    (hnodup : l.Nodup) {p : α} (hp : p = l.getLast?.getD null) :
    Seg (if p ≠ null then Function.update next p c else next) (if p ≠ null then a else c) l c := by
  rcases l.eq_nil_or_concat' with rfl | ⟨l, y, rfl⟩
  · have hnil : p = null := hp
    simp [hnil]
  · have hy : p = y := by simpa using hp
    have hne : p ≠ null := fun hpn => hnull (by simp [← hpn, hy])
    have hyl : y ∉ l := by
      rw [List.nodup_append] at hnodup
      exact fun hmem => hnodup.2.2 y hmem y (by simp) rfl
    rw [if_pos hne, if_pos hne, hy]
    exact h.retarget hyl c

/-- Unlinking removes. -/
theorem Lists.unlink (h : d.Lists null (l ++ x :: m)) (hnull : null ∉ l ++ x :: m)
    (hnodup : (l ++ x :: m).Nodup) : (d.unlink null x).Lists null (l ++ m) := by
  obtain ⟨hprev, hnext⟩ := h.neighbours
  obtain ⟨c, hl, rfl, hm⟩ := seg_append.mp h.forward
  have hback := h.backward
  rw [List.reverse_append, List.reverse_cons, List.append_assoc, List.singleton_append] at hback
  obtain ⟨c', hmr, rfl, hlr⟩ := seg_append.mp hback
  obtain ⟨hnl, hnm⟩ : null ∉ l ∧ null ∉ m := by
    simp only [List.mem_append, List.mem_cons, not_or] at hnull
    exact ⟨hnull.1, hnull.2.2⟩
  obtain ⟨hdl, ⟨_, hdm⟩, hdisj⟩ : l.Nodup ∧ (c' ∉ m ∧ m.Nodup) ∧
      ∀ a ∈ l, ∀ b ∈ c' :: m, a ≠ b := by
    simpa [List.nodup_append] using hnodup
  have hlm : ∀ y ∈ l, y ∉ m := fun y hy hym => hdisj y hy y (.tail _ hym) rfl
  have hforward := relink hl hnl hdl (c := d.next c') hprev
  have hbackward := relink hmr (by simpa using hnm) (List.nodup_reverse.mpr hdm) (c := d.prev c')
    (p := d.next c') (by rw [hnext, List.getLast?_reverse])
  refine ⟨?_, ?_⟩
  · refine seg_append.mpr ⟨d.next c', hforward, ?_⟩
    -- The nodes behind `x` keep their links: none of them is the last of `l`.
    refine hm.congr fun y hy => ?_
    simp only [DLL.unlink]
    split
    next hp =>
      rw [Function.update_of_ne]
      intro hyp
      rw [hprev] at hyp hp
      cases hlast : l.getLast? with
      | none => simp [hlast] at hp
      | some z =>
          rw [hlast, Option.getD_some] at hyp
          exact hlm z (List.mem_of_getLast? hlast) (hyp ▸ hy)
    next => rfl
  · rw [List.reverse_append]
    refine seg_append.mpr ⟨d.prev c', hbackward, ?_⟩
    -- Read backward, none of the nodes before `x` is the first of `m`.
    refine hlr.congr fun y hy => ?_
    simp only [DLL.unlink]
    split
    next hp =>
      rw [Function.update_of_ne]
      intro hyp
      rw [hnext] at hyp hp
      cases hfirst : m.head? with
      | none => simp [hfirst] at hp
      | some z =>
          rw [hfirst, Option.getD_some] at hyp
          exact hlm y (List.mem_reverse.mp hy) (hyp ▸ List.mem_of_head? hfirst)
    next => rfl

end DLL

end FeedHandler.Segments
