import Mathlib.Data.Finset.Card
import FeedHandler.Foundations.Runs
import FeedHandler.Foundations.Segments
import FeedHandler.V3.Queues

/-!
# The free list

`FreeList` says which slots the free list of a pool runs through. `FreeList.allocate_cons`,
`FreeList.release` and `FreeList.modify` say what the calls of a pool do to it. `PoolUse` is a pool
together with the slots that its callers hold, and `allocate_exact` is about every sequence of
calls: a slot is handed out exactly if one is free, and never one that is held.
-/

namespace FeedHandler.V3

open Runs Segments

namespace OrderPool

/-- Following `next_idx` from `free_head_` visits the slots of a list, each once, and ends. -/
structure FreeList (p : OrderPool) (free : List Nat) : Prop extends Nodes p free where
  path : Seg (fun x => (p.get x).nextIdx) p.freeHead free kNullIdx

section FreeList

variable {p p' : OrderPool} {free rest : List Nat} {x capacity : Nat}

/-- The constructor links all slots that have an index. -/
theorem free_list_new (hpos : 0 < capacity) :
    ∃ p, new capacity = some p ∧ p.slots.size = capacity ∧
      FreeList p (List.range (min capacity kNullIdx)) := by
  refine ⟨_, if_neg hpos.ne', by simp, ⟨⟨List.nodup_range, fun x hx => ?_, ?_⟩, ?_⟩⟩
  · have hlt := List.mem_range.mp hx
    simp only [Array.size_map, Array.size_range]
    omega
  · rw [List.mem_range]
    omega
  · refine seg_range (by simp only [kNullIdx]; omega) fun i hi => ?_
    have hlt : i < capacity := by omega
    simp only [OrderPool.get, Array.getD_eq_getD_getElem?, Array.getElem?_map,
      Array.getElem?_range, hlt, if_true, Option.map_some, Option.getD_some]
    by_cases hi' : i + 1 < min capacity kNullIdx
    · rw [if_pos hi', if_pos (by omega)]
      simp only [kNullIdx] at hi'
      omega
    · rw [if_neg hi']
      simp only [kNullIdx] at hi hi' ⊢
      split <;> omega

/-- The free list is empty exactly if its head is null. -/
theorem FreeList.free_head_eq_null_iff (h : p.FreeList free) :
    p.freeHead = kNullIdx ↔ free = [] := by
  rw [h.path.start_eq]
  cases free with
  | nil => simp
  | cons x rest =>
      simp only [List.head?_cons, Option.getD_some, reduceCtorEq, iff_false]
      exact fun hx => h.ne_null (hx ▸ List.mem_cons_self)

/-- Otherwise the head is a free slot. -/
theorem FreeList.free_head_mem (h : p.FreeList free) (hne : p.freeHead ≠ kNullIdx) :
    p.freeHead ∈ free := by
  cases free with
  | nil => exact absurd (h.free_head_eq_null_iff.mpr rfl) hne
  | cons x rest =>
      rw [h.path.start_eq]
      exact List.mem_cons_self

/-- The links of the other slots do not matter. -/
theorem FreeList.frame (h : p.FreeList free) (hhead : p'.freeHead = p.freeHead)
    (hsize : p'.slots.size = p.slots.size)
    (hget : ∀ y ∈ free, (p'.get y).nextIdx = (p.get y).nextIdx) : p'.FreeList free where
  nodup := h.nodup
  lt_size y hy := hsize ▸ h.lt_size y hy
  ne_null := h.ne_null
  path := hhead ▸ h.path.congr fun y hy => (hget y hy).symm

/-- An empty free list gives out the null index. -/
theorem FreeList.allocate_nil (h : p.FreeList []) : p.allocate = some (p, kNullIdx) := by
  rw [allocate, if_pos (h.free_head_eq_null_iff.mpr rfl)]

/-- `allocate` takes the first free slot. -/
theorem FreeList.allocate_cons (h : p.FreeList (x :: rest)) :
    p.allocate = some ({ p with freeHead := (p.get x).nextIdx }, x) ∧ x ≠ kNullIdx ∧
      FreeList { p with freeHead := (p.get x).nextIdx } rest := by
  obtain ⟨hhead, hrest⟩ := h.path
  have hne : x ≠ kNullIdx := fun hx => h.ne_null (hx ▸ List.mem_cons_self)
  refine ⟨?_, hne, ⟨⟨h.nodup.of_cons, fun y hy => h.lt_size y (.tail _ hy), fun hnull =>
    h.ne_null (.tail _ hnull)⟩, hrest⟩⟩
  simp only [allocate, hhead, if_neg hne, slots_get (h.lt_size x List.mem_cons_self),
    Option.bind_eq_bind, Option.bind_some]

/-- `release` puts a slot in front of the free list. -/
theorem FreeList.release (h : p.FreeList free) (hx : x < p.slots.size) (hne : x ≠ kNullIdx)
    (hmem : x ∉ free) :
    ∃ p', p.release x = some p' ∧ p'.slots.size = p.slots.size ∧ p'.FreeList (x :: free) ∧
      (∀ y, y ≠ x → p'.get y = p.get y) ∧ ∀ y, (p'.get y).qty = (p.get y).qty := by
  obtain ⟨p', hp'⟩ : ∃ p', ({ p.write x (fun o => { o with nextIdx := p.freeHead }) with
      freeHead := x } : OrderPool) = p' := ⟨_, rfl⟩
  have hget : ∀ y, p'.get y = if y = x then { p.get y with nextIdx := p.freeHead } else p.get y :=
    hp' ▸ get_write hx
  have hsize : p'.slots.size = p.slots.size := hp' ▸ size_write
  refine ⟨p', ?_, hsize, ⟨⟨List.nodup_cons.mpr ⟨hmem, h.nodup⟩, fun y hy => ?_, fun hnull => ?_⟩,
    hp' ▸ rfl, ?_⟩, fun y hy => ?_, fun y => ?_⟩
  · rw [OrderPool.release, modify_eq_write hx, ← hp']
    rfl
  · rw [hsize]
    rcases List.mem_cons.mp hy with rfl | hy
    · exact hx
    · exact h.lt_size y hy
  · rcases List.mem_cons.mp hnull with heq | hnull
    · exact hne heq.symm
    · exact h.ne_null hnull
  · simp only [hget, if_true]
    refine h.path.congr fun y hy => ?_
    rw [if_neg (ne_of_mem_of_not_mem hy hmem)]
  · rw [hget, if_neg hy]
  · rw [hget]
    split <;> rfl

/-- A write to a slot that is not free leaves the free list alone, whatever is written. -/
theorem FreeList.modify (h : p.FreeList free) (hx : x < p.slots.size) (hmem : x ∉ free)
    (f : PooledOrder → PooledOrder) :
    ∃ p', p.modify x f = some p' ∧ p'.slots.size = p.slots.size ∧ p'.FreeList free := by
  refine ⟨p.write x f, modify_eq_write hx, size_write, h.frame rfl size_write fun y hy => ?_⟩
  rw [get_write hx, if_neg (ne_of_mem_of_not_mem hy hmem)]

end FreeList

end OrderPool

/-! ## Sequences of calls -/

/-- A call of the pool. A write through `operator[]` may put anything into the slot. -/
inductive PoolCall where
  | allocate
  | release (idx : Nat)
  | write (idx : Nat) (f : PooledOrder → PooledOrder)

/-- A pool and its allocated slots: those that were handed out and not released since. -/
structure PoolUse where
  pool : OrderPool
  allocated : Finset Nat

namespace PoolUse

/-- One call. -/
def step (u : PoolUse) : PoolCall → Option PoolUse
  | .allocate => do
      let (pool, idx) ← u.pool.allocate
      return ⟨pool, if idx = kNullIdx then u.allocated else insert idx u.allocated⟩
  | .release idx => do
      let pool ← u.pool.release idx
      return ⟨pool, u.allocated.erase idx⟩
  | .write idx f => do
      let pool ← u.pool.modify idx f
      return ⟨pool, u.allocated⟩

/-- Only allocated slots are released or written to. -/
def Owns (u : PoolUse) : PoolCall → Prop
  | .allocate => True
  | .release idx => idx ∈ u.allocated
  | .write idx _ => idx ∈ u.allocated

instance decidableOwns (u : PoolUse) : (call : PoolCall) → Decidable (u.Owns call)
  | .allocate => isTrue trivial
  | .release idx => inferInstanceAs (Decidable (idx ∈ u.allocated))
  | .write idx _ => inferInstanceAs (Decidable (idx ∈ u.allocated))

/-- The free list consists of the slots below `n` that are not allocated. -/
structure Inv (n : Nat) (u : PoolUse) (free : List Nat) : Prop where
  list : u.pool.FreeList free
  mem_free_iff : ∀ x, x ∈ free ↔ x < n ∧ x ∉ u.allocated
  allocated_lt : ∀ x ∈ u.allocated, x < n
  le_size : n ≤ u.pool.slots.size
  le_null : n ≤ kNullIdx

section Calls

variable {n : Nat} {u : PoolUse} {free : List Nat}

/-- No slot is free exactly if `n` slots are allocated. -/
theorem Inv.free_eq_nil_iff (h : u.Inv n free) : free = [] ↔ u.allocated.card = n := by
  have hsub : u.allocated ⊆ Finset.range n := fun x hx =>
    Finset.mem_range.mpr (h.allocated_lt x hx)
  constructor
  · intro hnil
    have hall : u.allocated = Finset.range n := by
      refine hsub.antisymm fun x hx => ?_
      by_contra hnot
      have hfree := (h.mem_free_iff x).mpr ⟨Finset.mem_range.mp hx, hnot⟩
      rw [hnil] at hfree
      cases hfree
    rw [hall, Finset.card_range]
  · intro hcard
    have hall : u.allocated = Finset.range n :=
      Finset.eq_of_subset_of_card_le hsub (by rw [Finset.card_range, hcard])
    rw [List.eq_nil_iff_forall_not_mem]
    intro x hx
    obtain ⟨hlt, hnot⟩ := (h.mem_free_iff x).mp hx
    exact hnot (hall ▸ Finset.mem_range.mpr hlt)

/-- What `allocate` returns. -/
theorem Inv.allocate (h : u.Inv n free) :
    ∃ pool idx, u.pool.allocate = some (pool, idx) ∧ (idx = kNullIdx ↔ u.allocated.card = n) ∧
      (idx ≠ kNullIdx → idx < n ∧ idx ∉ u.allocated) := by
  have hnil := h.free_eq_nil_iff
  cases free with
  | nil => exact ⟨_, _, h.list.allocate_nil, by simp [hnil.mp rfl], fun hne => absurd rfl hne⟩
  | cons x rest =>
      obtain ⟨halloc, hne, _⟩ := h.list.allocate_cons
      refine ⟨_, x, halloc, iff_of_false hne fun hcard => ?_, fun _ => ?_⟩
      · exact List.cons_ne_nil x rest (hnil.mpr hcard)
      · exact (h.mem_free_iff x).mp List.mem_cons_self

/-- An allocated slot is a slot of the pool that is not free. -/
theorem Inv.of_allocated (h : u.Inv n free) {x : Nat} (hx : x ∈ u.allocated) :
    x < u.pool.slots.size ∧ x ≠ kNullIdx ∧ x ∉ free := by
  have hlt := h.allocated_lt x hx
  have hsize := h.le_size
  have hnull := h.le_null
  exact ⟨by omega, by omega, fun hfree => ((h.mem_free_iff x).mp hfree).2 hx⟩

/-- Every call keeps the invariant, and none gets stuck. -/
theorem Inv.step (h : u.Inv n free) {call : PoolCall} (hok : u.Owns call) :
    ∃ u', u.step call = some u' ∧ ∃ free', u'.Inv n free' := by
  cases call with
  | allocate =>
      cases free with
      | nil =>
          refine ⟨u, ?_, [], h⟩
          rw [PoolUse.step, h.list.allocate_nil]
          simp
      | cons x rest =>
          obtain ⟨halloc, hne, hlist⟩ := h.list.allocate_cons
          obtain ⟨hx, _⟩ := (h.mem_free_iff x).mp List.mem_cons_self
          refine ⟨⟨{ u.pool with freeHead := (u.pool.get x).nextIdx }, insert x u.allocated⟩, ?_,
            rest, ⟨hlist, fun y => ?_, fun y hy => ?_, h.le_size, h.le_null⟩⟩
          · rw [PoolUse.step, halloc]
            simp [hne]
          · -- The slot is on the list only once, so it leaves it.
            have hnodup := (List.nodup_cons.mp h.list.nodup).1
            have hiff := h.mem_free_iff y
            rw [List.mem_cons] at hiff
            rw [Finset.mem_insert]
            by_cases hyx : y = x
            · subst hyx
              simp [hnodup]
            · simp only [hyx, false_or] at hiff ⊢
              exact hiff
          · rcases Finset.mem_insert.mp hy with rfl | hy
            · exact hx
            · exact h.allocated_lt y hy
  | release x =>
      have hx : x ∈ u.allocated := hok
      obtain ⟨hlt, hne, hmem⟩ := h.of_allocated hx
      obtain ⟨pool, hrelease, hsize, hlist, _⟩ := h.list.release hlt hne hmem
      refine ⟨⟨pool, u.allocated.erase x⟩, ?_, x :: free, ⟨hlist, fun y => ?_, fun y hy => ?_,
        hsize ▸ h.le_size, h.le_null⟩⟩
      · rw [PoolUse.step, hrelease]
        rfl
      · rw [List.mem_cons, Finset.mem_erase, h.mem_free_iff]
        by_cases hyx : y = x
        · subst hyx
          simp [h.allocated_lt y hx]
        · simp [hyx]
      · exact h.allocated_lt y (Finset.mem_of_mem_erase hy)
  | write x f =>
      obtain ⟨hlt, _, hmem⟩ := h.of_allocated hok
      obtain ⟨pool, hmodify, hsize, hlist⟩ := h.list.modify hlt hmem f
      refine ⟨⟨pool, u.allocated⟩, ?_, free, ⟨hlist, h.mem_free_iff, h.allocated_lt,
        hsize ▸ h.le_size, h.le_null⟩⟩
      rw [PoolUse.step, hmodify]
      rfl

/-- The invariant holds of a new pool, of which no slot is allocated. -/
theorem inv_new {capacity : Nat} (hpos : 0 < capacity) :
    ∃ p, OrderPool.new capacity = some p ∧
      Inv (min capacity kNullIdx) ⟨p, ∅⟩ (List.range (min capacity kNullIdx)) := by
  obtain ⟨p, hp, hsize, hlist⟩ := OrderPool.free_list_new hpos
  refine ⟨p, hp, hlist, fun x => by simp, fun x hx => ?_, ?_, Nat.min_le_right ..⟩
  · simp at hx
  · rw [hsize]
    exact Nat.min_le_left ..

/-- Take a pool of any capacity below `2 ^ 32` and any sequence of calls that releases and writes to
allocated slots only, whatever it writes into them. Then `allocate` returns the null index exactly
if all slots are allocated, and otherwise a slot that is not allocated, and the free list visits the
slots that are not allocated, each once, and ends. -/
theorem allocate_exact {capacity : Nat} (hpos : 1 ≤ capacity) (hlt : capacity < 2 ^ 32) :
    ∃ p, OrderPool.new capacity = some p ∧ ∀ calls, Along step Owns ⟨p, ∅⟩ calls →
      ∃ u, run step ⟨p, ∅⟩ calls = some u ∧
        (∃ pool idx, u.pool.allocate = some (pool, idx) ∧
          (idx = kNullIdx ↔ u.allocated.card = capacity) ∧
          (idx ≠ kNullIdx → idx < capacity ∧ idx ∉ u.allocated)) ∧
        ∃ free, u.pool.FreeList free ∧ ∀ x, x ∈ free ↔ x < capacity ∧ x ∉ u.allocated := by
  obtain ⟨p, hp, hnew⟩ := inv_new hpos
  have hmin : min capacity kNullIdx = capacity := by
    simp only [kNullIdx]
    omega
  rw [hmin] at hnew
  refine ⟨p, hp, fun calls hok => ?_⟩
  have hstep : ∀ (u : PoolUse) call, (∃ free, u.Inv capacity free) → u.Owns call →
      ∃ u', u.step call = some u' ∧ ∃ free, u'.Inv capacity free := by
    intro u call hinv hown
    obtain ⟨free, h⟩ := hinv
    exact h.step hown
  obtain ⟨u, hrun, free, h⟩ := run_invariant hstep ⟨_, hnew⟩ hok
  exact ⟨u, hrun, h.allocate, free, h.list, h.mem_free_iff⟩

/-- A pool of two slots is used up, with a write that links a slot to itself in between; the third
call finds no slot, and the slot that is released next is handed out again. -/
theorem allocate_exact_two_slots :
    ∃ p u, OrderPool.new 2 = some p ∧
      run step ⟨p, ∅⟩ [.allocate, .write 0 (fun o => { o with nextIdx := 0 }), .allocate,
        .allocate, .release 0] = some u ∧
      u.pool.allocate.map Prod.snd = some 0 ∧
      ∃ free, u.pool.FreeList free ∧ ∀ x, x ∈ free ↔ x < 2 ∧ x ∉ u.allocated := by
  obtain ⟨p, hp, hcalls⟩ := allocate_exact (by decide : 1 ≤ 2) (by decide)
  cases hp
  obtain ⟨u, hrun, _, hfree⟩ := hcalls [.allocate, .write 0 (fun o => { o with nextIdx := 0 }),
    .allocate, .allocate, .release 0] (by decide +kernel)
  have hnext := congrArg (Option.bind · fun u => u.pool.allocate.map Prod.snd) hrun
  exact ⟨_, u, rfl, hrun, hnext.symm.trans (by decide +kernel), hfree⟩

end Calls

end PoolUse

end FeedHandler.V3
