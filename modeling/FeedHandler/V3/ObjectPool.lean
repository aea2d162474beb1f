import Mathlib.Algebra.Group.Nat.Defs
import Mathlib.Order.Basic

/-!
# The order pool

`include/v3/object_pool.hpp`: one array of 16-byte order nodes, shared by all books, with a free
list threaded through `next_idx`. Indices are 32-bit numbers, kept here as `Nat`; an access
outside the array is `none`.
-/

namespace FeedHandler.V3

/-- `kNullIdx`: the index that stands for no node. -/
def kNullIdx : Nat := 0xFFFFFFFF

/-- `PooledOrder`: the links of a resting order, its remaining quantity and its price level. -/
structure PooledOrder where
  nextIdx : Nat
  prevIdx : Nat
  qty : Nat
  levelIdx : Nat
  deriving DecidableEq, Repr, Inhabited

/-- `OrderPool`: the nodes and the head of the free list. -/
structure OrderPool where
  slots : Array PooledOrder
  freeHead : Nat
  deriving DecidableEq, Repr

namespace OrderPool

/-- The constructor: every node links to the following one, the last to `kNullIdx`. A capacity of
zero writes outside the array. -/
def new (capacity : Nat) : Option OrderPool :=
  if capacity = 0 then none
  else some {
    slots := (Array.range capacity).map fun i =>
      { nextIdx := if i + 1 < capacity then (i + 1) % 2 ^ 32 else kNullIdx,
        prevIdx := 0, qty := 0, levelIdx := 0 }
    freeHead := 0 }

/-- `allocate`: pop the free list, or return `kNullIdx` when it is empty. -/
def allocate (p : OrderPool) : Option (OrderPool × Nat) :=
  if p.freeHead = kNullIdx then some (p, kNullIdx)
  else do
    let idx := p.freeHead
    let o ← p.slots[idx]?
    some ({ p with freeHead := o.nextIdx }, idx)

/-- A write through `operator[]`. -/
def modify (p : OrderPool) (idx : Nat) (f : PooledOrder → PooledOrder) : Option OrderPool :=
  if idx < p.slots.size then some { p with slots := p.slots.modify idx f } else none

/-- `release`: push an index on the free list. -/
def release (p : OrderPool) (idx : Nat) : Option OrderPool := do
  let p' ← p.modify idx fun o => { o with nextIdx := p.freeHead }
  some { p' with freeHead := idx }

/-! ## Reads and writes inside the array -/

/-- `operator[]`. -/
def get (p : OrderPool) (idx : Nat) : PooledOrder := p.slots.getD idx default

/-- The pool after a write inside the array. -/
def write (p : OrderPool) (idx : Nat) (f : PooledOrder → PooledOrder) : OrderPool :=
  { p with slots := p.slots.modify idx f }

section Access

variable {p : OrderPool} {idx : Nat} {f : PooledOrder → PooledOrder}

theorem slots_get (h : idx < p.slots.size) : p.slots[idx]? = some (p.get idx) := by
  simp [get, h]

theorem modify_eq_write (h : idx < p.slots.size) : p.modify idx f = some (p.write idx f) := if_pos h

@[simp] theorem size_write : (p.write idx f).slots.size = p.slots.size := by simp [write]

@[simp] theorem free_head_write : (p.write idx f).freeHead = p.freeHead := rfl

theorem get_write (h : idx < p.slots.size) (y : Nat) :
    (p.write idx f).get y = if y = idx then f (p.get y) else p.get y := by
  simp only [get, write, Array.getD_eq_getD_getElem?, Array.getElem?_modify]
  by_cases hy : y = idx
  · subst hy
    simp [h]
  · rw [if_neg (Ne.symm hy), if_neg hy]

end Access

end OrderPool

end FeedHandler.V3
