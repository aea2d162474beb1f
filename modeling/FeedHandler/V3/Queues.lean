import FeedHandler.Foundations.Segments
import FeedHandler.V3.OrderBook

/-!
# The orders of a level

A level's list lives in the shared pool. `Queue` relates the level record and the pool to the list
of node indices; `push_back_spec`, `remove_spec` and `reduce_spec` are what linking, unlinking and
a partial execution do to it, and `Queue.frame` that nothing else matters.
-/

namespace FeedHandler.V3

open Segments OrderPool

/-- The links of the pool between the ends of a level. -/
def OrderPool.links (p : OrderPool) (lvl : PriceLevel) : DLL Nat where
  next x := (p.get x).nextIdx
  prev x := (p.get x).prevIdx
  head := lvl.headIdx
  tail := lvl.tailIdx

/-- The sum of the quantities of some nodes. -/
def OrderPool.totalQty (p : OrderPool) (l : List Nat) : Nat := (l.map fun x => (p.get x).qty).sum

/-- A level record whose list in the pool consists of the given nodes. -/
structure Queue (p : OrderPool) (lvl : PriceLevel) (levelIdx : Nat) (l : List Nat) : Prop where
  lists : (p.links lvl).Lists kNullIdx l
  count : lvl.orderCount = l.length % 2 ^ 32
  total : lvl.totalQty = p.totalQty l % 2 ^ 32
  index : ∀ x ∈ l, (p.get x).levelIdx = levelIdx
  qty_lt : ∀ x ∈ l, (p.get x).qty < 2 ^ 32

/-- Distinct nodes of the pool. -/
structure Nodes (p : OrderPool) (l : List Nat) : Prop where
  nodup : l.Nodup
  lt_size : ∀ x ∈ l, x < p.slots.size
  ne_null : kNullIdx ∉ l

/-- The pool changed at some nodes only. -/
structure Touched (p p' : OrderPool) (l : List Nat) : Prop where
  size_eq : p'.slots.size = p.slots.size
  get_eq : ∀ x, x ∉ l → p'.get x = p.get x

section Queue

variable {p p' : OrderPool} {lvl : PriceLevel} {i x q : Nat} {l m : List Nat}

theorem queue_empty (p : OrderPool) (i : Nat) : Queue p PriceLevel.empty i [] where
  lists := ⟨rfl, rfl⟩
  count := rfl
  total := rfl
  index x hx := by cases hx
  qty_lt x hx := by cases hx

theorem OrderPool.total_qty_congr (h : ∀ x ∈ l, (p'.get x).qty = (p.get x).qty) :
    p'.totalQty l = p.totalQty l := by
  rw [OrderPool.totalQty, OrderPool.totalQty, List.map_congr_left h]

/-- A list depends on its own nodes only. -/
theorem Queue.frame (h : Queue p lvl i l) (hget : ∀ x ∈ l, p'.get x = p.get x) :
    Queue p' lvl i l where
  lists := h.lists.congr rfl rfl (fun x hx => by simp [OrderPool.links, hget x hx])
    fun x hx => by simp [OrderPool.links, hget x hx]
  count := h.count
  total := by rw [h.total, OrderPool.total_qty_congr fun x hx => by rw [hget x hx]]
  index x hx := by rw [hget x hx, h.index x hx]
  qty_lt x hx := by rw [hget x hx]; exact h.qty_lt x hx

/-- The level is empty exactly if its head is null. -/
theorem Queue.head_eq_null_iff (h : Queue p lvl i l) (hl : Nodes p l) :
    lvl.headIdx = kNullIdx ↔ l = [] :=
  h.lists.head_eq_null_iff hl.ne_null

/-- The tail of a level is null or one of its nodes. -/
theorem Queue.tail_mem (h : Queue p lvl i l) (htail : lvl.tailIdx ≠ kNullIdx) :
    lvl.tailIdx ∈ l := by
  have heq : lvl.tailIdx = l.getLast?.getD kNullIdx := h.lists.tail_eq
  cases hlast : l.getLast? with
  | none => rw [heq, hlast] at htail; exact absurd rfl htail
  | some y =>
      rw [heq, hlast]
      exact List.mem_of_getLast? hlast

/-- Writing a successor changes one node, or the head. -/
theorem set_next_get (p : OrderPool) (lvl : PriceLevel) (x : Nat)
    (hidx : x ≠ kNullIdx → x < p.slots.size) (v : Nat) :
    ∃ p', p.setNext lvl x v =
        some (p', { lvl with headIdx := if x ≠ kNullIdx then lvl.headIdx else v }) ∧
      p'.slots.size = p.slots.size ∧ p'.freeHead = p.freeHead ∧
      ∀ y, p'.get y = if x ≠ kNullIdx ∧ y = x then { p.get y with nextIdx := v } else p.get y := by
  by_cases hnil : x = kNullIdx
  · exact ⟨p, by simp [setNext, hnil], rfl, rfl, fun y => by simp [hnil]⟩
  · refine ⟨p.write x fun o => { o with nextIdx := v }, ?_, size_write, rfl, fun y => ?_⟩
    · simp [setNext, hnil, modify_eq_write (hidx hnil)]
    · simp [get_write (hidx hnil), hnil]

/-- Writing a predecessor changes one node, or the tail. -/
theorem set_prev_get (p : OrderPool) (lvl : PriceLevel) (x : Nat)
    (hidx : x ≠ kNullIdx → x < p.slots.size) (v : Nat) :
    ∃ p', p.setPrev lvl x v =
        some (p', { lvl with tailIdx := if x ≠ kNullIdx then lvl.tailIdx else v }) ∧
      p'.slots.size = p.slots.size ∧ p'.freeHead = p.freeHead ∧
      ∀ y, p'.get y = if x ≠ kNullIdx ∧ y = x then { p.get y with prevIdx := v } else p.get y := by
  by_cases hnil : x = kNullIdx
  · exact ⟨p, by simp [setPrev, hnil], rfl, rfl, fun y => by simp [hnil]⟩
  · refine ⟨p.write x fun o => { o with prevIdx := v }, ?_, size_write, rfl, fun y => ?_⟩
    · simp [setPrev, hnil, modify_eq_write (hidx hnil)]
    · simp [get_write (hidx hnil), hnil]

/-- What `link_order` does to the nodes of the pool. -/
theorem push_back_get (h : Queue p lvl i l) (hl : Nodes p (l ++ [x])) :
    ∃ p', p.pushBack lvl i x q = some (p', ⟨if lvl.tailIdx ≠ kNullIdx then lvl.headIdx else x, x,
        (lvl.totalQty + q) % 2 ^ 32, (lvl.orderCount + 1) % 2 ^ 32⟩) ∧
      p'.slots.size = p.slots.size ∧ p'.freeHead = p.freeHead ∧
      ∀ y, p'.get y =
        if lvl.tailIdx ≠ kNullIdx ∧ y = lvl.tailIdx then { p.get y with nextIdx := x }
        else if y = x then ⟨kNullIdx, lvl.tailIdx, q, i⟩ else p.get y := by
  have hx : x < p.slots.size := hl.lt_size x (by simp)
  have hxl : x ∉ l := fun hmem => (List.nodup_append.mp hl.nodup).2.2 x hmem x (by simp) rfl
  obtain ⟨p₁, hp₁⟩ : ∃ p₁, p.write x (fun o =>
      { o with nextIdx := kNullIdx, prevIdx := lvl.tailIdx, levelIdx := i, qty := q }) = p₁ :=
    ⟨_, rfl⟩
  have hsize₁ : p₁.slots.size = p.slots.size := by rw [← hp₁, size_write]
  have hget₁ : ∀ y, p₁.get y = if y = x then ⟨kNullIdx, lvl.tailIdx, q, i⟩ else p.get y := by
    intro y
    rw [← hp₁, get_write hx]
  obtain ⟨p', hset, hsize, hfree, hget⟩ := set_next_get p₁ lvl lvl.tailIdx
    (fun hnil => hsize₁ ▸ hl.lt_size _ (List.mem_append_left [x] (h.tail_mem hnil))) x
  refine ⟨p', ?_, hsize.trans hsize₁, hfree.trans (by rw [← hp₁, free_head_write]), fun y => ?_⟩
  · simp only [pushBack, modify_eq_write hx, hp₁, hset, Option.bind_eq_bind, Option.bind_some]
    rfl
  · rw [hget, hget₁]
    by_cases hy : lvl.tailIdx ≠ kNullIdx ∧ y = lvl.tailIdx
    · have hne : y ≠ x := fun hyx => hxl (hyx ▸ hy.2 ▸ h.tail_mem hy.1)
      rw [if_pos hy, if_pos hy, if_neg hne]
    · rw [if_neg hy, if_neg hy]

/-- Linking puts a node behind the tail. -/
theorem push_back_spec (h : Queue p lvl i l) (hl : Nodes p (l ++ [x])) (hq : q < 2 ^ 32) :
    ∃ p' lvl', p.pushBack lvl i x q = some (p', lvl') ∧ Queue p' lvl' i (l ++ [x]) ∧
      Touched p p' (l ++ [x]) ∧ p'.freeHead = p.freeHead ∧ (p'.get x).qty = q ∧
      ∀ y, y ≠ x → (p'.get y).qty = (p.get y).qty := by
  obtain ⟨p', hpush, hsize, hfree, hget⟩ := push_back_get (q := q) h hl
  obtain ⟨hnodup, _, hdisj⟩ := List.nodup_append.mp hl.nodup
  have hxl : x ∉ l := fun hmem => hdisj x hmem x (by simp) rfl
  have hnull : kNullIdx ∉ l := fun hmem => hl.ne_null (List.mem_append_left [x] hmem)
  have hgetx : p'.get x = ⟨kNullIdx, lvl.tailIdx, q, i⟩ := by
    have hnot : ¬ (lvl.tailIdx ≠ kNullIdx ∧ x = lvl.tailIdx) :=
      fun hboth => hxl (hboth.2 ▸ h.tail_mem hboth.1)
    rw [hget, if_neg hnot, if_pos rfl]
  have hqty : ∀ y, y ≠ x → (p'.get y).qty = (p.get y).qty := by
    intro y hy
    rw [hget, if_neg hy]
    split <;> rfl
  have hindex : ∀ y, y ≠ x → (p'.get y).levelIdx = (p.get y).levelIdx := by
    intro y hy
    rw [hget, if_neg hy]
    split <;> rfl
  have hne : ∀ y ∈ l, y ≠ x := fun y hy heq => hxl (heq ▸ hy)
  refine ⟨p', _, hpush, ⟨?_, ?_, ?_, ?_, ?_⟩, ⟨hsize, fun y hy => ?_⟩, hfree, by rw [hgetx],
    hqty⟩
  · -- The links are those of the abstract append, whose rule gives the list.
    have hlinks : p'.links ⟨if lvl.tailIdx ≠ kNullIdx then lvl.headIdx else x, x,
        (lvl.totalQty + q) % 2 ^ 32, (lvl.orderCount + 1) % 2 ^ 32⟩ =
        (p.links lvl).append kNullIdx x := by
      simp only [links, DLL.append, hget, DLL.mk.injEq, and_true]
      refine ⟨funext fun y => ?_, funext fun y => ?_, rfl⟩ <;>
        by_cases hnil : lvl.tailIdx = kNullIdx <;> by_cases hyt : y = lvl.tailIdx <;>
        by_cases hyx : y = x <;> simp_all
    exact hlinks ▸ h.lists.append hxl hnull hnodup
  · rw [h.count, List.length_append, List.length_singleton]
    simp only
    omega
  · simp only [h.total, totalQty, List.map_append, List.sum_append, List.map_singleton,
      List.sum_singleton, hgetx]
    rw [show (l.map fun y => (p'.get y).qty).sum = (l.map fun y => (p.get y).qty).sum from
      total_qty_congr fun y hy => hqty y (hne y hy)]
    omega
  · intro y hy
    rcases List.mem_append.mp hy with hy | hy
    · rw [hindex y (hne y hy), h.index y hy]
    · rw [List.mem_singleton.mp hy, hgetx]
  · intro y hy
    rcases List.mem_append.mp hy with hy | hy
    · rw [hqty y (hne y hy)]
      exact h.qty_lt y hy
    · rw [List.mem_singleton.mp hy, hgetx]
      exact hq
  · rw [hget, if_neg, if_neg]
    · exact fun hyx => hy (by simp [hyx])
    · exact fun hboth => hy (List.mem_append_left [x] (hboth.2 ▸ h.tail_mem hboth.1))

/-- What `unlink_order` does to the nodes of the pool: the neighbours of the node are linked with
each other. -/
theorem remove_get {o : PooledOrder} (lvl : PriceLevel) (ho : p.get x = o) (hx : x < p.slots.size)
    (hprev : o.prevIdx ≠ kNullIdx → o.prevIdx < p.slots.size ∧ x ≠ o.prevIdx)
    (hnext : o.nextIdx ≠ kNullIdx → o.nextIdx < p.slots.size ∧ x ≠ o.nextIdx) :
    ∃ p' lvl', p.remove lvl x = some (p', lvl') ∧ p'.slots.size = p.slots.size ∧
      p'.freeHead = p.freeHead ∧ p'.links lvl' = (p.links lvl).unlink kNullIdx x ∧
      (∀ y, (p'.get y).qty = (p.get y).qty ∧ (p'.get y).levelIdx = (p.get y).levelIdx) ∧
      (∀ y, ¬ (o.prevIdx ≠ kNullIdx ∧ y = o.prevIdx) → ¬ (o.nextIdx ≠ kNullIdx ∧ y = o.nextIdx) →
        p'.get y = p.get y) ∧
      lvl'.totalQty = sub32 lvl.totalQty o.qty ∧ lvl'.orderCount = sub32 lvl.orderCount 1 := by
  obtain ⟨p₁, hset₁, hsize₁, hfree₁, hget₁⟩ := set_next_get p lvl o.prevIdx
    (fun hnil => (hprev hnil).1) o.nextIdx
  have hsame₁ : p₁.get x = o := by
    rw [hget₁, if_neg fun hboth => (hprev hboth.1).2 hboth.2, ho]
  obtain ⟨p₂, hset₂, hsize₂, hfree₂, hget₂⟩ := set_prev_get p₁
    { lvl with headIdx := if o.prevIdx ≠ kNullIdx then lvl.headIdx else o.nextIdx }
    o.nextIdx (fun hnil => hsize₁ ▸ (hnext hnil).1) o.prevIdx
  have hsame₂ : p₂.get x = o := by
    rw [hget₂, if_neg fun hboth => (hnext hboth.1).2 hboth.2, hsame₁]
  refine ⟨p₂, ⟨if o.prevIdx ≠ kNullIdx then lvl.headIdx else o.nextIdx,
    if o.nextIdx ≠ kNullIdx then lvl.tailIdx else o.prevIdx, sub32 lvl.totalQty o.qty,
    sub32 lvl.orderCount 1⟩, ?_, hsize₂.trans hsize₁, hfree₂.trans hfree₁, ?_, fun y => ?_,
    fun y hy hy' => ?_, rfl, rfl⟩
  · simp only [remove, slots_get hx, ho, hset₁, slots_get (hsize₁.symm ▸ hx), hsame₁, hset₂,
      slots_get ((hsize₂.trans hsize₁).symm ▸ hx), hsame₂, Option.bind_eq_bind, Option.bind_some]
    rfl
  · simp only [links, DLL.unlink, ho, hget₂, hget₁, DLL.mk.injEq, and_true]
    refine ⟨funext fun y => ?_, funext fun y => ?_⟩ <;>
      by_cases hprevNil : o.prevIdx = kNullIdx <;> by_cases hnextNil : o.nextIdx = kNullIdx <;>
      by_cases hyp : y = o.prevIdx <;> by_cases hyn : y = o.nextIdx <;>
      simp_all
  · rw [hget₂, hget₁]
    split <;> split <;> exact ⟨rfl, rfl⟩
  · rw [hget₂, if_neg hy', hget₁, if_neg hy]

/-- Unlinking takes a node out. The node itself is left as it is. -/
theorem remove_spec (h : Queue p lvl i (l ++ x :: m)) (hl : Nodes p (l ++ x :: m)) :
    ∃ p' lvl', p.remove lvl x = some (p', lvl') ∧ Queue p' lvl' i (l ++ m) ∧
      Touched p p' (l ++ m) ∧ p'.freeHead = p.freeHead ∧
      ∀ y, (p'.get y).qty = (p.get y).qty := by
  have hmem : ∀ y ∈ l ++ m, y ∈ l ++ x :: m := by
    intro y hy
    simp only [List.mem_append, List.mem_cons] at hy ⊢
    tauto
  obtain ⟨hprevEq, hnextEq⟩ := h.lists.neighbours
  simp only [links] at hprevEq hnextEq
  obtain ⟨hnodupl, hnodupm, hdisj⟩ := List.nodup_append.mp hl.nodup
  -- The neighbours of the node are the last of `l` and the first of `m`, or null.
  have hprev : (p.get x).prevIdx ≠ kNullIdx → (p.get x).prevIdx ∈ l := by
    intro hnil
    cases hlast : l.getLast? with
    | none => rw [hprevEq, hlast] at hnil; exact absurd rfl hnil
    | some y => rw [hprevEq, hlast]; exact List.mem_of_getLast? hlast
  have hnext : (p.get x).nextIdx ≠ kNullIdx → (p.get x).nextIdx ∈ m := by
    intro hnil
    cases hfirst : m.head? with
    | none => rw [hnextEq, hfirst] at hnil; exact absurd rfl hnil
    | some y => rw [hnextEq, hfirst]; exact List.mem_of_head? hfirst
  have hxl : x ∉ l := fun hin => hdisj x hin x List.mem_cons_self rfl
  have hxm : x ∉ m := (List.nodup_cons.mp hnodupm).1
  obtain ⟨p', lvl', hremove, hsize, hfree, hlinks, hsame, hget, htotal, hcount⟩ :=
    remove_get lvl rfl (hl.lt_size x (by simp))
      (fun hnil => ⟨hl.lt_size _ (List.mem_append_left _ (hprev hnil)),
        fun heq => hxl (heq ▸ hprev hnil)⟩)
      (fun hnil => ⟨hl.lt_size _ (List.mem_append_right _ (.tail _ (hnext hnil))),
        fun heq => hxm (heq ▸ hnext hnil)⟩)
  have hqx := h.qty_lt x (by simp)
  refine ⟨p', lvl', hremove, ⟨?_, ?_, ?_, ?_, ?_⟩, ⟨hsize, fun y hy => ?_⟩, hfree,
    fun y => (hsame y).1⟩
  · exact hlinks ▸ h.lists.unlink hl.ne_null hl.nodup
  · rw [hcount, h.count, sub32, List.length_append, List.length_append, List.length_cons]
    omega
  · rw [htotal, h.total, total_qty_congr fun y _ => (hsame y).1, sub32]
    simp only [totalQty, List.map_append, List.sum_append, List.map_cons, List.sum_cons]
    omega
  · intro y hy
    rw [(hsame y).2, h.index y (hmem y hy)]
  · intro y hy
    rw [(hsame y).1]
    exact h.qty_lt y (hmem y hy)
  · exact hget y (fun hboth => hy (List.mem_append_left m (hboth.2 ▸ hprev hboth.1)))
      fun hboth => hy (List.mem_append_right l (hboth.2 ▸ hnext hboth.1))

/-- A smaller quantity at one node, in the node and in the level. -/
theorem reduce_spec (h : Queue p lvl i (l ++ x :: m)) (hl : Nodes p (l ++ x :: m))
    (hq : q ≤ (p.get x).qty) :
    Queue (p.write x fun o => { o with qty := sub32 o.qty q })
      { lvl with totalQty := sub32 lvl.totalQty q } i (l ++ x :: m) := by
  have hx := hl.lt_size x (by simp)
  have hqx := h.qty_lt x (by simp)
  have hget := get_write (f := fun o => { o with qty := sub32 o.qty q }) hx
  have hxl : x ∉ l := fun hin => (List.nodup_append.mp hl.nodup).2.2 x hin x List.mem_cons_self rfl
  have hxm : x ∉ m := (List.nodup_cons.mp (List.nodup_append.mp hl.nodup).2.1).1
  refine ⟨?_, h.count, ?_, fun y hy => ?_, fun y hy => ?_⟩
  · refine h.lists.congr rfl rfl (fun y _ => ?_) fun y _ => ?_ <;>
      simp only [links, hget] <;> split <;> rfl
  · -- Only the summand of the node changes in the total.
    have hrest : ∀ k, x ∉ k → (p.write x fun o => { o with qty := sub32 o.qty q }).totalQty k =
        p.totalQty k := fun k hk => total_qty_congr fun y hy => by
          rw [hget, if_neg (ne_of_mem_of_not_mem hy hk)]
    have htotal := h.total
    have hsplit : ∀ p : OrderPool, p.totalQty (l ++ x :: m) =
        p.totalQty l + ((p.get x).qty + p.totalQty m) := by
      intro p
      simp only [totalQty, List.map_append, List.sum_append, List.map_cons, List.sum_cons]
    rw [hsplit] at htotal
    simp only
    rw [hsplit, hrest l hxl, hrest m hxm, hget, if_pos rfl, htotal]
    simp only [sub32]
    omega
  · rw [hget]
    split <;> exact h.index y hy
  · rw [hget]
    split
    · exact Nat.mod_lt _ (by decide)
    · exact h.qty_lt y hy

end Queue

end FeedHandler.V3
