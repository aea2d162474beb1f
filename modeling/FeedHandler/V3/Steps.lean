import FeedHandler.V3.StoreInvariant

/-!
# What a message does to the store

`Effect` lists once what a message can do to the store and its lists, and `step_spec` says that
every message to a store that satisfies the invariant has one of these effects and keeps the
invariant. Results about runs are derived from it.
-/

namespace FeedHandler.V3

open Itch OrderBook OrderPool Slots

/-- The effect of a message to the book `b` of `locate`. -/
inductive Effect (locate : Nat) (s : Shared) (b : OrderBook) (lists : Lists) :
    Message → Shared → OrderBook → Lists → Prop
  /-- The reference is not in the table. -/
  | ignored {m : Message} {ref : Nat} (hm : m.target = some ref)
      (hname : s.refs.lookup ref = none) : Effect locate s b lists m s b lists
  /-- The pool has no free node. -/
  | dropped {m : AddOrder} (hfree : lists none = []) :
      Effect locate s b lists (.addOrder m) s b lists
  /-- A new order. -/
  | placed {m : AddOrder} {x i : Nat} {rest : List Nat} {s' : Shared} {b' : OrderBook}
      (hfree : lists none = x :: rest)
      (hplaced :
        Placed s s' b b' x i m.orderRef.toNat m.price.toNat m.shares.toNat (isBid m.side)) :
      Effect locate s b lists (.addOrder m) s' b'
        (move lists none (some (locate, i)) rest (lists (some (locate, i)) ++ [x]))
  /-- Less than the remaining quantity is taken. -/
  | reduced {m : Message} {ref qty x i : Nat} {s' : Shared} {b' : OrderBook}
      (hm : m.target = some ref) (hqty : m.taken = some qty) (hname : s.refs.lookup ref = some x)
      (hx : x ∈ lists (some (locate, i))) (hlt : qty < (s.pool.get x).qty)
      (hcodes : ∀ bid price, b'.levelOf bid price = b.levelOf bid price)
      (hlevels : b'.levels.size = b.levels.size)
      (hleft : (s'.pool.get x).qty = (s.pool.get x).qty - qty)
      (hother : ∀ y, y ≠ x → (s'.pool.get y).qty = (s.pool.get y).qty)
      (hrefs : s'.refs = s.refs) : Effect locate s b lists m s' b' lists
  /-- The order is deleted, or all of it is taken. -/
  | removed {m : Message} {ref x i : Nat} {l k : List Nat} {s' : Shared} {b' : OrderBook}
      (hm : m.target = some ref) (hname : s.refs.lookup ref = some x)
      (hall : (∃ d, m = .orderDelete d) ∨ ∃ qty, m.taken = some qty ∧ (s.pool.get x).qty ≤ qty)
      (hlist : lists (some (locate, i)) = l ++ x :: k) (hremoved : Removed s s' b b' ref) :
      Effect locate s b lists m s' b'
        (move lists (some (locate, i)) none (l ++ k) (x :: lists none))
  /-- The order is removed, and its node taken again for the new one. -/
  | replaced {m : OrderReplace} {x i j : Nat} {c : UInt8} {l k : List Nat} {s₁ s' : Shared}
      {b₁ b' : OrderBook} {lists₁ : Lists} (hname : s.refs.lookup m.originalOrderRef.toNat = some x)
      (hlist : lists (some (locate, i)) = l ++ x :: k) (hside : b.sideOf i = some c)
      (hremoved : Removed s s₁ b b₁ m.originalOrderRef.toNat)
      (hlists : lists₁ = move lists (some (locate, i)) none (l ++ k) (x :: lists none))
      (hexact : b₁.levels.size ≤ 2 ^ 31 → BookExact b₁ fun i => lists₁ (some (locate, i)))
      (hplaced : Placed s₁ s' b₁ b' x j m.newOrderRef.toNat m.price.toNat m.shares.toNat
        (isBid c)) :
      Effect locate s b lists (.orderReplace m) s' b'
        (move lists₁ none (some (locate, j)) (lists none) (lists₁ (some (locate, j)) ++ [x]))

/-- A message adds one level at most. -/
theorem Effect.levels_le {locate : Nat} {s s' : Shared} {b b' : OrderBook} {lists lists' : Lists}
    {m : Message} (h : Effect locate s b lists m s' b' lists') :
    b'.levels.size ≤ b.levels.size + 1 := by
  cases h with
  | ignored => omega
  | dropped => omega
  | placed _ hplaced => exact hplaced.levels_le
  | reduced _ _ _ _ _ _ hlevels => omega
  | removed _ _ _ _ hremoved => exact hremoved.levels_eq.trans_le (Nat.le_succ _)
  | replaced _ _ _ hremoved _ _ hplaced => exact hremoved.levels_eq ▸ hplaced.levels_le

/-- The effect of an addition. -/
theorem Effect.add_cases {locate : Nat} {s s' : Shared} {b b' : OrderBook} {lists lists' : Lists}
    {m : AddOrder} (h : Effect locate s b lists (.addOrder m) s' b' lists') :
    (lists none = [] ∧ s' = s ∧ b' = b ∧ lists' = lists) ∨
      ∃ x i rest, lists none = x :: rest ∧
        Placed s s' b b' x i m.orderRef.toNat m.price.toNat m.shares.toNat (isBid m.side) ∧
        lists' = move lists none (some (locate, i)) rest (lists (some (locate, i)) ++ [x]) := by
  cases h with
  | ignored hm => cases hm
  | dropped hfree => exact .inl ⟨hfree, rfl, rfl, rfl⟩
  | placed hfree hplaced => exact .inr ⟨_, _, _, hfree, hplaced, rfl⟩
  | reduced hm => cases hm
  | removed hm => cases hm

/-- The effect of a replacement of an order that the table knows. -/
theorem Effect.replace_cases {locate x : Nat} {s s' : Shared} {b b' : OrderBook}
    {lists lists' : Lists} {m : OrderReplace}
    (h : Effect locate s b lists (.orderReplace m) s' b' lists')
    (hname : s.refs.lookup m.originalOrderRef.toNat = some x) :
    ∃ i j c l k s₁ b₁ lists₁, lists (some (locate, i)) = l ++ x :: k ∧ b.sideOf i = some c ∧
      Removed s s₁ b b₁ m.originalOrderRef.toNat ∧
      lists₁ = move lists (some (locate, i)) none (l ++ k) (x :: lists none) ∧
      Placed s₁ s' b₁ b' x j m.newOrderRef.toNat m.price.toNat m.shares.toNat (isBid c) ∧
      lists' = move lists₁ none (some (locate, j)) (lists none) (lists₁ (some (locate, j)) ++ [x])
    := by
  cases h with
  | ignored hm hnone =>
      cases hm
      rw [hnone] at hname
      cases hname
  | reduced _ hqty => cases hqty
  | removed _ _ hall =>
      rcases hall with ⟨_, hdelete⟩ | ⟨_, hqty, _⟩
      · cases hdelete
      · cases hqty
  | replaced hname' hlist hside hremoved hlists _ hplaced =>
      obtain rfl := Option.some.inj (hname'.symm.trans hname)
      exact ⟨_, _, _, _, _, _, _, _, hlist, hside, hremoved, hlists, hplaced, rfl⟩

/-- The conditions of a message: no reference is the empty key, and the references it names are not
in another book. -/
structure Admitted (s : Store) (lists : Lists) (m : Message) : Prop where
  keys : ∀ ref ∈ m.refs, ref ≠ kEmpty
  own : ∀ ref ∈ m.refs, ∀ x locate i, s.refs.lookup ref = some x →
    x ∈ lists (some (locate, i)) → locate = m.stockLocate

section Handlers

variable {hash : Nat → Nat} {capacity : Nat} {s : Store} {lists : Lists} {m : Message}

/-- Where the table finds the order a message names. -/
theorem Admitted.located (hok : Admitted s lists m)
    (h : Inv hash capacity s.toShared s.bookOf lists)
    {ref x : Nat} (hm : m.target = some ref) (hname : s.refs.lookup ref = some x) :
    ∃ i l k, lists (some (m.stockLocate, i)) = l ++ x :: k := by
  obtain ⟨locate, i, hx⟩ := h.named ref x hname
  obtain rfl := hok.own ref (Message.target_mem hm) x locate i hname hx
  obtain ⟨l, k, hlist⟩ := List.append_of_mem hx
  exact ⟨i, l, k, hlist⟩

/-- `find` on the table of a store. -/
theorem find_eq (h : Inv hash capacity s.toShared s.bookOf lists) {ref : Nat}
    (href : ref ≠ kEmpty) :
    s.refs.find hash ref = some ((s.refs.lookup ref).getD kNullIdx) :=
  RefTable.find_spec h.refs href

/-- The effect of an execution or a cancellation. -/
theorem reduce_effect (h : Inv hash capacity s.toShared s.bookOf lists) (hok : Admitted s lists m)
    {ref qty : Nat} (hm : m.target = some ref) (hqty : m.taken = some qty) :
    ∃ s' b' lists', (s.bookOf m.stockLocate).reduceOrder hash s.toShared ref qty = some (s', b') ∧
      Inv hash capacity s' (Function.update s.bookOf m.stockLocate b') lists' ∧
      Effect m.stockLocate s.toShared (s.bookOf m.stockLocate) lists m s' b' lists' := by
  have hfind := find_eq h (hok.keys ref (Message.target_mem hm))
  cases hname : s.refs.lookup ref with
  | none =>
      rw [hname] at hfind
      refine ⟨s.toShared, s.bookOf m.stockLocate, lists, ?_, ?_, .ignored hm hname⟩
      · rw [reduceOrder, hfind]
        rfl
      · rwa [Function.update_eq_self]
  | some x =>
      obtain ⟨i, l, k, hlist⟩ := hok.located h hm hname
      have hx : x ∈ lists (some (m.stockLocate, i)) := by simp [hlist]
      have hne := (h.lt_size hx).2
      have hlt := (h.nodes hlist).lt_size x (by simp)
      rw [hname, Option.getD_some] at hfind
      by_cases hall : qty ≥ (s.pool.get x).qty
      · obtain ⟨s', b', hremove, hinv, hremoved⟩ :=
          remove_order_spec h hname hlist
        refine ⟨s', b', _, ?_, hinv, .removed hm hname (.inr ⟨qty, hqty, hall⟩) hlist hremoved⟩
        simp only [reduceOrder, hfind, hne, slots_get hlt, hall, hremove, Option.bind_eq_bind,
          Option.bind_some, if_true, if_false]
      · obtain ⟨lvl, hlvl, hinv⟩ := reduce_order_spec h hlist (Nat.le_of_lt (Nat.lt_of_not_le hall))
        have hindex : (s.pool.get x).levelIdx = i :=
          ((h.book m.stockLocate).queue i lvl hlvl).index x hx
        have hget := get_write (f := fun o => { o with qty := sub32 o.qty qty }) hlt
        have hbound := ((h.book m.stockLocate).queue i lvl hlvl).qty_lt x hx
        refine ⟨_, _, lists, ?_, hinv, .reduced hm hqty hname hx (Nat.lt_of_not_le hall)
          (fun _ _ => rfl) (by simp) ?_ (fun y hy => ?_) rfl⟩
        · simp only [reduceOrder, hfind, hne, slots_get hlt, hall, hindex, hlvl,
            modify_eq_write hlt, Option.bind_eq_bind, Option.bind_some, if_false]
          rfl
        · refine (congrArg PooledOrder.qty (hget x)).trans ?_
          rw [if_pos rfl]
          simp only [sub32]
          omega
        · refine (congrArg PooledOrder.qty (hget y)).trans ?_
          rw [if_neg hy]

/-- The effect of a deletion. -/
theorem delete_effect {m : OrderDelete} (h : Inv hash capacity s.toShared s.bookOf lists)
    (hok : Admitted s lists (.orderDelete m)) :
    ∃ s' b' lists', (s.bookOf m.stockLocate.toNat).deleteOrder hash s.toShared m = some (s', b') ∧
      Inv hash capacity s' (Function.update s.bookOf m.stockLocate.toNat b') lists' ∧
      Effect m.stockLocate.toNat s.toShared (s.bookOf m.stockLocate.toNat) lists (.orderDelete m)
        s' b' lists' := by
  have hm : Message.target (.orderDelete m) = some m.orderRef.toNat := rfl
  have hfind := find_eq h (hok.keys _ (Message.target_mem hm))
  cases hname : s.refs.lookup m.orderRef.toNat with
  | none =>
      rw [hname] at hfind
      refine ⟨s.toShared, s.bookOf m.stockLocate.toNat, lists, ?_, ?_, .ignored hm hname⟩
      · rw [deleteOrder, hfind]
        rfl
      · rwa [Function.update_eq_self]
  | some x =>
      obtain ⟨i, l, k, hlist⟩ := hok.located h hm hname
      have hx : x ∈ lists (some (m.stockLocate.toNat, i)) :=
        hlist ▸ List.mem_append_right l List.mem_cons_self
      have hne := (h.lt_size hx).2
      rw [hname, Option.getD_some] at hfind
      obtain ⟨s', b', hremove, hinv, hremoved⟩ :=
        remove_order_spec h hname hlist
      refine ⟨s', b', _, ?_, hinv, .removed hm hname (.inl ⟨m, rfl⟩) hlist hremoved⟩
      simp only [deleteOrder, hfind, hne, Option.bind_eq_bind, Option.bind_some, if_false]
      exact hremove

/-- The effect of an addition. -/
theorem add_effect {m : AddOrder} (h : Inv hash capacity s.toShared s.bookOf lists)
    (hok : Admitted s lists (.addOrder m)) :
    ∃ s' b' lists', (s.bookOf m.stockLocate.toNat).addOrder hash s.toShared m = some (s', b') ∧
      Inv hash capacity s' (Function.update s.bookOf m.stockLocate.toNat b') lists' ∧
      Effect m.stockLocate.toNat s.toShared (s.bookOf m.stockLocate.toNat) lists (.addOrder m)
        s' b' lists' := by
  have href : m.orderRef.toNat ≠ kEmpty := hok.keys _ (by simp [Message.refs])
  cases hfree : lists none with
  | nil =>
      refine ⟨s.toShared, s.bookOf m.stockLocate.toNat, lists, place_exhausted h hfree _, ?_,
        .dropped hfree⟩
      rwa [Function.update_eq_self]
  | cons x rest =>
      obtain ⟨s', b', i, hplace, hinv, hplaced⟩ := place_spec m.side h href m.price.toNat_lt
        m.shares.toNat_lt hfree
      exact ⟨s', b', _, hplace, hinv, .placed hfree hplaced⟩

/-- The effect of a replacement. -/
theorem replace_effect {m : OrderReplace} (h : Inv hash capacity s.toShared s.bookOf lists)
    (hok : Admitted s lists (.orderReplace m)) :
    ∃ s' b' lists', (s.bookOf m.stockLocate.toNat).replaceOrder hash s.toShared m = some (s', b') ∧
      Inv hash capacity s' (Function.update s.bookOf m.stockLocate.toNat b') lists' ∧
      Effect m.stockLocate.toNat s.toShared (s.bookOf m.stockLocate.toNat) lists (.orderReplace m)
        s' b' lists' := by
  have hm : Message.target (.orderReplace m) = some m.originalOrderRef.toNat := rfl
  have hfind := find_eq h (hok.keys _ (Message.target_mem hm))
  have hnew : m.newOrderRef.toNat ≠ kEmpty := hok.keys _ (by simp [Message.refs])
  cases hname : s.refs.lookup m.originalOrderRef.toNat with
  | none =>
      rw [hname] at hfind
      refine ⟨s.toShared, s.bookOf m.stockLocate.toNat, lists, ?_, ?_, .ignored hm hname⟩
      · rw [replaceOrder, hfind]
        rfl
      · rwa [Function.update_eq_self]
  | some x =>
      obtain ⟨i, l, k, hlist⟩ := hok.located h hm hname
      have hlist : lists (some (m.stockLocate.toNat, i)) = l ++ x :: k := hlist
      have hx : x ∈ lists (some (m.stockLocate.toNat, i)) :=
        hlist ▸ List.mem_append_right l List.mem_cons_self
      have hne := (h.lt_size hx).2
      have hbook := h.book m.stockLocate.toNat
      have hlt := hbook.lt_size (List.ne_nil_of_mem hx)
      obtain ⟨c, hside⟩ := hbook.sized.side_of hlt
      -- The code reads the level of the old order off its slot, and the side off the level.
      have hindex : (s.pool.get x).levelIdx = i :=
        (hbook.queue i _ (Array.getElem?_eq_getElem hlt)).index x hx
      have hslot := slots_get ((h.nodes hlist).lt_size x (by simp))
      rw [hname, Option.getD_some] at hfind
      obtain ⟨s₁, b₁, hremove, hinv₁, hremoved⟩ :=
        remove_order_spec h hname hlist
      have hexact := hinv₁.exact m.stockLocate.toNat
      rw [Function.update_self] at hexact
      obtain ⟨s', b', j, hplace, hinv, hplaced⟩ := place_spec c hinv₁ hnew m.price.toNat_lt
        m.shares.toNat_lt move_dst
      rw [Function.update_self] at hplace hplaced
      rw [Function.update_idem] at hinv
      refine ⟨s', b', _, ?_, hinv, .replaced hname hlist hside hremoved rfl hexact hplaced⟩
      simp only [replaceOrder, hfind, hne, hslot, hindex, hside, hremove, Option.bind_eq_bind,
        Option.bind_some, if_false]
      exact hplace

/-- Every admitted message has its effect and keeps the invariant. -/
theorem step_spec (h : Inv hash capacity s.toShared s.bookOf lists) (hok : Admitted s lists m) :
    ∃ s' lists', s.step hash m = some s' ∧ Inv hash capacity s'.toShared s'.bookOf lists' ∧
      s'.bookOf = Function.update s.bookOf m.stockLocate (s'.bookOf m.stockLocate) ∧
      Effect m.stockLocate s.toShared (s.bookOf m.stockLocate) lists m s'.toShared
        (s'.bookOf m.stockLocate) lists' := by
  obtain ⟨sh, b, lists', happly, hinv, heffect⟩ : ∃ sh b lists',
      (s.bookOf m.stockLocate).apply hash s.toShared m = some (sh, b) ∧
      Inv hash capacity sh (Function.update s.bookOf m.stockLocate b) lists' ∧
      Effect m.stockLocate s.toShared (s.bookOf m.stockLocate) lists m sh b lists' := by
    cases m with
    | addOrder m => exact add_effect h hok
    | orderExecuted m => exact reduce_effect h hok rfl rfl
    | orderCancel m => exact reduce_effect h hok rfl rfl
    | orderDelete m => exact delete_effect h hok
    | orderReplace m => exact replace_effect h hok
  have hbooks := s.book_of_assign sh m.stockLocate b
  refine ⟨⟨sh, s.books.assign m.stockLocate b⟩, lists', ?_, hbooks ▸ hinv, ?_, ?_⟩
  · rw [Store.step, happly]
    rfl
  · rw [hbooks, Function.update_self]
  · rw [hbooks, Function.update_self]
    exact heffect

end Handlers

end FeedHandler.V3
