import FeedHandler.Book.TopOfBook
import FeedHandler.V1.OrderBook

/-!
# The v1 book follows the orders

`Inv` is the invariant of a v1 book: no level is empty, every list node has contents, and every
locator points to the node of its reference. `step_spec` says that every message keeps it and that
the book moves like an order book, as long as no execution or cancellation takes more shares than
remain.
-/

namespace FeedHandler.V1

open Itch Book

namespace OrderBook

/-- The nodes of a level. -/
def queue (b : OrderBook) (bid : Bool) (price : Nat) : List Nat :=
  ((b.levels bid).find? price).getD []

/-- What can be seen of a v1 book. -/
def view (b : OrderBook) : View Nat where
  queue := b.queue
  shares x := ((b.nodes.find? x).map fun o => o.shares.toNat).getD 0
  named ref := (b.refIndex.find? ref).map OrderLocator.it

/-- The live orders of a v1 book: what the index and the nodes say about each reference. -/
def live (b : OrderBook) : Set Order :=
  {o | ∃ ref loc node, b.refIndex.find? ref = some loc ∧ b.nodes.find? loc.it = some node ∧
    o = ⟨some ref, isBid loc.side, loc.price.toNat, node.shares.toNat⟩}

/-- The invariant of a v1 book. -/
structure Inv (b : OrderBook) : Prop where
  nonempty : ∀ bid price l, (b.levels bid).find? price = some l → l ≠ []
  nodup : ∀ bid price, (b.queue bid price).Nodup
  disjoint : ∀ bid price bid' price' x, x ∈ b.queue bid price → x ∈ b.queue bid' price' →
    bid = bid' ∧ price = price'
  stored : ∀ bid price x, x ∈ b.queue bid price → ∃ o, b.nodes.find? x = some o
  lt : ∀ bid price x, x ∈ b.queue bid price → x < b.nextNode
  located : ∀ ref loc, b.refIndex.find? ref = some loc →
    loc.it ∈ b.queue (isBid loc.side) loc.price.toNat
  index_inj : ∀ ref ref' loc loc', b.refIndex.find? ref = some loc →
    b.refIndex.find? ref' = some loc' → loc.it = loc'.it → ref = ref'

section Levels

variable {b : OrderBook} {bid : Bool} {levels : OrderedMap Nat (List Nat)}

theorem levels_set_levels (b : OrderBook) (bid bid' : Bool) (levels : OrderedMap Nat (List Nat)) :
    (b.setLevels bid levels).levels bid' = if bid' = bid then levels else b.levels bid' := by
  cases bid <;> cases bid' <;> rfl

theorem queue_eq_nil_iff (h : b.Inv) {price : Nat} :
    b.queue bid price = [] ↔ (b.levels bid).find? price = none := by
  rw [queue]
  cases hl : (b.levels bid).find? price with
  | none => simp
  | some l => simpa using h.nonempty bid price l hl

/-- The level of a node. -/
theorem find_of_mem_queue {price x : Nat} (hx : x ∈ b.queue bid price) :
    (b.levels bid).find? price = some (b.queue bid price) := by
  unfold queue at hx ⊢
  cases hl : (b.levels bid).find? price with
  | none => simp [hl] at hx
  | some l => rfl

end Levels

section Operations

variable {b : OrderBook} {ref : UInt64} {loc : OrderLocator}

theorem inv_new : new.Inv := by
  have hqueue : ∀ bid price, new.queue bid price = [] := by
    intro bid price
    cases bid <;> rfl
  refine ⟨fun bid price l hl => ?_, fun bid price => ?_, fun bid price _ _ x hx => ?_,
    fun bid price x hx => ?_, fun bid price x hx => ?_, fun ref loc hloc => ?_,
    fun ref _ loc _ hloc => ?_⟩
  · cases bid <;> cases hl
  · rw [hqueue]
    exact List.nodup_nil
  · rw [hqueue] at hx
    cases hx
  · rw [hqueue] at hx
    cases hx
  · rw [hqueue] at hx
    cases hx
  · cases hloc
  · cases hloc

theorem nodes_push_order (b : OrderBook) (o : RestingOrder) :
    (b.pushOrder o).nodes = b.nodes.assign b.nextNode o := by
  unfold pushOrder setLevels
  cases isBid o.side <;> rfl

theorem ref_index_push_order (b : OrderBook) (o : RestingOrder) :
    (b.pushOrder o).refIndex = b.refIndex.assign o.ref.toNat ⟨o.side, o.price, b.nextNode⟩ := by
  unfold pushOrder setLevels
  cases isBid o.side <;> rfl

/-- The levels after a push. -/
theorem find_push_order (b : OrderBook) (o : RestingOrder) (bid : Bool) (price : Nat) :
    ((b.pushOrder o).levels bid).find? price =
      if bid = isBid o.side ∧ price = o.price.toNat then some (b.queue bid price ++ [b.nextNode])
      else (b.levels bid).find? price := by
  have hlevels : (b.pushOrder o).levels bid = (b.setLevels (isBid o.side)
      ((b.levels (isBid o.side)).assign o.price.toNat
        (b.queue (isBid o.side) o.price.toNat ++ [b.nextNode]))).levels bid := by
    cases bid <;> rfl
  rw [hlevels, levels_set_levels]
  by_cases hbid : bid = isBid o.side
  · subst hbid
    rw [if_pos rfl, OrderedMap.find_assign]
    by_cases hprice : price = o.price.toNat
    · subst hprice
      simp
    · simp [hprice]
  · simp [hbid]

theorem queue_push_order (b : OrderBook) (o : RestingOrder) (bid : Bool) (price : Nat) :
    (b.pushOrder o).queue bid price =
      if bid = isBid o.side ∧ price = o.price.toNat then b.queue bid price ++ [b.nextNode]
      else b.queue bid price := by
  rw [queue, find_push_order]
  split <;> rfl

theorem mem_queue_push_order (b : OrderBook) (o : RestingOrder) (bid : Bool) (price x : Nat) :
    x ∈ (b.pushOrder o).queue bid price ↔
      x ∈ b.queue bid price ∨ (x = b.nextNode ∧ bid = isBid o.side ∧ price = o.price.toNat) := by
  rw [queue_push_order]
  split <;> simp [*]

/-- The next node is on no level. -/
theorem Inv.fresh (h : b.Inv) (bid : Bool) (price : Nat) : b.nextNode ∉ b.queue bid price :=
  fun hx => Nat.lt_irrefl _ (h.lt bid price _ hx)

/-- A push keeps the invariant: the fresh node is on one level and the index names it once. -/
theorem Inv.push_order (h : b.Inv) (o : RestingOrder) : (b.pushOrder o).Inv where
  nonempty := by
    intro bid price l hl
    rw [find_push_order] at hl
    split at hl
    next =>
      cases hl
      simp
    next => exact h.nonempty bid price l hl
  nodup := by
    intro bid price
    rw [queue_push_order]
    split
    next =>
      refine List.nodup_append.mpr ⟨h.nodup bid price, List.nodup_singleton _, ?_⟩
      intro x hx y hy hsame
      subst hsame
      exact h.fresh bid price (List.mem_singleton.mp hy ▸ hx)
    next => exact h.nodup bid price
  disjoint := by
    intro bid price bid' price' x hx hx'
    rcases (b.mem_queue_push_order o bid price x).mp hx with hx | ⟨rfl, rfl, rfl⟩ <;>
      rcases (b.mem_queue_push_order o bid' price' _).mp hx' with hx' | ⟨heq, rfl, rfl⟩
    · exact h.disjoint bid price bid' price' x hx hx'
    · exact absurd (heq ▸ hx) (h.fresh bid price)
    · exact absurd hx' (h.fresh bid' price')
    · exact ⟨rfl, rfl⟩
  stored := by
    intro bid price x hx
    rw [nodes_push_order, OrderedMap.find_assign]
    rcases (b.mem_queue_push_order o bid price x).mp hx with hx | ⟨rfl, _⟩
    · split
      next => exact ⟨o, rfl⟩
      next => exact h.stored bid price x hx
    · exact ⟨o, if_pos rfl⟩
  lt := by
    intro bid price x hx
    show x < b.nextNode + 1
    rcases (b.mem_queue_push_order o bid price x).mp hx with hx | ⟨rfl, _⟩
    · exact Nat.lt_succ_of_lt (h.lt bid price x hx)
    · exact Nat.lt_succ_self _
  located := by
    intro r loc hloc
    rw [ref_index_push_order, OrderedMap.find_assign] at hloc
    split at hloc
    next =>
      cases hloc
      exact (b.mem_queue_push_order o _ _ _).mpr (.inr ⟨rfl, rfl, rfl⟩)
    next => exact (b.mem_queue_push_order o _ _ _).mpr (.inl (h.located r loc hloc))
  index_inj := by
    intro r r' loc loc' hloc hloc' heq
    rw [ref_index_push_order, OrderedMap.find_assign] at hloc hloc'
    split at hloc <;> split at hloc'
    next hr hr' => exact hr.trans hr'.symm
    next =>
      cases hloc
      have hx := h.located r' loc' hloc'
      exact absurd (heq ▸ hx) (h.fresh _ _)
    next =>
      cases hloc'
      have hx := h.located r loc hloc
      exact absurd (heq ▸ hx) (h.fresh _ _)
    next => exact h.index_inj r r' loc loc' hloc hloc' heq

/-- A push adds a node. -/
theorem push_order_spec (h : b.Inv) (o : RestingOrder) :
    (b.pushOrder o).Inv ∧ b.view.Added (b.pushOrder o).view b.nextNode o.ref.toNat (isBid o.side)
      o.price.toNat o.shares.toNat := by
  have hnodes := b.nodes_push_order o
  have hindex := b.ref_index_push_order o
  refine ⟨h.push_order o, ⟨h.fresh, b.queue_push_order o, ?_, ?_, ?_, ?_⟩⟩
  · simp [view, hnodes]
  · intro y hy
    simp [view, hnodes, OrderedMap.find_assign, hy]
  · simp [view, hindex]
  · intro r hr
    simp [view, hindex, OrderedMap.find_assign, hr]

/-- A level without a node that stands on another one. -/
theorem Inv.filter_queue (h : b.Inv) {bid bid' : Bool} {price price' x : Nat}
    (hx : x ∈ b.queue bid price) (hne : ¬ (bid' = bid ∧ price' = price)) :
    (b.queue bid' price').filter (· ≠ x) = b.queue bid' price' := by
  refine List.filter_eq_self.mpr fun y hy => ?_
  rw [decide_eq_true_iff]
  intro hsame
  subst hsame
  exact hne (h.disjoint _ _ _ _ _ hy hx)

/-- The level of a node without the node. -/
theorem Inv.erase_queue (h : b.Inv) (bid : Bool) (price x : Nat) :
    (b.queue bid price).erase x = (b.queue bid price).filter (· ≠ x) := by
  rw [(h.nodup bid price).erase_eq_filter]
  exact List.filter_congr fun y _ => Bool.eq_iff_iff.mpr (by simp)

/-- `remove_locator` rewrites the map of one side, where it drops a level that became empty. -/
theorem remove_locator_eq {level : List Nat}
    (hfind : (b.levels (isBid loc.side)).find? loc.price.toNat = some level)
    (hmem : loc.it ∈ level) :
    ∃ levels : OrderedMap Nat (List Nat),
      b.removeLocator loc =
        some ({ b with nodes := b.nodes.erase loc.it }.setLevels (isBid loc.side) levels) ∧
      ∀ price, levels.find? price = if price = loc.price.toNat then
        if level.erase loc.it = [] then none else some (level.erase loc.it)
        else (b.levels (isBid loc.side)).find? price := by
  simp only [removeLocator, hfind, if_pos hmem, Option.bind_eq_bind, Option.bind_some,
    List.isEmpty_iff]
  by_cases hempty : level.erase loc.it = []
  · refine ⟨(b.levels (isBid loc.side)).erase loc.price.toNat, by rw [if_pos hempty]; rfl,
      fun price => ?_⟩
    rw [if_pos hempty, OrderedMap.find_erase]
  · refine ⟨(b.levels (isBid loc.side)).assign loc.price.toNat (level.erase loc.it),
      by rw [if_neg hempty]; rfl, fun price => ?_⟩
    rw [if_neg hempty, OrderedMap.find_assign]

/-- The levels after a removal. -/
theorem remove_locator_spec (h : b.Inv) (hloc : b.refIndex.find? ref.toNat = some loc) :
    ∃ b', b.removeLocator loc = some b' ∧ b'.nodes = b.nodes.erase loc.it ∧
      b'.refIndex = b.refIndex ∧ b'.nextNode = b.nextNode ∧
      (∀ bid price, b'.queue bid price = (b.queue bid price).filter (· ≠ loc.it)) ∧
      ∀ bid price l, (b'.levels bid).find? price = some l → l ≠ [] := by
  have hmem := h.located ref.toNat loc hloc
  obtain ⟨levels, hremove, hlevels⟩ := remove_locator_eq (find_of_mem_queue hmem) hmem
  rw [h.erase_queue] at hlevels
  have hfind : ∀ bid price, (({ b with nodes := b.nodes.erase loc.it }.setLevels (isBid loc.side)
      levels).levels bid).find? price = if bid = isBid loc.side ∧ price = loc.price.toNat then
        if (b.queue bid price).filter (· ≠ loc.it) = [] then none
        else some ((b.queue bid price).filter (· ≠ loc.it))
        else (b.levels bid).find? price := by
    intro bid price
    rw [levels_set_levels]
    by_cases hbid : bid = isBid loc.side
    · subst hbid
      rw [if_pos rfl, hlevels]
      by_cases hprice : price = loc.price.toNat
      · subst hprice
        simp only [if_true, and_self]
      · simp only [hprice, if_false, and_false]
    · simp only [hbid, if_false, false_and]
      rfl
  refine ⟨_, hremove, ?_, ?_, ?_, fun bid price => ?_, fun bid price l hl => ?_⟩
  · unfold setLevels
    split <;> rfl
  · unfold setLevels
    split <;> rfl
  · unfold setLevels
    split <;> rfl
  · rw [queue, hfind]
    split
    next =>
      split
      next hempty => exact hempty.symm
      next => rfl
    next hne => exact (h.filter_queue hmem hne).symm
  · rw [hfind] at hl
    split at hl
    next =>
      split at hl
      next => cases hl
      next hne =>
        cases hl
        exact hne
    next => exact h.nonempty bid price l hl

/-- A removal removes the node of the reference. -/
theorem remove_order_spec (h : b.Inv) (hloc : b.refIndex.find? ref.toNat = some loc) :
    ∃ b', b.removeOrder ref loc = some b' ∧ b'.Inv ∧
      b.view.Removed b'.view ref.toNat loc.it := by
  obtain ⟨b₁, hremove, hnodes, hindex, hnext, hqueue, hnonempty⟩ := remove_locator_spec h hloc
  obtain ⟨b', hb'⟩ : ∃ b' : OrderBook, { b₁ with refIndex := b₁.refIndex.erase ref.toNat } = b' :=
    ⟨_, rfl⟩
  have hqueue' : ∀ bid price, b'.queue bid price = (b.queue bid price).filter (· ≠ loc.it) := by
    subst hb'
    exact hqueue
  have hindex' : b'.refIndex = b.refIndex.erase ref.toNat := by rw [← hb', ← hindex]
  have hnodes' : b'.nodes = b.nodes.erase loc.it := by rw [← hb', ← hnodes]
  have hmem : ∀ bid price x, x ∈ b'.queue bid price ↔ x ∈ b.queue bid price ∧ x ≠ loc.it := by
    intro bid price x
    rw [hqueue', List.mem_filter, decide_eq_true_iff]
  have hinv : b'.Inv :=
    { nonempty := hb' ▸ hnonempty
      nodup := fun bid price => hqueue' bid price ▸ (h.nodup bid price).filter _
      disjoint := fun bid price bid' price' x hx hx' =>
        h.disjoint bid price bid' price' x ((hmem _ _ _).mp hx).1 ((hmem _ _ _).mp hx').1
      stored := ?stored
      lt := ?lt
      located := ?located
      index_inj := ?index_inj }
  case stored =>
    intro bid price x hx
    obtain ⟨hx, hne⟩ := (hmem _ _ _).mp hx
    rw [hnodes', OrderedMap.find_erase, if_neg hne]
    exact h.stored bid price x hx
  case lt =>
    intro bid price x hx
    rw [← hb']
    exact hnext.symm ▸ h.lt bid price x ((hmem _ _ _).mp hx).1
  case located =>
    intro r loc' hloc'
    rw [hindex', OrderedMap.find_erase] at hloc'
    split at hloc'
    next => cases hloc'
    next hr =>
      -- Another reference cannot point to the removed node.
      exact (hmem _ _ _).mpr ⟨h.located r loc' hloc', fun heq =>
        hr (h.index_inj r ref.toNat loc' loc hloc' hloc heq)⟩
  case index_inj =>
    intro r r' loc₁ loc₂ hloc₁ hloc₂ heq
    rw [hindex', OrderedMap.find_erase] at hloc₁ hloc₂
    split at hloc₁ <;> split at hloc₂
    next => cases hloc₁
    next => cases hloc₁
    next => cases hloc₂
    next => exact h.index_inj r r' loc₁ loc₂ hloc₁ hloc₂ heq
  refine ⟨b', by rw [removeOrder, hremove, ← hb']; rfl, hinv, ⟨?_, hqueue', ?_, ?_, ?_⟩⟩
  · simp [view, hloc]
  · intro y hy
    simp [view, hnodes', OrderedMap.find_erase, hy]
  · simp [view, hindex']
  · intro r hr
    simp [view, hindex', OrderedMap.find_erase, hr]

/-- Writing the contents of a node. -/
theorem write_node_spec (h : b.Inv) (it : Nat) (o : RestingOrder) :
    { b with nodes := b.nodes.assign it o }.Inv where
  nonempty := h.nonempty
  nodup := h.nodup
  disjoint := h.disjoint
  stored bid price x hx := by
    rw [OrderedMap.find_assign]
    split
    next => exact ⟨o, rfl⟩
    next => exact h.stored bid price x hx
  lt := h.lt
  located := h.located
  index_inj := h.index_inj

/-- The contents of a node that a locator points to. -/
theorem Inv.node (h : b.Inv) (hloc : b.refIndex.find? ref.toNat = some loc) :
    ∃ o, b.nodes.find? loc.it = some o :=
  h.stored _ _ _ (h.located _ _ hloc)

/-- An execution or a cancellation. -/
theorem reduce_order_spec (h : b.Inv) {m : Message} {shares : UInt32}
    (hm : m.target = some ref.toNat) (hqty : m.taken = some shares.toNat) :
    ∃ b', b.reduceOrder ref shares = some b' ∧ b'.Inv ∧
      ((∀ x, b.view.named ref.toNat = some x → shares.toNat ≤ b.view.shares x) →
        b.view.Moves b'.view m) := by
  cases hloc : b.refIndex.find? ref.toNat with
  | none =>
      refine ⟨b, by simp only [reduceOrder, hloc], h, fun _ => .ignored hm ?_
        ⟨rfl, fun _ _ _ _ => rfl, rfl⟩⟩
      simp [view, hloc]
  | some loc =>
      obtain ⟨o, ho⟩ := h.node hloc
      have hname : b.view.named ref.toNat = some loc.it := by simp [view, hloc]
      have hshares : b.view.shares loc.it = o.shares.toNat := by simp [view, ho]
      obtain ⟨left, hleft⟩ : ∃ left, o.shares - shares = left := ⟨_, rfl⟩
      obtain ⟨b₁, hb₁⟩ : ∃ b₁ : OrderBook,
        { b with nodes := b.nodes.assign loc.it { o with shares := left } } = b₁ := ⟨_, rfl⟩
      have hinv₁ : b₁.Inv := hb₁ ▸ write_node_spec h loc.it _
      have hloc₁ : b₁.refIndex.find? ref.toNat = some loc := hb₁ ▸ hloc
      have hself : b₁.view.shares loc.it = left.toNat := by simp [view, ← hb₁]
      have hother : ∀ y, y ≠ loc.it → b₁.view.shares y = b.view.shares y := fun y hy => by
        simp [view, ← hb₁, OrderedMap.find_assign, hy]
      have hqueue : b₁.view.queue = b.view.queue := by subst hb₁; rfl
      have hnamed : b₁.view.named = b.view.named := by subst hb₁; rfl
      -- within the remaining shares the subtraction does not wrap
      have hsub : (∀ x, b.view.named ref.toNat = some x → shares.toNat ≤ b.view.shares x) →
          shares.toNat ≤ o.shares.toNat ∧ left.toNat = o.shares.toNat - shares.toNat := by
        intro hwithin
        have hle : shares.toNat ≤ o.shares.toNat := hshares ▸ hwithin loc.it hname
        exact ⟨hle, hleft ▸ UInt32.toNat_sub_of_le _ _ (UInt32.le_iff_toNat_le.mpr hle)⟩
      have hreduce : b.reduceOrder ref shares =
          if left = 0 then b₁.removeOrder ref loc else some b₁ := by
        simp only [reduceOrder, hloc, ho, hleft, hb₁, Option.bind_eq_bind, Option.bind_some]
        rfl
      rw [hreduce]
      by_cases hzero : left = 0
      · obtain ⟨b', hb', hinv, hremoved⟩ := remove_order_spec hinv₁ hloc₁
        refine ⟨b', by rw [if_pos hzero, hb'], hinv, fun hwithin => .removed hm
          (.inr ⟨_, hqty, ?_⟩) ⟨hname, hqueue ▸ hremoved.queue_eq, fun y hy => ?_,
          hremoved.named_self, hnamed ▸ hremoved.named_other⟩⟩
        · have hsub := hsub hwithin
          rw [hzero, UInt32.toNat_zero] at hsub
          rw [hshares]
          omega
        · exact (hremoved.shares_other y hy).trans (hother y hy)
      · refine ⟨b₁, if_neg hzero, hinv₁, fun hwithin => .reduced hm hqty ?_
          ⟨hname, hqueue, ?_, hother, hnamed⟩⟩
        · have hsub := hsub hwithin
          have hpos : left.toNat ≠ 0 := fun hnil => hzero (UInt32.toNat_inj.mp hnil)
          rw [hshares]
          omega
        · rw [hself, hshares, (hsub hwithin).2]

/-- Every message keeps the invariant. The book moves like an order book if no execution or
cancellation takes more than remains. -/
theorem step_spec (h : b.Inv) (m : Message) :
    ∃ b', b.apply m = some b' ∧ b'.Inv ∧
      ((∀ ref qty x, m.target = some ref → m.taken = some qty → b.view.named ref = some x →
        qty ≤ b.view.shares x) → b.view.Moves b'.view m) := by
  cases m with
  | addOrder m =>
      obtain ⟨hinv, hadded⟩ := push_order_spec h ⟨m.orderRef, m.side, m.price, m.shares⟩
      exact ⟨_, rfl, hinv, fun _ => .added hadded⟩
  | orderExecuted m =>
      obtain ⟨b', hb', hinv, hmoves⟩ := reduce_order_spec h (m := .orderExecuted m) rfl rfl
      exact ⟨b', hb', hinv, fun hwithin => hmoves fun x => hwithin _ _ x rfl rfl⟩
  | orderCancel m =>
      obtain ⟨b', hb', hinv, hmoves⟩ := reduce_order_spec h (m := .orderCancel m) rfl rfl
      exact ⟨b', hb', hinv, fun hwithin => hmoves fun x => hwithin _ _ x rfl rfl⟩
  | orderDelete m =>
      cases hloc : b.refIndex.find? m.orderRef.toNat with
      | none =>
          refine ⟨b, by simp only [apply, deleteOrder, hloc], h, fun _ => .ignored rfl ?_
            ⟨rfl, fun _ _ _ _ => rfl, rfl⟩⟩
          simp [view, hloc]
      | some loc =>
          obtain ⟨b', hb', hinv, hremoved⟩ := remove_order_spec h hloc
          exact ⟨b', by simp only [apply, deleteOrder, hloc, hb'], hinv, fun _ =>
            .removed rfl (.inl ⟨m, rfl⟩) hremoved⟩
  | orderReplace m =>
      cases hloc : b.refIndex.find? m.originalOrderRef.toNat with
      | none =>
          refine ⟨b, by simp only [apply, replaceOrder, hloc], h, fun _ => .ignored rfl ?_
            ⟨rfl, fun _ _ _ _ => rfl, rfl⟩⟩
          simp [view, hloc]
      | some loc =>
          obtain ⟨b₁, hb₁, hinv₁, hremoved⟩ := remove_order_spec h hloc
          obtain ⟨hinv, hadded⟩ := push_order_spec hinv₁
            ⟨m.newOrderRef, loc.side, m.price, m.shares⟩
          refine ⟨_, ?_, hinv, fun _ => .replaced (h.located _ _ hloc) hremoved hadded⟩
          simp only [apply, replaceOrder, hloc, hb₁, Option.bind_eq_bind, Option.bind_some]
          rfl

/-- The live orders are those that can be seen. -/
theorem Inv.live_eq (h : b.Inv) : b.live = b.view.live := by
  ext o
  constructor
  · intro hgiven
    obtain ⟨ref, loc, node, hloc, hnode, rfl⟩ := hgiven
    exact ⟨ref, loc.it, rfl, by simp [view, hloc], h.located ref loc hloc, by simp [view, hnode]⟩
  · intro hgiven
    obtain ⟨ref, x, href, hname, hqueue, hshares⟩ := hgiven
    obtain ⟨loc, hloc, rfl⟩ := Option.map_eq_some_iff.mp hname
    obtain ⟨hbid, hprice⟩ := h.disjoint _ _ _ _ _ hqueue (h.located ref loc hloc)
    obtain ⟨node, hnode⟩ := h.stored _ _ _ hqueue
    simp only [view, hnode, Option.map_some, Option.getD_some] at hshares
    exact ⟨ref, loc, node, hloc, hnode, Order.ext href hbid hprice hshares.symm⟩

theorem mem_prices_iff (h : b.Inv) {bid : Bool} {price : Nat} :
    price ∈ prices b.queue bid ↔ ∃ l, (b.levels bid).find? price = some l :=
  (not_congr (queue_eq_nil_iff h)).trans Option.ne_none_iff_exists'

/-- The answer of `best_bid_ask`. -/
theorem best_bid_ask_spec (h : b.Inv) :
    TopOfBook (prices b.queue true) (prices b.queue false) b.bestBidAsk := by
  have hbid : Highest (prices b.queue true) (b.bids.last?.map Prod.fst) := by
    cases hlast : b.bids.last? with
    | none =>
        refine Set.eq_empty_iff_forall_notMem.mpr fun p hp => ?_
        obtain ⟨l, hl⟩ := (mem_prices_iff h).mp hp
        have hempty := List.getLast?_eq_none_iff.mp hlast
        have hmem := b.bids.mem_entries_iff.mpr hl
        rw [hempty] at hmem
        cases hmem
    | some entry =>
        obtain ⟨hfind, hmax⟩ := (b.bids.last_eq_some_iff).mp hlast
        refine ⟨(mem_prices_iff h).mpr ⟨_, hfind⟩, fun p hp => ?_⟩
        obtain ⟨l, hl⟩ := (mem_prices_iff h).mp hp
        exact hmax p l hl
  have hask : Lowest (prices b.queue false) (b.asks.first?.map Prod.fst) := by
    cases hfirst : b.asks.first? with
    | none =>
        refine Set.eq_empty_iff_forall_notMem.mpr fun p hp => ?_
        obtain ⟨l, hl⟩ := (mem_prices_iff h).mp hp
        have hempty := List.head?_eq_none_iff.mp hfirst
        have hmem := b.asks.mem_entries_iff.mpr hl
        rw [hempty] at hmem
        cases hmem
    | some entry =>
        obtain ⟨hfind, hmin⟩ := (b.asks.first_eq_some_iff).mp hfirst
        refine ⟨(mem_prices_iff h).mpr ⟨_, hfind⟩, fun p hp => ?_⟩
        obtain ⟨l, hl⟩ := (mem_prices_iff h).mp hp
        exact hmin p l hl
  have htop := top_of_book hbid hask
  have hbest : b.bestBidAsk = both (b.bids.last?.map Prod.fst) (b.asks.first?.map Prod.fst) := by
    unfold bestBidAsk
    cases b.bids.last? <;> cases b.asks.first? <;> rfl
  exact hbest ▸ htop

end Operations

end OrderBook

/-- The books of a store show the given orders. -/
def Store.Follows (t : Store) (os : Nat → Orders) : Prop :=
  ∀ locate, (t.bookOf locate).Inv ∧ (t.bookOf locate).view.Follows (os locate)

/-- The answer of `best_bid_ask` in a store that shows orders. -/
theorem Store.Follows.best {t : Store} {os : Nat → Orders} (h : t.Follows os) (locate : Nat) :
    TopOfBook {p | ∃ o ∈ os locate, o.bid = true ∧ o.price = p}
      {p | ∃ o ∈ os locate, o.bid = false ∧ o.price = p} (t.bookOf locate).bestBidAsk := by
  rw [← (h locate).2.prices_eq, ← (h locate).2.prices_eq]
  exact OrderBook.best_bid_ask_spec (h locate).1

/-- There are no orders before the first message. -/
theorem Store.follows_new : Store.Follows ∅ fun _ => [] := by
  refine fun locate => ⟨OrderBook.inv_new, View.follows_nil (fun bid price => ?_) fun ref => rfl⟩
  cases bid <;> rfl

/-- A message that takes no more than remains changes the orders of its book. -/
theorem Store.Follows.step {t : Store} {os : Nat → Orders} {m : Message} (h : t.Follows os)
    (hwithin : (os m.stockLocate).Within m) :
    ∃ t', t.step m = some t' ∧
      t'.Follows (Function.update os m.stockLocate ((os m.stockLocate).apply m)) := by
  obtain ⟨hinv, hfollows⟩ := h m.stockLocate
  obtain ⟨b', hb', hinv', hmoves⟩ := OrderBook.step_spec hinv m
  refine ⟨t.assign m.stockLocate b', by rw [Store.step, hb']; rfl, fun locate => ?_⟩
  rw [Store.book_of_assign]
  by_cases hl : locate = m.stockLocate
  · subst hl
    rw [Function.update_self, Function.update_self]
    refine ⟨hinv', hfollows.step (hmoves fun ref qty x hm hqty hname => ?_)⟩
    have hshares := hfollows.named_shares ref
    rw [hname, Option.map_some, Option.map_eq_some_iff] at hshares
    obtain ⟨o, ho, heq⟩ := hshares
    exact heq ▸ hwithin ref qty o hm hqty ho
  · rw [Function.update_of_ne hl, Function.update_of_ne hl]
    exact h locate

end FeedHandler.V1
