import FeedHandler.Book.Reference
import FeedHandler.Foundations.Runs
import FeedHandler.V1.Refinement

/-!
# The v1 book implements the reference book

`Labelled` says that every locator points to a list node with its reference, side and price.
`Implements` is what a v1 book has to do with a reference book: the same levels in the same order,
the same live references, and the right top of book. `v1_implements_reference` says that it does
after every message of a valid sequence.
-/

namespace FeedHandler.V1

open Itch Book Runs

/-- The entry that a list node stands for. -/
def RestingOrder.entry (o : RestingOrder) : Entry :=
  ⟨o.ref.toNat, isBid o.side, o.price.toNat, o.shares.toNat⟩

namespace OrderBook

/-- The entry in a list node. -/
def entryAt (b : OrderBook) (it : Nat) : Option Entry := (b.nodes.find? it).map RestingOrder.entry

/-- Locators point to nodes with their reference, side and price. -/
def Labelled (b : OrderBook) : Prop :=
  ∀ ref loc, b.refIndex.find? ref = some loc → ∃ o, b.nodes.find? loc.it = some o ∧
    o.ref.toNat = ref ∧ o.side = loc.side ∧ o.price = loc.price

/-- A v1 book does what the reference book does. -/
structure Implements (b : OrderBook) (os : Reference) : Prop where
  level : ∀ bid price l, (b.levels bid).find? price = some l →
    l.map b.entryAt = (os.level bid price).map some
  no_level : ∀ bid price, (b.levels bid).find? price = none ↔ os.level bid price = []
  nonempty : ∀ bid price l, (b.levels bid).find? price = some l → l ≠ []
  indexed : ∀ ref loc, b.refIndex.find? ref = some loc → ∃ e ∈ os, e.ref = ref ∧
    b.entryAt loc.it = some e ∧ e.bid = isBid loc.side ∧ e.price = loc.price.toNat ∧
      ∃ l, (b.levels e.bid).find? e.price = some l ∧ loc.it ∈ l
  live : ∀ e ∈ os, ∃ loc, b.refIndex.find? e.ref = some loc ∧ b.entryAt loc.it = some e
  no_best : b.bestBidAsk = none ↔ (∀ e ∈ os, e.bid = false) ∨ ∀ e ∈ os, e.bid = true
  best : ∀ bid ask, b.bestBidAsk = some (bid, ask) →
    IsGreatest {p | ∃ e ∈ os, e.bid = true ∧ e.price = p} bid ∧
      IsLeast {p | ∃ e ∈ os, e.bid = false ∧ e.price = p} ask

section Labels

variable {b b' : OrderBook} {loc : OrderLocator} {ref : UInt64}

theorem labelled_new : new.Labelled := by
  intro ref loc h
  cases h

theorem Labelled.push_order (h : b.Inv) (hl : b.Labelled) (o : RestingOrder) :
    (b.pushOrder o).Labelled := by
  intro r loc hloc
  rw [ref_index_push_order, OrderedMap.find_assign] at hloc
  rw [nodes_push_order, OrderedMap.find_assign]
  split at hloc
  next hr =>
    cases hloc
    exact ⟨o, if_pos rfl, hr.symm, rfl, rfl⟩
  next =>
    have hne : loc.it ≠ b.nextNode := (h.lt _ _ _ (h.located r loc hloc)).ne
    rw [if_neg hne]
    exact hl r loc hloc

theorem Labelled.remove_order (h : b.Inv) (hl : b.Labelled)
    (hloc : b.refIndex.find? ref.toNat = some loc) (hb' : b.removeOrder ref loc = some b') :
    b'.Labelled := by
  obtain ⟨b₁, hremove, hnodes, hindex, _⟩ := remove_locator_spec h hloc
  rw [removeOrder, hremove] at hb'
  cases hb'
  intro r loc' hloc'
  simp only [hindex, OrderedMap.find_erase] at hloc'
  split at hloc'
  next => cases hloc'
  next hr =>
    have hne : loc'.it ≠ loc.it := fun heq => hr (h.index_inj _ _ _ _ hloc' hloc heq)
    simp only [hnodes, OrderedMap.find_erase, if_neg hne]
    exact hl r loc' hloc'

theorem Labelled.write_node (hl : b.Labelled) {it : Nat} {o : RestingOrder}
    (ho : b.nodes.find? it = some o) (shares : UInt32) :
    Labelled { b with nodes := b.nodes.assign it { o with shares } } := by
  intro r loc' hloc'
  obtain ⟨o', ho', hlabel⟩ := hl r loc' hloc'
  simp only [OrderedMap.find_assign]
  split
  next heq =>
    rw [heq, ho, Option.some.injEq] at ho'
    exact ⟨_, rfl, ho' ▸ hlabel⟩
  next => exact ⟨o', ho', hlabel⟩

theorem Labelled.reduce_order (h : b.Inv) (hl : b.Labelled) {shares : UInt32}
    (hb' : b.reduceOrder ref shares = some b') : b'.Labelled := by
  cases hloc : b.refIndex.find? ref.toNat with
  | none =>
      simp only [reduceOrder, hloc, Option.some.injEq] at hb'
      exact hb' ▸ hl
  | some loc =>
      obtain ⟨o, ho⟩ := h.node hloc
      have hwrite := hl.write_node ho (o.shares - shares)
      simp only [reduceOrder, hloc, ho, Option.bind_eq_bind, Option.bind_some] at hb'
      split at hb'
      next => exact hwrite.remove_order (write_node_spec h _ _) hloc hb'
      next =>
        cases hb'
        exact hwrite

/-- Every message keeps the labels. -/
theorem Labelled.apply (h : b.Inv) (hl : b.Labelled) {m : Message} (hb' : b.apply m = some b') :
    b'.Labelled := by
  cases m with
  | addOrder m =>
      cases hb'
      exact hl.push_order h _
  | orderExecuted m => exact hl.reduce_order h hb'
  | orderCancel m => exact hl.reduce_order h hb'
  | orderDelete m =>
      simp only [OrderBook.apply, deleteOrder] at hb'
      split at hb'
      next =>
        cases hb'
        exact hl
      next hloc => exact hl.remove_order h hloc hb'
  | orderReplace m =>
      simp only [OrderBook.apply, replaceOrder] at hb'
      split at hb'
      next =>
        cases hb'
        exact hl
      next hloc =>
        obtain ⟨b₁, hb₁, hinv₁, _⟩ := remove_order_spec h hloc
        simp only [hb₁, Option.bind_eq_bind, Option.bind_some] at hb'
        cases hb'
        exact (hl.remove_order h hloc hb₁).push_order hinv₁ _

end Labels

section Exact

variable {b : OrderBook} {os : Reference} {xs : List Nat} {order : Nat → Order}

/-- The node of an order holds its entry. -/
theorem entry_at_of_shows (h : b.Inv) (hl : b.Labelled) (hshows : Shows b.view xs order os.orders)
    {x : Nat} (hx : x ∈ xs) : ∃ e ∈ os, order x = e.order ∧ b.entryAt x = some e ∧
      ∃ loc, b.refIndex.find? e.ref = some loc ∧ loc.it = x ∧ e.bid = isBid loc.side ∧
        e.price = loc.price.toNat := by
  have hmem : order x ∈ os.orders := hshows.orders_eq ▸ List.mem_map_of_mem hx
  obtain ⟨e, he, horder⟩ := List.mem_map.mp hmem
  have hname := (hshows.named_iff x hx e.ref).mpr (by rw [← horder]; rfl)
  obtain ⟨loc, hloc, rfl⟩ := Option.map_eq_some_iff.mp hname
  obtain ⟨o, ho, href, hside, hprice⟩ := hl e.ref loc hloc
  -- a node is in one queue only: that of its order and that of its locator
  have hqueue : loc.it ∈ b.queue (order loc.it).bid (order loc.it).price :=
    hshows.mem_queue_iff.mpr ⟨hx, rfl, rfl⟩
  obtain ⟨hbid', hprice'⟩ := h.disjoint _ _ _ _ _ hqueue (h.located e.ref loc hloc)
  rw [← horder] at hbid' hprice'
  have hshares := hshows.shares_eq loc.it hx
  simp only [view, ho, Option.map_some, Option.getD_some, ← horder] at hshares
  refine ⟨e, he, horder.symm, ?_, loc, hloc, rfl, hbid', hprice'⟩
  rw [entryAt, ho, Option.map_some, RestingOrder.entry, href, hside, hprice]
  exact congrArg some (Entry.ext rfl hbid'.symm hprice'.symm hshares)

/-- The order of an entry has a node. -/
theorem exists_node_of_shows (hshows : Shows b.view xs order os.orders) {e : Entry} (he : e ∈ os) :
    ∃ x ∈ xs, order x = e.order := by
  have hmem : e.order ∈ os.orders := List.mem_map_of_mem he
  rw [hshows.orders_eq] at hmem
  exact List.mem_map.mp hmem

theorem order_injective : Function.Injective Entry.order := by
  intro e e' h
  simp only [Entry.order, Order.mk.injEq, Option.some.injEq] at h
  exact Entry.ext h.1 h.2.1 h.2.2.1 h.2.2.2

/-- The entries along a queue. -/
theorem queue_entries (h : b.Inv) (hl : b.Labelled) (hshows : Shows b.view xs order os.orders)
    (bid : Bool) (price : Nat) :
    (b.queue bid price).map b.entryAt = (os.level bid price).map some := by
  have hlevel : (os.level bid price).map Entry.order = (b.queue bid price).map order := by
    have hqueue := hshows.queue_eq bid price
    have horders : os.orders.level bid price = (os.level bid price).map Entry.order := by
      rw [Orders.level, Reference.orders, List.filter_map]
      rfl
    rw [← horders, Orders.level, hshows.orders_eq, List.filter_map]
    exact congrArg (List.map order) hqueue.symm
  refine List.map_injective_iff.mpr (Option.map_injective order_injective) ?_
  rw [List.map_map, List.map_map]
  calc (b.queue bid price).map (Option.map Entry.order ∘ b.entryAt)
      = (b.queue bid price).map (some ∘ order) := by
        refine List.map_congr_left fun x hx => ?_
        obtain ⟨e, _, horder, hentry, _⟩ :=
          entry_at_of_shows h hl hshows (hshows.mem_queue_iff.mp hx).1
        rw [Function.comp_apply, hentry, Option.map_some, Function.comp_apply, horder]
    _ = (os.level bid price).map (Option.map Entry.order ∘ some) := by
        rw [← List.map_map, ← hlevel, List.map_map]
        rfl

/-- No order rests on a side if all are on the other one. -/
theorem no_order_iff {bid : Bool} :
    {p | ∃ e ∈ os, e.bid = bid ∧ e.price = p} = ∅ ↔ ∀ e ∈ os, e.bid = !bid := by
  rw [Set.eq_empty_iff_forall_notMem]
  constructor
  · intro h e he
    have hne : e.bid ≠ bid := fun hbid => h e.price ⟨e, he, hbid, rfl⟩
    exact Bool.eq_not_of_ne hne
  · intro h p hgiven
    obtain ⟨e, he, hbid, _⟩ := hgiven
    have hne := h e he
    rw [hbid] at hne
    exact (Bool.eq_not_self bid).mp hne

/-- A labelled book that follows the orders of a reference book implements it. -/
theorem implements_of_follows (h : b.Inv) (hl : b.Labelled) (hfollows : b.view.Follows os.orders) :
    b.Implements os := by
  have hprices : ∀ bid, prices b.queue bid = {p | ∃ e ∈ os, e.bid = bid ∧ e.price = p} := by
    intro bid
    refine (hfollows.prices_eq bid).trans (Set.ext fun p => ?_)
    simp [Reference.orders, Entry.order]
  have hbest := best_bid_ask_spec h
  rw [hprices, hprices] at hbest
  obtain ⟨xs, order, hshows⟩ := hfollows
  have hqueue : ∀ bid price l, (b.levels bid).find? price = some l → b.queue bid price = l := by
    intro bid price l hfind
    rw [queue, hfind, Option.getD_some]
  refine ⟨?_, ?_, h.nonempty, ?_, ?_, ?_, ?_⟩
  · intro bid price l hfind
    rw [← hqueue bid price l hfind]
    exact queue_entries h hl hshows bid price
  · intro bid price
    rw [← queue_eq_nil_iff h, ← List.map_eq_nil_iff, queue_entries h hl hshows,
      List.map_eq_nil_iff]
  · intro ref loc hloc
    have hx := hshows.named_mem ref loc.it (by simp [view, hloc])
    obtain ⟨e, he, horder, hentry, loc', hloc', hit, hbid, hprice⟩ :=
      entry_at_of_shows h hl hshows hx
    -- The order in the node has this reference, since the index names a node once.
    obtain rfl := h.index_inj _ _ _ _ hloc hloc' hit.symm
    cases hloc.symm.trans hloc'
    have hmem := h.located _ _ hloc
    rw [← hbid, ← hprice] at hmem
    exact ⟨e, he, rfl, hentry, hbid, hprice, _, find_of_mem_queue hmem, hmem⟩
  · intro e he
    obtain ⟨x, hx, horder⟩ := exists_node_of_shows hshows he
    obtain ⟨e', _, horder', hentry, loc, hloc, rfl, _⟩ := entry_at_of_shows h hl hshows hx
    obtain rfl := order_injective (horder.symm.trans horder')
    exact ⟨loc, hloc, hentry⟩
  · rw [hbest.eq_none_iff, no_order_iff, no_order_iff]
    rfl
  · intro bid ask hsome
    rw [hsome] at hbest
    exact hbest

end Exact

end OrderBook

/-- After every message of a valid sequence the v1 book has not failed and does what the reference
book does. -/
theorem v1_implements_reference (msgs : List Message) (hvalid : Reference.ValidSequence msgs)
    (before : List Message) (hbefore : before <+: msgs) :
    ∃ b, run OrderBook.apply .new before = some b ∧ b.Implements (Reference.after before) := by
  have hprefix : ∀ before, before <+: msgs → ∃ b, run OrderBook.apply .new before = some b ∧
      b.Inv ∧ b.Labelled ∧ b.view.Follows (Reference.after before).orders ∧
        (Reference.after before).Unique := by
    intro before
    induction before using List.reverseRecOn with
    | nil =>
        refine fun _ => ⟨_, rfl, OrderBook.inv_new, OrderBook.labelled_new, ?_, List.nodup_nil⟩
        exact View.follows_nil (fun bid _ => by cases bid <;> rfl) fun _ => rfl
    | append_singleton before m ih =>
        intro h
        obtain ⟨rest, rfl⟩ := h
        obtain ⟨b, hb, hinv, hl, hfollows, hunique⟩ := ih ⟨m :: rest, by simp⟩
        have hadmits := hvalid before m rest (by simp)
        obtain ⟨b', hb', hinv', hmoves⟩ := OrderBook.step_spec hinv m
        refine ⟨b', by rw [run_concat, hb, Option.bind_some, hb'], hinv', hl.apply hinv hb', ?_, ?_⟩
        · rw [Reference.after_concat, Reference.orders_apply hunique hadmits]
          -- What the reference book admits takes no more than the node has left.
          refine hfollows.step (hmoves fun ref qty x hm hqty hname => ?_)
          have hshares := hfollows.named_shares ref
          rw [hname, Option.map_some, Option.map_eq_some_iff] at hshares
          obtain ⟨o, ho, heq⟩ := hshares
          exact heq ▸ hadmits.orders_within ref qty o hm hqty ho
        · rw [Reference.after_concat]
          exact hunique.apply hadmits
  obtain ⟨b, hb, hinv, hl, hfollows, _⟩ := hprefix before hbefore
  exact ⟨b, hb, OrderBook.implements_of_follows hinv hl hfollows⟩

/-- Two bids at a price and an ask; the first bid is executed in part, then replaced under its own
reference at the same price. -/
theorem v1_implements_reference_same_level :
    ∃ b, run OrderBook.apply .new [.add 1 1 kBid 100 10000, .add 1 2 kBid 50 10000,
        .add 1 3 0x53 70 10100, .execute 1 1 30, .replace 1 1 1 40 10000] = some b ∧
      b.Implements [⟨2, true, 10000, 50⟩, ⟨3, false, 10100, 70⟩, ⟨1, true, 10000, 40⟩] :=
  v1_implements_reference _ (Reference.valid_of_along (by decide)) _ (List.prefix_refl _)

end FeedHandler.V1
