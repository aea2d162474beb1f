import FeedHandler.V3.Reachable

/-!
# Additions when a resource is exhausted

`add_order` takes a slot of the pool, links it and then asks the table to map the reference. A full
pool is noticed at once, a table at half load only after the order has been linked. Read
`add_order_all_or_nothing_iff` first: additions are all-or-nothing, and every linked order is in the
table, exactly if no addition meets such a table.
-/

namespace FeedHandler.V3

open Itch OrderBook OrderPool Runs Segments Slots

/-- An addition changes nothing, or the order is the tail of its level and the table finds it. -/
def AllOrNothing (hash : Nat → Nat) (s s' : Store) (m : AddOrder) : Prop :=
  (s'.toShared = s.toShared ∧ ∀ k i l, s'.LevelList k i l ↔ s.LevelList k i l) ∨
  ∃ x i l, (s'.bookOf m.stockLocate.toNat).levelOf (isBid m.side) m.price.toNat = some i ∧
    s'.LevelList m.stockLocate.toNat i (l ++ [x]) ∧ (s'.pool.get x).qty = m.shares.toNat ∧
    s'.refs.find hash m.orderRef.toNat = some x ∧ x ≠ kNullIdx

/-- The references a message introduces are not live. -/
def Fresh (s : Store) : Message → Prop
  | .addOrder m => s.refs.lookup m.orderRef.toNat = none
  | .orderReplace m => m.newOrderRef ≠ m.originalOrderRef → s.refs.lookup m.newOrderRef.toNat = none
  | _ => True

/-- The number of linked orders is the number of references in the table. -/
def Balanced (s : Store) : Prop :=
  {x | ∃ k i l, s.LevelList k i l ∧ x ∈ l}.ncard = s.refs.size

/-- An addition finds the pool empty or the table below half load. -/
def HasRoom (s : Store) : Message → Prop
  | .addOrder _ => s.pool.freeHead = kNullIdx ∨ s.refs.size * 2 < s.refs.slots.size
  | _ => True

/-- If the message is an addition, it is all-or-nothing. -/
def AddsWhole (hash : Nat → Nat) (s : Store) (m : Message) : Prop :=
  ∀ a s', m = .addOrder a → s.step hash m = some s' → AllOrNothing hash s s' a

section Additions

variable {hash : Nat → Nat} {capacity : Nat} {s : Store} {lists : Lists} {m : Message}

/-- The linked orders are the slots that are not free. -/
theorem Inv.linked_ncard (h : Inv hash capacity s.toShared s.bookOf lists) :
    {x | ∃ k i l, s.LevelList k i l ∧ x ∈ l}.ncard + (lists none).length =
      min capacity kNullIdx := by
  have hset : {x | ∃ k i l, s.LevelList k i l ∧ x ∈ l} = {x | ∃ k, k ≠ none ∧ x ∈ lists k} := by
    ext x
    constructor
    · intro hgiven
      obtain ⟨k, i, l, hl, hx⟩ := hgiven
      exact ⟨some (k, i), by simp, (h.level_list_iff.mp hl).2 ▸ hx⟩
    · intro hgiven
      obtain ⟨_ | ⟨k, i⟩, hne, hx⟩ := hgiven
      · exact absurd rfl hne
      · exact ⟨k, i, _, h.level_list_iff.mpr
          ⟨(h.book k).lt_size (List.ne_nil_of_mem hx), rfl⟩, hx⟩
  rw [hset]
  exact h.parts.ncard_add_length none

theorem Inv.balanced_iff (h : Inv hash capacity s.toShared s.bookOf lists) :
    Balanced s ↔ s.refs.size + (lists none).length = min capacity kNullIdx := by
  have hcount := h.linked_ncard
  rw [Balanced]
  omega

/-- The effect of a step that was taken. -/
theorem Inv.effect_of_step (h : Inv hash capacity s.toShared s.bookOf lists) (hok : s.Admissible m)
    {s' : Store} (hs' : s.step hash m = some s') :
    ∃ lists', Inv hash capacity s'.toShared s'.bookOf lists' ∧
      Effect m.stockLocate s.toShared (s.bookOf m.stockLocate) lists m s'.toShared
        (s'.bookOf m.stockLocate) lists' := by
  obtain ⟨s'', lists', hs'', h', _, heffect⟩ := step_spec h (hok.admitted h)
  obtain rfl := Option.some.inj (hs''.symm.trans hs')
  exact ⟨lists', h', heffect⟩

/-- An addition of a fresh reference is all-or-nothing exactly if it has room. -/
theorem adds_whole_iff {a : AddOrder} (h : Inv hash capacity s.toShared s.bookOf lists)
    (hok : s.Admissible (.addOrder a)) (hfresh : Fresh s (.addOrder a)) :
    AddsWhole hash s (.addOrder a) ↔ HasRoom s (.addOrder a) := by
  obtain ⟨s', lists', hs', h', hbooks, heffect⟩ := step_spec h (hok.admitted h)
  have hwhole : AddsWhole hash s (.addOrder a) ↔ AllOrNothing hash s s' a := by
    constructor
    · exact fun hwhole => hwhole a s' rfl hs'
    · intro hall _ s'' heq hs''
      cases heq
      exact Option.some.inj (hs'.symm.trans hs'') ▸ hall
  rw [hwhole]
  have href : a.orderRef.toNat ≠ kEmpty := hok.keys _ (by simp [Message.refs])
  have hfind := RefTable.find_spec h'.refs href
  rcases heffect.add_cases with ⟨hfree, hshared, hbook, rfl⟩ | ⟨x, i, rest, hfree, hplaced, rfl⟩
  · have hsame : s'.bookOf = s.bookOf := by rw [hbooks, hbook, Function.update_eq_self]
    -- Without a free slot nothing changes, and that is whole.
    refine iff_of_true (.inl ⟨hshared, fun k i l => ?_⟩) (.inl (h.free_head_eq_null_iff.mpr hfree))
    rw [h.level_list_iff, h'.level_list_iff, hsame]
  · have hhead : s.pool.freeHead ≠ kNullIdx := by
      rw [Ne, h.free_head_eq_null_iff, hfree]
      simp
    have hx : x ∈ lists none := hfree ▸ List.mem_cons_self
    have htail : s'.LevelList a.stockLocate.toNat i
        (lists (some (a.stockLocate.toNat, i)) ++ [x]) := by
      have hlt : i < (s'.bookOf a.stockLocate.toNat).levels.size := by
        refine (h'.book a.stockLocate.toNat).lt_size ?_
        rw [show some (a.stockLocate.toNat, i) = some ((Message.addOrder a).stockLocate, i)
          from rfl, move_dst]
        simp
      exact h'.level_list_iff.mpr ⟨hlt, move_dst.symm⟩
    -- With a free slot the order is linked, so that the table has to name it.
    rcases hplaced.refs.cases with ⟨hfull, hrefs⟩ | ⟨hroom, hmap, _⟩
    · refine iff_of_false ?_ ?_
      · intro hor
        rcases hor with ⟨_, hlevels⟩ | ⟨y, _, _, _, _, _, hy, hne⟩
        · have hlist := h.level_list_iff.mp ((hlevels _ _ _).mp htail)
          have hmem : x ∈ lists (some (a.stockLocate.toNat, i)) := hlist.2 ▸ by simp
          exact h.apart (by simp) hx hmem
        · rw [hfind, hrefs, hfresh] at hy
          exact hne (Option.some.inj hy).symm
      · intro hor
        rcases hor with hnull | hroom
        · exact hhead hnull
        · omega
    · refine iff_of_true (.inr ⟨x, i, _, hplaced.code, htail, hplaced.qty, ?_, (h.lt_size hx).2⟩)
        (.inr hroom)
      rw [hfind, hmap, Function.update_self, Option.getD_some]

/-- A message that has room keeps the linked orders and the table in balance. -/
theorem balanced_step (h : Inv hash capacity s.toShared s.bookOf lists) (hok : s.Admissible m)
    (hfresh : Fresh s m) (hroom : HasRoom s m) (hbalanced : Balanced s) {s' : Store}
    (hs' : s.step hash m = some s') : Balanced s' := by
  obtain ⟨lists', h', heffect⟩ := h.effect_of_step hok hs'
  rw [h.balanced_iff] at hbalanced
  rw [h'.balanced_iff]
  have hhead := h.free_head_eq_null_iff
  have hhalf := h.refs.half
  obtain ⟨t, ht⟩ : ∃ t, s'.toShared = t := ⟨_, rfl⟩
  obtain ⟨b', hb'⟩ : ∃ b', s'.bookOf m.stockLocate = b' := ⟨_, rfl⟩
  rw [ht, hb'] at heffect
  rw [ht]
  cases heffect with
  | ignored => exact hbalanced
  | dropped => exact hbalanced
  | placed hfree hplaced =>
      rw [move_src (by simp)]
      rw [hfree] at hbalanced hhead
      have hroom : s.pool.freeHead = kNullIdx ∨ s.refs.size * 2 < s.refs.slots.size := hroom
      rcases hplaced.refs.cases with ⟨hfull, _⟩ | ⟨_, _, hsize⟩
      · rcases hroom with hnull | hlt
        · cases hhead.mp hnull
        · omega
      · -- A fresh reference adds one entry for the one slot taken.
        have hnone : s.refs.lookup _ = none := hfresh
        rw [if_pos hnone] at hsize
        rw [hsize]
        simp only [List.length_cons] at hbalanced
        omega
  | reduced _ _ _ _ _ _ _ _ _ hrefs => rw [hrefs, hbalanced]
  | removed _ _ _ _ hremoved =>
      rw [move_dst, List.length_cons]
      have := hremoved.size_eq
      omega
  | replaced hname _ _ hremoved _ _ hplaced =>
      rw [move_src (by simp)]
      have hsize := hremoved.size_eq
      have hcapacity := hremoved.capacity_eq
      rcases hplaced.refs.cases with ⟨hfull, _⟩ | ⟨_, _, hgrown⟩
      · omega
      · -- The new reference is not in the table once the old one is out.
        rw [hremoved.lookup_eq, if_pos] at hgrown
        · omega
        · rw [Function.update_apply]
          split
          next => rfl
          next hne => exact hfresh fun heq => hne (congrArg UInt64.toNat heq)

/-- An addition without room breaks the balance. -/
theorem unbalanced_step {a : AddOrder} (h : Inv hash capacity s.toShared s.bookOf lists)
    (hok : s.Admissible (.addOrder a)) (hroom : ¬ HasRoom s (.addOrder a)) (hbalanced : Balanced s)
    {s' : Store} (hs' : s.step hash (.addOrder a) = some s') : ¬ Balanced s' := by
  obtain ⟨lists', h', heffect⟩ := h.effect_of_step hok hs'
  simp only [HasRoom, not_or, h.free_head_eq_null_iff] at hroom
  rw [h.balanced_iff] at hbalanced
  rw [h'.balanced_iff]
  rcases heffect.add_cases with ⟨hfree, _⟩ | ⟨x, i, rest, hfree, hplaced, rfl⟩
  · exact absurd hfree hroom.1
  · rw [move_src (by simp)]
    rw [hfree, List.length_cons] at hbalanced
    rcases hplaced.refs.cases with ⟨_, hrefs⟩ | ⟨hlt, _⟩
    · -- The slot is linked and the table refuses its reference.
      rw [hrefs]
      omega
    · exact absurd hlt hroom.2

/-- A message that ends the order in a slot. -/
def Ends (s : Store) (ref x : Nat) (m : Message) : Prop :=
  m.target = some ref ∧ ((∃ d, m = .orderDelete d) ∨
    (∃ qty, m.taken = some qty ∧ (s.pool.get x).qty ≤ qty) ∨
    ∃ u, m = .orderReplace u ∧ u.newOrderRef ≠ u.originalOrderRef)

/-- A message that ends an order which the table finds removes it: the reference is not found any
more, and the slot is free or that of a replacement. -/
def Removable (hash : Nat → Nat) (s : Store) : Prop :=
  ∀ ref x m s', s.refs.find hash ref = some x → x ≠ kNullIdx → Ends s ref x m → s.Admissible m →
    s.step hash m = some s' → s'.refs.find hash ref = some kNullIdx ∧
      ∀ k i l, s'.LevelList k i l → x ∈ l →
        ∃ u, m = .orderReplace u ∧ s'.refs.lookup u.newOrderRef.toNat = some x

theorem Inv.removable (h : Inv hash capacity s.toShared s.bookOf lists) : Removable hash s := by
  intro ref x m s' hfind hx hboth hok hs'
  obtain ⟨htarget, hends⟩ := hboth
  have href : ref ≠ kEmpty := hok.keys ref (Message.target_mem htarget)
  obtain ⟨lists', h', heffect⟩ := h.effect_of_step hok hs'
  -- What `find` returns is null exactly for an unmapped reference.
  have hname : s.refs.lookup ref = some x := by
    rw [RefTable.find_spec h.refs href, Option.some.injEq] at hfind
    cases hlookup : s.refs.lookup ref with
    | none => exact absurd (by rw [← hfind, hlookup]; rfl) hx
    | some y => rw [← hfind, hlookup]; rfl
  rw [RefTable.find_spec h'.refs href]
  have hhalf := h.refs.half
  obtain ⟨t, ht⟩ : ∃ t, s'.toShared = t := ⟨_, rfl⟩
  obtain ⟨b', hb'⟩ : ∃ b', s'.bookOf m.stockLocate = b' := ⟨_, rfl⟩
  rw [ht, hb'] at heffect
  rw [ht]
  cases heffect with
  | ignored hm hnone =>
      obtain rfl := Option.some.inj (hm.symm.trans htarget)
      rw [hname] at hnone
      cases hnone
  | dropped => cases htarget
  | placed => cases htarget
  | reduced hm hqty hname' _ hlt =>
      obtain rfl := Option.some.inj (hm.symm.trans htarget)
      obtain rfl := Option.some.inj (hname'.symm.trans hname)
      -- A message that ends the order does not leave a rest of it.
      rcases hends with ⟨d, rfl⟩ | ⟨qty, hqty', hle⟩ | ⟨u, rfl, _⟩
      · cases hqty
      · obtain rfl := Option.some.inj (hqty.symm.trans hqty')
        omega
      · cases hqty
  | removed hm hname' _ _ hremoved =>
      obtain rfl := Option.some.inj (hm.symm.trans htarget)
      obtain rfl := Option.some.inj (hname'.symm.trans hname)
      refine ⟨by rw [hremoved.lookup_eq, Function.update_self, Option.getD_none], ?_⟩
      intro k i l hl hmem
      rw [(h'.level_list_iff.mp hl).2] at hmem
      -- The slot is on the free list now, so it is on no level.
      refine absurd hmem (h'.apart (k := none) (by simp) ?_)
      rw [move_dst]
      exact List.mem_cons_self
  | @replaced u _ _ _ _ _ _ _ _ _ _ _ hname' _ _ hremoved _ _ hplaced =>
      obtain rfl := Option.some.inj htarget
      obtain rfl := Option.some.inj (hname'.symm.trans hname)
      -- The slot goes straight to the new order, which the table now names instead.
      have hne : u.newOrderRef ≠ u.originalOrderRef := by
        rcases hends with ⟨d, hd⟩ | ⟨qty, hqty, _⟩ | ⟨u', hu', hne⟩
        · cases hd
        · cases hqty
        · cases hu'
          exact hne
      have hsize := hremoved.size_eq
      have hcapacity := hremoved.capacity_eq
      refine ⟨?_, fun _ _ _ _ _ => ⟨u, rfl, ?_⟩⟩
      · rw [hplaced.refs.lookup_eq fun heq => hne (UInt64.toNat_inj.mp heq.symm),
          hremoved.lookup_eq, Function.update_self, Option.getD_none]
      · rcases hplaced.refs.cases with ⟨hfull, _⟩ | ⟨_, hmap, _⟩
        · omega
        · rw [hmap, Function.update_self]

theorem balanced_new {refExp : Nat} (hexp : 1 ≤ refExp)
    (hnew : Store.new capacity (2 ^ refExp) = some s) : Balanced s := by
  rw [(inv_new id hexp hnew).balanced_iff]
  simp only [Store.new, Option.bind_eq_bind, Option.bind_eq_some_iff, Option.pure_def,
    Option.some.injEq] at hnew
  obtain ⟨_, _, rfl⟩ := hnew
  simp [initialLists, RefTable.new]

/-- In a stream of fresh references, additions are all-or-nothing and the linked orders are those
in the table, at every step, exactly if every addition has room. In any case, an order that the
table finds can be removed. -/
theorem add_order_all_or_nothing_iff (hash : Nat → Nat) {refExp : Nat} (hexp : 1 ≤ refExp)
    (hnew : Store.new capacity (2 ^ refExp) = some s) {msgs : List Message}
    (hok : Along (Store.step hash) (fun s m => s.Admissible m ∧ Fresh s m) s msgs) :
    (Along (Store.step hash) (AddsWhole hash) s msgs ∧
      (Along (Store.step hash) (fun s _ => Balanced s) s msgs ∧
        ∀ s', run (Store.step hash) s msgs = some s' → Balanced s' ∧ Removable hash s')) ↔
      Along (Store.step hash) HasRoom s msgs := by
  have hstep : ∀ (s : Store) m s', (∃ lists, Inv hash capacity s.toShared s.bookOf lists) →
      s.Admissible m ∧ Fresh s m → s.step hash m = some s' →
      ∃ lists, Inv hash capacity s'.toShared s'.bookOf lists := by
    intro s m s' hstate hmsg hs'
    obtain ⟨lists, h⟩ := hstate
    obtain ⟨hm, _⟩ := hmsg
    obtain ⟨s'', lists', hs'', h', _⟩ := step_inv h hm
    exact ⟨lists', Option.some.inj (hs''.symm.trans hs') ▸ h'⟩
  -- Only an addition can be cut in half, and it is whole exactly if there is room.
  have hwhole : ∀ (s : Store) m, (∃ lists, Inv hash capacity s.toShared s.bookOf lists) →
      s.Admissible m ∧ Fresh s m → (AddsWhole hash s m ↔ HasRoom s m) := by
    intro s m hstate hmsg
    obtain ⟨lists, h⟩ := hstate
    obtain ⟨hm, hfresh⟩ := hmsg
    cases m with
    | addOrder a => exact adds_whole_iff h hm hfresh
    | _ => exact iff_of_true (fun _ _ ha => by cases ha) trivial
  have hstart := inv_new hash hexp hnew
  constructor
  · intro hgiven
    obtain ⟨hadds, _⟩ := hgiven
    exact Along.imp_of_inv hstep (fun s m h hm => (hwhole s m h hm).mp) ⟨_, hstart⟩ hok hadds
  · intro hroom
    -- With room the balance between levels and table is kept by every message.
    have hstep' : ∀ (s : Store) m, (∃ lists, Inv hash capacity s.toShared s.bookOf lists) ∧
        Balanced s → (s.Admissible m ∧ Fresh s m) ∧ HasRoom s m → ∃ s', s.step hash m = some s' ∧
          (∃ lists, Inv hash capacity s'.toShared s'.bookOf lists) ∧ Balanced s' := by
      intro s m hstate hmsg
      obtain ⟨⟨lists, h⟩, hbalanced⟩ := hstate
      obtain ⟨⟨hm, hfresh⟩, hroom⟩ := hmsg
      obtain ⟨s', lists', hs', h', _⟩ := step_inv h hm
      exact ⟨s', hs', ⟨lists', h'⟩, balanced_step h hm hfresh hroom hbalanced hs'⟩
    have hkeep : ∀ (s : Store) m s', (∃ lists, Inv hash capacity s.toShared s.bookOf lists) ∧
        Balanced s → (s.Admissible m ∧ Fresh s m) ∧ HasRoom s m → s.step hash m = some s' →
          (∃ lists, Inv hash capacity s'.toShared s'.bookOf lists) ∧ Balanced s' := by
      intro s m s' h hm hs'
      obtain ⟨s'', hs'', h'⟩ := hstep' s m h hm
      exact Option.some.inj (hs''.symm.trans hs') ▸ h'
    have hboth := hok.and hroom
    refine ⟨Along.imp_of_inv hstep (fun s m h hm => (hwhole s m h hm).mpr) ⟨_, hstart⟩ hok hroom,
      ?_, fun s' hrun => ?_⟩
    · exact Along.imp_of_inv hkeep (fun s m h _ _ => h.2)
        ⟨⟨_, hstart⟩, balanced_new hexp hnew⟩ hboth hboth
    · obtain ⟨s'', hrun', ⟨lists, h⟩, hbalanced⟩ :=
        run_invariant hstep' ⟨⟨_, hstart⟩, balanced_new hexp hnew⟩ hboth
      obtain rfl := Option.some.inj (hrun'.symm.trans hrun)
      exact ⟨hbalanced, h.removable⟩

/-- A table of two slots holds one reference: an order and its deletion. -/
theorem add_order_all_or_nothing_one_order :
    ∃ s, Store.new 4 (2 ^ 1) = some s ∧
      Along (Store.step RefTable.hash) (AddsWhole RefTable.hash) s
        [.add 1 10 kBid 5 10000, .delete 1 10] := by
  obtain ⟨s, hnew⟩ : ∃ s, Store.new 4 (2 ^ 1) = some s := ⟨_, rfl⟩
  have hrouted : ∀ m ∈ [Message.add 1 10 kBid 5 10000, .delete 1 10], Routed (fun _ => 1) m := by
    unfold Routed
    decide
  have hok := (owned_new _ (by decide) hnew).along hrouted (inv_new RefTable.hash (by decide) hnew)
    fun locate => by simp [book_of_new hnew, OrderBook.new, kWindow]
  have hfresh : Along (Store.step RefTable.hash) Fresh s
      [.add 1 10 kBid 5 10000, .delete 1 10] :=
    ⟨lookup_new (by decide) hnew _, fun _ _ => ⟨trivial, fun _ _ => trivial⟩⟩
  have hroom : Along (Store.step RefTable.hash) HasRoom s
      [.add 1 10 kBid 5 10000, .delete 1 10] := by
    refine ⟨.inr ?_, fun _ _ => ⟨trivial, fun _ _ => trivial⟩⟩
    cases hnew
    decide
  have hiff := add_order_all_or_nothing_iff RefTable.hash (by decide) hnew
    ((hok.imp fun _ _ h => h.1).and hfresh)
  exact ⟨s, hnew, (hiff.mpr hroom).1⟩

/-- The second order of a table of two slots is linked, but the table refuses its reference. -/
theorem add_order_links_without_entry :
    ∃ s₀ s s', Store.new 4 (2 ^ 1) = some s₀ ∧
      Along (Store.step RefTable.hash) (fun s m => s.Admissible m ∧ Fresh s m) s₀
        [.add 1 10 kBid 5 10000, .add 1 11 kBid 7 10000] ∧
      run (Store.step RefTable.hash) s₀ [.add 1 10 kBid 5 10000] = some s ∧
      s.step RefTable.hash (.add 1 11 kBid 7 10000) = some s' ∧
      ¬ AddsWhole RefTable.hash s (.add 1 11 kBid 7 10000) ∧ ¬ Balanced s' := by
  have hread : (do
      let s₀ ← Store.new 4 (2 ^ 1)
      let s ← run (Store.step RefTable.hash) s₀ [.add 1 10 kBid 5 10000]
      let s' ← s.step RefTable.hash (.add 1 11 kBid 7 10000)
      return (s.pool.freeHead, s.refs.size, s.refs.slots.size, s.refs.lookup 11)) =
        some (1, 1, 2, none) := by decide +kernel
  simp only [Option.bind_eq_bind, Option.bind_eq_some_iff, Option.pure_def, Option.some.injEq,
    Prod.mk.injEq] at hread
  obtain ⟨s₀, hnew, s, hrun, s', hs', hhead, hsize, hcapacity, hname⟩ := hread
  have hrouted : ∀ m ∈ [Message.add 1 10 kBid 5 10000, .add 1 11 kBid 7 10000],
      Routed (fun _ => 1) m := by
    unfold Routed
    decide
  have hok := (owned_new _ (by decide) hnew).along hrouted (inv_new RefTable.hash (by decide) hnew)
    fun locate => by simp [book_of_new hnew, OrderBook.new, kWindow]
  have hstep : s₀.step RefTable.hash (.add 1 10 kBid 5 10000) = some s := by
    simpa using hrun
  have hfresh : Fresh s₀ (.add 1 10 kBid 5 10000) := lookup_new (by decide) hnew _
  have hroom : HasRoom s₀ (.add 1 10 kBid 5 10000) := by
    refine .inr ?_
    cases hnew
    decide
  have hnoRoom : ¬ HasRoom s (.add 1 11 kBid 7 10000) := by
    intro hor
    rcases hor with hnull | hlt
    · rw [hhead] at hnull
      cases hnull
    · omega
  -- The second order finds the table at half load.
  have hadmissible := ((hok.2 s hstep).1).1
  obtain ⟨_, lists, hstep', h, _⟩ := step_inv (inv_new RefTable.hash (by decide) hnew) hok.1.1
  obtain rfl := Option.some.inj (hstep'.symm.trans hstep)
  have hbalanced := balanced_step (inv_new RefTable.hash (by decide) hnew) hok.1.1 hfresh hroom
    (balanced_new (by decide) hnew) hstep
  refine ⟨s₀, _, s', hnew, (hok.imp fun _ _ h => h.1).and ⟨hfresh, fun s'' hs'' => ?_⟩, hrun, hs',
    fun hwhole => hnoRoom ((adds_whole_iff h hadmissible hname).mp hwhole),
    unbalanced_step h hadmissible hnoRoom hbalanced hs'⟩
  obtain rfl := Option.some.inj (hstep.symm.trans hs'')
  exact ⟨hname, fun _ _ => trivial⟩

end Additions

end FeedHandler.V3
