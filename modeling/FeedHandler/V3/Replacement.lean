import FeedHandler.V3.AllOrNothing

/-!
# Replacements

`replace_order` removes the old order before it places the new one. `replace_order_in_full` says
that it never stops in between, in any reachable state: the removal frees what the new order needs.
-/

namespace FeedHandler.V3

open Itch OrderBook OrderPool Runs Slots

/-- A replacement has been carried out in full. The slot `x` of the old order, on level `i`, is
released and taken again for the new one, which becomes the last order of level `j`. -/
structure ReplacedInFull (hash : Nat → Nat) (s s' : Store) (u : OrderReplace) (x i j : Nat)
    (bid : Bool) : Prop where
  found : s.refs.find hash u.originalOrderRef.toNat = some x
  stood : ∃ price l, (s.bookOf u.stockLocate.toNat).levelOf bid price = some i ∧
    s.LevelList u.stockLocate.toNat i l ∧ x ∈ l
  /-- Between the removal and the new order the pool gives out a slot and the table has room. -/
  room : ∃ sh b pool, (s.bookOf u.stockLocate.toNat).removeOrder hash s.toShared
      u.originalOrderRef.toNat x = some (sh, b) ∧
    sh.pool.allocate = some (pool, x) ∧ x ≠ kNullIdx ∧ sh.refs.size * 2 < sh.refs.slots.size
  level : (s'.bookOf u.stockLocate.toNat).levelOf bid u.price.toNat = some j
  tail : ∃ l, s'.LevelList u.stockLocate.toNat j (l ++ [x])
  shares : (s'.pool.get x).qty = u.shares.toNat
  finds : s'.refs.find hash u.newOrderRef.toNat = some x
  forgets : u.originalOrderRef ≠ u.newOrderRef →
    s'.refs.find hash u.originalOrderRef.toNat = some kNullIdx
  count : {y | ∃ k a l, s'.LevelList k a l ∧ y ∈ l}.ncard =
    {y | ∃ k a l, s.LevelList k a l ∧ y ∈ l}.ncard
  /-- Every other linked order stays on its level, between the same orders, with its quantity. -/
  others : ∀ k a l, s.LevelList k a l → ∀ y ∈ l, y ≠ x →
    (s'.pool.get y).qty = (s.pool.get y).qty ∧
      ∃ l', s'.LevelList k a l' ∧ y ∈ l' ∧ l'.filter (· ≠ x) = l.filter (· ≠ x)
  codes : ∀ k b price a, (s.bookOf k).levelOf b price = some a →
    (s'.bookOf k).levelOf b price = some a

section Replace

variable {hash : Nat → Nat} {capacity : Nat} {s : Store} {lists : Lists} {u : OrderReplace}

/-- Once an order has been removed, the pool gives its slot out again, and the table is below half
load. -/
theorem Inv.room_after_remove (h : Inv hash capacity s.toShared s.bookOf lists)
    {locate ref x i : Nat}
    {l k : List Nat} (hname : s.refs.lookup ref = some x)
    (hlist : lists (some (locate, i)) = l ++ x :: k) :
    ∃ sh b pool, (s.bookOf locate).removeOrder hash s.toShared ref x = some (sh, b) ∧
      sh.pool.allocate = some (pool, x) ∧ x ≠ kNullIdx ∧
      sh.refs.size * 2 < sh.refs.slots.size := by
  obtain ⟨sh, b, hremove, hinv, hremoved⟩ := remove_order_spec h hname hlist
  obtain ⟨halloc, hne, _⟩ := hinv.allocate move_dst
  have hhalf := h.refs.half
  have hsize := hremoved.size_eq
  have hcapacity := hremoved.capacity_eq
  exact ⟨sh, b, _, hremove, halloc, hne, by omega⟩

/-- A live order is live in one book only. -/
theorem Inv.live_in_unique (h : Inv hash capacity s.toShared s.bookOf lists)
    {locate locate' ref : Nat}
    (hlive : s.LiveIn locate ref) (hlive' : s.LiveIn locate' ref) : locate = locate' := by
  obtain ⟨x, i, hname, hx⟩ := h.live_in_iff.mp hlive
  obtain ⟨x', i', hname', hx'⟩ := h.live_in_iff.mp hlive'
  obtain rfl := Option.some.inj (hname.symm.trans hname')
  have heq := h.parts.disjoint _ _ x hx hx'
  exact congrArg Prod.fst (Option.some.inj heq)

/-- Apart from one slot, a list moved from one place to another one is the same in every place. -/
theorem filter_move {a b k : Option (Nat × Nat)} {x : Nat} {la lb : List Nat}
    (ha : la.filter (· ≠ x) = (lists a).filter (· ≠ x))
    (hb : lb.filter (· ≠ x) = (lists b).filter (· ≠ x)) :
    (move lists a b la lb k).filter (· ≠ x) = (lists k).filter (· ≠ x) := by
  by_cases hkb : k = b
  · subst hkb
    rw [move_dst, hb]
  · by_cases hka : k = a
    · subst hka
      rw [move_src hkb, ha]
    · rw [move_other hka hkb]

/-- The two moves of a replacement change no list apart from the slot of the orders. -/
theorem filter_replaced {lists₁ lists' : Lists} {a b : Option (Nat × Nat)} {x : Nat}
    {l k : List Nat} (hlist : lists a = l ++ x :: k)
    (hlists : lists₁ = move lists a none (l ++ k) (x :: lists none))
    (hlists' : lists' = move lists₁ none b (lists none) (lists₁ b ++ [x]))
    (c : Option (Nat × Nat)) : (lists' c).filter (· ≠ x) = (lists c).filter (· ≠ x) := by
  have hfree : lists₁ none = x :: lists none := by rw [hlists, move_dst]
  have hadd : (lists' c).filter (· ≠ x) = (lists₁ c).filter (· ≠ x) := by
    rw [hlists']
    refine filter_move ?_ ?_
    · simp [hfree]
    · simp
  have hremove : (lists₁ c).filter (· ≠ x) = (lists c).filter (· ≠ x) := by
    rw [hlists]
    refine filter_move ?_ ?_
    · simp [hlist]
    · simp
  exact hadd.trans hremove

/-- The empty key names no live order. -/
theorem Store.LiveIn.ref_ne {locate ref : Nat} (hlive : s.LiveIn locate ref) : ref ≠ kEmpty := by
  obtain ⟨x, _, _, hname, _⟩ := hlive
  intro heq
  rw [heq, RefTable.lookup_empty_key] at hname
  cases hname

/-- A replacement of a live order may come next. -/
theorem Inv.admissible_replace (h : Inv hash capacity s.toShared s.bookOf lists)
    (hlive : s.LiveIn u.stockLocate.toNat u.originalOrderRef.toNat)
    (hkey : u.newOrderRef.toNat ≠ kEmpty)
    (hnew : ∀ locate, s.LiveIn locate u.newOrderRef.toNat → locate = u.stockLocate.toNat) :
    s.Admissible (.orderReplace u) where
  keys := by
    intro ref href
    rcases List.mem_pair.mp href with rfl | rfl
    · exact hlive.ref_ne
    · exact hkey
  own := by
    intro ref href locate hlive'
    rcases List.mem_pair.mp href with rfl | rfl
    · exact h.live_in_unique hlive' hlive
    · exact hnew locate hlive'

/-- A replacement of a live order, by a reference that is not live in another book. -/
theorem replace_in_full (h : Inv hash capacity s.toShared s.bookOf lists)
    (hsize : (s.bookOf u.stockLocate.toNat).levels.size < 2 ^ 31)
    (hlive : s.LiveIn u.stockLocate.toNat u.originalOrderRef.toNat)
    (hkey : u.newOrderRef.toNat ≠ kEmpty)
    (hnew : ∀ locate, s.LiveIn locate u.newOrderRef.toNat → locate = u.stockLocate.toNat) :
    ∃ s' x i j bid, s.step hash (.orderReplace u) = some s' ∧
      ReplacedInFull hash s s' u x i j bid := by
  have hexact := h.exact u.stockLocate.toNat (Nat.le_of_lt hsize)
  have hhalf := h.refs.half
  have horig := hlive.ref_ne
  have hok := h.admissible_replace hlive hkey hnew
  obtain ⟨x, _, _, hname, _⟩ := hlive
  obtain ⟨s', lists', hs', h', hbooks, heffect⟩ := step_spec h (hok.admitted h)
  obtain ⟨i, j, c, l, k, s₁, b₁, lists₁, hlist, hside, hremoved, hlists, hplaced, hlists'⟩ :=
    heffect.replace_cases hname
  replace hbooks : s'.bookOf = Function.update s.bookOf u.stockLocate.toNat
    (s'.bookOf u.stockLocate.toNat) := hbooks
  replace hlists' : lists' = move lists₁ none (some (u.stockLocate.toNat, j)) (lists none)
    (lists₁ (some (u.stockLocate.toNat, j)) ++ [x]) := hlists'
  have hx : x ∈ lists (some (u.stockLocate.toNat, i)) :=
    hlist ▸ List.mem_append_right l List.mem_cons_self
  -- The side that `side_of` reads off the old level is the one of its index.
  obtain ⟨bid, price, _, hlevel⟩ := hexact.priced i (List.ne_nil_of_mem hx)
  obtain ⟨c', hside', hbid⟩ := hexact.coded.side_of hlevel
  obtain rfl := Option.some.inj (hside'.symm.trans hside)
  have hrest := filter_replaced hlist hlists hlists'
  have hfree : lists' none = lists none := by rw [hlists', move_src (by simp)]
  -- The table was at half load at most, and one entry has gone.
  have hroom : s₁.refs.size * 2 < s₁.refs.slots.size := by
    have hcount := hremoved.size_eq
    have hcapacity := hremoved.capacity_eq
    omega
  have hlookup : s'.refs.lookup = Function.update s₁.refs.lookup u.newOrderRef.toNat (some x) := by
    rcases hplaced.refs.cases with ⟨hfull, _⟩ | ⟨_, hmap, _⟩
    · omega
    · exact hmap
  have hj : x ∈ lists' (some (u.stockLocate.toNat, j)) := by
    rw [hlists', move_dst]
    simp
  refine ⟨s', x, i, j, bid, hs', ?_⟩
  refine
    { found := by rw [find_eq h horig, hname, Option.getD_some]
      stood := ⟨price, _, hlevel, h.level_list_iff.mpr
        ⟨(h.book _).lt_size (List.ne_nil_of_mem hx), rfl⟩, hx⟩
      room := h.room_after_remove hname hlist
      level := hbid ▸ hplaced.code
      tail := ⟨lists₁ (some (u.stockLocate.toNat, j)), h'.level_list_iff.mpr
        ⟨(h'.book _).lt_size (List.ne_nil_of_mem hj), by rw [hlists', move_dst]⟩⟩
      shares := hplaced.qty
      finds := ?finds
      forgets := ?forgets
      count := ?count
      others := ?others
      codes := ?codes }
  case finds =>
    rw [find_eq h' hkey, hlookup, Function.update_self, Option.getD_some]
  case forgets =>
    intro hne
    have hne : u.originalOrderRef.toNat ≠ u.newOrderRef.toNat :=
      fun heq => hne (UInt64.toNat.inj heq)
    rw [find_eq h' horig, hlookup, Function.update_of_ne hne, hremoved.lookup_eq,
      Function.update_self, Option.getD_none]
  case count =>
    -- The free list is what it was before.
    have hbefore := h.linked_ncard
    have hafter := h'.linked_ncard
    rw [hfree] at hafter
    omega
  case others =>
    intro a i' l' hl' y hy hyx
    obtain ⟨_, rfl⟩ := h.level_list_iff.mp hl'
    have hmem : y ∈ (lists' (some (a, i'))).filter (· ≠ x) := by
      rw [hrest]
      exact List.mem_filter.mpr ⟨hy, by simpa using hyx⟩
    have hy' := (List.mem_filter.mp hmem).1
    exact ⟨(hplaced.qty_other y hyx).trans (hremoved.qty y), _, h'.level_list_iff.mpr
      ⟨(h'.book a).lt_size (List.ne_nil_of_mem hy'), rfl⟩, hy', hrest _⟩
  case codes =>
    intro a bid' price' i' hi'
    by_cases ha : a = u.stockLocate.toNat
    · subst ha
      exact hplaced.keep _ _ _ ((hremoved.codes _ _).trans hi')
    · rw [hbooks, Function.update_of_ne ha]
      exact hi'

end Replace

/-- Take any stream of messages to any number of books, in which no reference is the empty key or
live in another book, whether or not it fills the pool and the table, and any replacement of an
order that is live in the book it is addressed to, by a reference that is not the empty key and not
live in another book. The replacement is carried out in full. -/
theorem replace_order_in_full (hash : Nat → Nat) {capacity refExp : Nat} (hexp : 1 ≤ refExp)
    {s₀ : Store} (hnew : Store.new capacity (2 ^ refExp) = some s₀) {msgs : List Message}
    (hok : Along (Store.step hash) Store.Admissible s₀ msgs) :
    ∃ s, run (Store.step hash) s₀ msgs = some s ∧ ∀ u : OrderReplace,
      (s.bookOf u.stockLocate.toNat).levels.size < 2 ^ 31 →
      s.LiveIn u.stockLocate.toNat u.originalOrderRef.toNat → u.newOrderRef.toNat ≠ kEmpty →
      (∀ locate, s.LiveIn locate u.newOrderRef.toNat → locate = u.stockLocate.toNat) →
      ∃ s' x i j bid, s.step hash (.orderReplace u) = some s' ∧
        ReplacedInFull hash s s' u x i j bid := by
  obtain ⟨s, hrun, lists, h⟩ := run_inv hexp hnew hok
  exact ⟨s, hrun, fun u hsize hlive hkey hother => replace_in_full h hsize hlive hkey hother⟩

/-- Two orders fill a pool of two slots and a table of four: the first of them is replaced by an
order below the window, on a level of its own. -/
theorem replace_order_in_full_at_capacity :
    ∃ s₀ s s' x i j bid, Store.new 2 (2 ^ 2) = some s₀ ∧ run (Store.step RefTable.hash) s₀
        [.add 1 10 kBid 5 1000000, .add 1 11 kBid 7 1000000] = some s ∧
      s.pool.freeHead = kNullIdx ∧ s.refs.size * 2 = s.refs.slots.size ∧
      s.step RefTable.hash (.replace 1 10 12 9 300) = some s' ∧
      ReplacedInFull RefTable.hash s s' ⟨1, 0, 0, 10, 12, 9, 300⟩ x i j bid := by
  have hread : (do
      let s₀ ← Store.new 2 (2 ^ 2)
      let s ← run (Store.step RefTable.hash) s₀
        [.add 1 10 kBid 5 1000000, .add 1 11 kBid 7 1000000]
      let lvl ← (s.bookOf 1).levels[512]?
      return ((s.pool.freeHead, s.refs.size * 2, s.refs.slots.size, (s.bookOf 1).levels.size),
        (s.refs.lookup 10, s.refs.lookup 12),
        (lvl.headIdx, (s.pool.get 0).nextIdx, (s.pool.get 1).nextIdx))) =
      some ((kNullIdx, 4, 4, 2048), (some 0, none), (0, 1, kNullIdx)) := by decide +kernel
  simp only [Option.bind_eq_bind, Option.bind_eq_some_iff, Option.pure_def, Option.some.injEq,
    Prod.mk.injEq] at hread
  obtain ⟨s₀, hnew, s, hrun, lvl, hlvl, ⟨hfree, hsize, hcapacity, hlevels⟩, ⟨hname, hother⟩, hhead,
    hnext, hlast⟩ := hread
  have hrouted : ∀ m ∈ [Message.add 1 10 kBid 5 1000000, .add 1 11 kBid 7 1000000],
      Routed (fun _ => 1) m := by
    unfold Routed
    decide
  have hok := (owned_new _ (by decide) hnew).along hrouted (inv_new RefTable.hash (by decide) hnew)
    fun locate => by simp [book_of_new hnew, OrderBook.new, kWindow]
  obtain ⟨s', hrun', hreplace⟩ := replace_order_in_full RefTable.hash (by decide) hnew
    (hok.imp fun s m h => h.1)
  obtain rfl := Option.some.inj (hrun'.symm.trans hrun)
  have hlist : s'.LevelList 1 512 [0, 1] := ⟨lvl, hlvl, by decide, hhead, hnext, hlast⟩
  have hsmall : (s'.bookOf 1).levels.size < 2 ^ 31 := by
    rw [hlevels]
    decide
  have hfresh : ∀ locate, s'.LiveIn locate 12 → locate = 1 := by
    intro locate hlive
    obtain ⟨x, _, _, hname', _⟩ := hlive
    rw [hother] at hname'
    cases hname'
  obtain ⟨s'', x, i, j, bid, hstep, hfull⟩ := hreplace ⟨1, 0, 0, 10, 12, 9, 300⟩ hsmall
    ⟨0, 512, [0, 1], hname, hlist, by decide⟩ (by decide) hfresh
  exact ⟨s₀, s', s'', x, i, j, bid, hnew, hrun, hfree, hsize.trans hcapacity.symm, hstep, hfull⟩

end FeedHandler.V3
