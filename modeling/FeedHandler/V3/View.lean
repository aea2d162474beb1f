import FeedHandler.Book.TopOfBook
import FeedHandler.V3.Reachable

/-!
# The v3 book follows the orders

`viewOf` is what can be seen of one book of the shared store. `Effect.moves` says that the effect of
a message on its book is a move of an order book, provided the pool and the table have room;
`Store.Follows.step` that a store whose books show orders goes on to show them.
-/

namespace FeedHandler.V3

open Itch Book OrderBook Slots

open Classical in
/-- What can be seen of a book whose levels hold the given lists. -/
noncomputable def viewOf (s : Shared) (b : OrderBook) (q : Nat → List Nat) : View Nat where
  queue bid price := match b.levelOf bid price with
    | some i => q i
    | none => []
  shares x := (s.pool.get x).qty
  named ref := (s.refs.lookup ref).filter fun x => ∃ i, x ∈ q i

section View

variable {s s' : Shared} {b b' : OrderBook} {q q' : Nat → List Nat} {x y i ref price shares : Nat}
  {bid : Bool} {l k : List Nat}

theorem named_iff : (viewOf s b q).named ref = some x ↔
    s.refs.lookup ref = some x ∧ ∃ i, x ∈ q i := by
  simp [viewOf, Option.filter_eq_some_iff]

theorem named_eq_none (h : s.refs.lookup ref = none) : (viewOf s b q).named ref = none := by
  simp [viewOf, h]

/-- The names in two states agree if the entries and the nodes they point to do. -/
theorem named_congr (hlookup : s'.refs.lookup ref = s.refs.lookup ref)
    (hmem : ∀ x, s.refs.lookup ref = some x → ((∃ i, x ∈ q' i) ↔ ∃ i, x ∈ q i)) :
    (viewOf s' b' q').named ref = (viewOf s b q).named ref := by
  ext x
  rw [named_iff, named_iff, hlookup]
  exact and_congr_right fun hname => hmem x hname

theorem queue_of_level (h : b.levelOf bid price = some i) :
    (viewOf s b q).queue bid price = q i := by
  simp only [viewOf, h]

theorem queue_of_no_level (h : b.levelOf bid price = none) :
    (viewOf s b q).queue bid price = [] := by
  simp only [viewOf, h]

/-- Only nodes on the lists are in a queue. -/
theorem mem_of_mem_queue (h : x ∈ (viewOf s b q).queue bid price) : ∃ i, x ∈ q i := by
  cases hi : b.levelOf bid price with
  | none =>
      rw [queue_of_no_level hi] at h
      cases h
  | some i =>
      rw [queue_of_level hi] at h
      exact ⟨i, h⟩

/-- Choosing a level for a side and a price leaves the queues as they are. -/
theorem queue_extend (hexact : BookExact b q) (hcoded : b'.Coded)
    (hkeep : ∀ bid price j, b.levelOf bid price = some j → b'.levelOf bid price = some j)
    (bid : Bool) (price : Nat) :
    (viewOf s' b' q).queue bid price = (viewOf s b q).queue bid price := by
  cases hi : b.levelOf bid price with
  | some i => rw [queue_of_level hi, queue_of_level (hkeep bid price i hi)]
  | none =>
      rw [queue_of_no_level hi]
      cases hj : b'.levelOf bid price with
      | none => exact queue_of_no_level hj
      | some j =>
          -- an order on the level would be of this side and price
          rw [queue_of_level hj]
          by_contra hne
          obtain ⟨bid', price', _, hold⟩ := hexact.priced j hne
          obtain ⟨rfl, rfl⟩ := hcoded.level_inj hj (hkeep bid' price' j hold)
          rw [hi] at hold
          cases hold

/-- Another list for one level changes one queue. -/
theorem queue_update (hcoded : b.Coded) (hi : b.levelOf bid price = some i) (b₁ : Bool) (p : Nat) :
    (viewOf s b (Function.update q i l)).queue b₁ p =
      if b₁ = bid ∧ p = price then l else (viewOf s b q).queue b₁ p := by
  cases hj : b.levelOf b₁ p with
  | none =>
      rw [queue_of_no_level hj, queue_of_no_level hj, if_neg]
      intro h
      obtain ⟨rfl, rfl⟩ := h
      rw [hi] at hj
      cases hj
  | some j =>
      rw [queue_of_level hj, queue_of_level hj]
      by_cases hji : j = i
      · subst hji
        rw [if_pos (hcoded.level_inj hj hi), Function.update_self]
      · rw [Function.update_of_ne hji, if_neg]
        intro h
        obtain ⟨rfl, rfl⟩ := h
        exact hji (Option.some.inj (hj.symm.trans hi))

/-- Placing an order adds its node. -/
theorem Placed.added (h : Placed s s' b b' x i ref price shares bid) (hexact : BookExact b q)
    (hcoded : b'.Coded) (hx : ∀ j, x ∉ q j) (hunnamed : ∀ r, s.refs.lookup r ≠ some x)
    (hroom : s.refs.size * 2 < s.refs.slots.size) :
    (viewOf s b q).Added (viewOf s' b' (Function.update q i (q i ++ [x]))) x ref bid
      price shares where
  fresh b₁ p hmem := by
    obtain ⟨j, hj⟩ := mem_of_mem_queue hmem
    exact hx j hj
  queue_eq b₁ p := by
    have hsame : (viewOf s' b' q).queue b₁ p = (viewOf s b q).queue b₁ p :=
      queue_extend hexact hcoded h.keep b₁ p
    rw [queue_update hcoded h.code, ← hsame]
    split
    next heq => rw [heq.1, heq.2, queue_of_level h.code]
    next => rfl
  shares_self := h.qty
  shares_other := h.qty_other
  named_self := by
    rcases h.refs.cases with ⟨hfull, _⟩ | ⟨_, hmap, _⟩
    · omega
    · exact named_iff.mpr ⟨by rw [hmap, Function.update_self], i, by simp⟩
  named_other r hr := by
    refine named_congr (h.refs.lookup_eq hr) fun y hy => ?_
    have hyx : y ≠ x := fun heq => hunnamed r (heq ▸ hy)
    refine exists_congr fun j => ?_
    by_cases hj : j = i
    · subst hj
      simp [hyx]
    · rw [Function.update_of_ne hj]

/-- Removing an order removes its node. -/
theorem Removed.removed (h : Removed s s' b b' ref) (hname : s.refs.lookup ref = some x)
    (hinj : ∀ r, s.refs.lookup r = some x → r = ref) (hlist : q i = l ++ x :: k)
    (hnodup : (l ++ x :: k).Nodup) (hother : ∀ j, j ≠ i → x ∉ q j) :
    (viewOf s b q).Removed (viewOf s' b' (Function.update q i (l ++ k))) ref x := by
  have hfilter : (l ++ x :: k).filter (· ≠ x) = l ++ k := by
    obtain ⟨hxlk, _⟩ := List.nodup_cons.mp (List.nodup_middle.mp hnodup)
    rw [List.mem_append, not_or] at hxlk
    have hkeep : ∀ m : List Nat, x ∉ m → m.filter (· ≠ x) = m := fun m hm =>
      List.filter_eq_self.mpr fun y hy => by simpa using ne_of_mem_of_not_mem hy hm
    rw [List.filter_append, List.filter_cons_of_neg (by simp), hkeep l hxlk.1, hkeep k hxlk.2]
  refine ⟨named_iff.mpr ⟨hname, i, by simp [hlist]⟩, fun b₁ p => ?_, fun y _ => h.qty y, ?_,
    fun r hr => ?_⟩
  · cases hj : b.levelOf b₁ p with
    | none =>
        rw [queue_of_no_level hj, queue_of_no_level ((h.codes b₁ p).trans hj), List.filter_nil]
    | some j =>
        rw [queue_of_level hj, queue_of_level ((h.codes b₁ p).trans hj)]
        by_cases hji : j = i
        · subst hji
          rw [Function.update_self, hlist, hfilter]
        · rw [Function.update_of_ne hji]
          exact (List.filter_eq_self.mpr fun y hy => by
            simpa using ne_of_mem_of_not_mem hy (hother j hji)).symm
  · exact named_eq_none (by rw [h.lookup_eq, Function.update_self])
  · refine named_congr (h.lookup_of_ne hr) fun y hy => ?_
    have hyx : y ≠ x := fun heq => hr (hinj r (heq ▸ hy))
    refine exists_congr fun j => ?_
    by_cases hj : j = i
    · subst hj
      rw [Function.update_self, hlist]
      simp [hyx]
    · rw [Function.update_of_ne hj]

end View

section Moves

variable {hash : Nat → Nat} {capacity : Nat} {s : Store} {lists lists' : Lists} {m : Message}
  {s' : Shared} {b' : OrderBook} {x i j : Nat} {rest l k : List Nat}

/-- The lists of a book. -/
def bookLists (lists : Lists) (locate i : Nat) : List Nat := lists (some (locate, i))

/-- What can be seen of a book of the store. -/
noncomputable def Store.view (s : Store) (lists : Lists) (locate : Nat) : View Nat :=
  viewOf s.toShared (s.bookOf locate) (bookLists lists locate)

theorem book_lists_from_free (lists : Lists) (locate i : Nat) (rest l : List Nat) :
    bookLists (move lists none (some (locate, i)) rest l) locate =
      Function.update (bookLists lists locate) i l :=
  move_from_free lists locate i rest l

theorem book_lists_to_free (lists : Lists) (locate i : Nat) (rest l : List Nat) :
    bookLists (move lists (some (locate, i)) none l rest) locate =
      Function.update (bookLists lists locate) i l :=
  move_to_free lists locate i rest l

/-- A free node has no name. -/
theorem Inv.unnamed (h : Inv hash capacity s.toShared s.bookOf lists) (hx : x ∈ lists none)
    (ref : Nat) : s.refs.lookup ref ≠ some x := by
  intro hname
  obtain ⟨locate, i, hmem⟩ := h.named ref x hname
  exact h.apart (by simp) hx hmem

/-- A node that has left its level is on none of the book's levels. -/
theorem Inv.gone (h : Inv hash capacity s.toShared s.bookOf lists) {locate : Nat}
    (hlist : lists (some (locate, i)) = l ++ x :: k) (j : Nat) :
    x ∉ Function.update (bookLists lists locate) i (l ++ k) j := by
  by_cases hj : j = i
  · subst hj
    have hnodup := hlist ▸ h.parts.nodup (some (locate, j))
    rw [Function.update_self]
    exact (List.nodup_cons.mp (List.nodup_middle.mp hnodup)).1
  · have hx : x ∈ lists (some (locate, i)) := hlist ▸ List.mem_append_right l List.mem_cons_self
    rw [Function.update_of_ne hj]
    exact h.apart (by simp [Ne.symm hj]) hx

/-- The effect of a message is a move of its book. -/
theorem Effect.moves (h : Inv hash capacity s.toShared s.bookOf lists)
    (hexact : BookExact (s.bookOf m.stockLocate) (bookLists lists m.stockLocate))
    (hcoded : b'.Coded) (hsize : (s.bookOf m.stockLocate).levels.size ≤ 2 ^ 31)
    (hroom : ∀ a, m = .addOrder a → lists none ≠ [] ∧ s.refs.size * 2 < s.refs.slots.size)
    (heffect : Effect m.stockLocate s.toShared (s.bookOf m.stockLocate) lists m s' b' lists') :
    (s.view lists m.stockLocate).Moves (viewOf s' b' (bookLists lists' m.stockLocate)) m := by
  have hhalf := h.refs.half
  have happart : ∀ {j : Option (Nat × Nat)} {i y}, j ≠ some (m.stockLocate, i) → y ∈ lists j →
      y ∉ bookLists lists m.stockLocate i := fun hj hy => h.apart hj hy
  cases heffect with
  | ignored hm hname =>
      exact .ignored hm (named_eq_none hname) ⟨rfl, fun _ _ _ _ => rfl, rfl⟩
  -- With room in the pool an addition is not dropped.
  | dropped hfree => exact absurd hfree (hroom _ rfl).1
  | @placed a x i rest _ _ hfree hplaced =>
      have hx : x ∈ lists none := hfree ▸ List.mem_cons_self
      rw [book_lists_from_free]
      exact .added (hplaced.added hexact hcoded (fun j => happart (by simp) hx) (h.unnamed hx)
        (hroom a rfl).2)
  | @reduced _ ref qty x i _ _ hm hqty hname hx hlt hcodes hlevels hleft hother hrefs =>
      refine .reduced hm hqty hlt ⟨named_iff.mpr ⟨hname, i, hx⟩, ?_, hleft, hother, ?_⟩
      · funext bid price
        simp only [Store.view, viewOf, hcodes]
      · simp only [Store.view, viewOf, hrefs]
  | @removed _ ref x i l k _ _ hm hname hall hlist hremoved =>
      have hx : x ∈ lists (some (m.stockLocate, i)) := by simp [hlist]
      rw [book_lists_to_free]
      exact .removed hm hall (hremoved.removed hname (fun r hr => h.named_inj r ref x hr hname)
        hlist (hlist ▸ h.parts.nodup _) fun j hj => happart (by simp [hj.symm]) hx)
  | @replaced u x i j c l k s₁ _ b₁ _ lists₁ hname hlist hside hremoved hlists hexact₁ hplaced =>
      have hx : x ∈ lists (some ((Message.orderReplace u).stockLocate, i)) := by simp [hlist]
      -- The side that `side_of` reads off the old level is the one of the replaced order.
      obtain ⟨bid, price, _, hlevel⟩ := hexact.priced i (List.ne_nil_of_mem hx)
      obtain ⟨c', hside', hbid⟩ := hexact.coded.side_of hlevel
      obtain rfl := Option.some.inj (hside'.symm.trans hside)
      have hnodup := hlist ▸ h.parts.nodup (some ((Message.orderReplace u).stockLocate, i))
      have hq₁ : (fun i => lists₁ (some ((Message.orderReplace u).stockLocate, i))) =
          Function.update (bookLists lists (Message.orderReplace u).stockLocate) i (l ++ k) := by
        rw [← book_lists_to_free lists _ i (x :: lists none), hlists]
        rfl
      -- A replacement is a removal, whose view is in the middle, and a placement.
      have hleave := hremoved.removed hname (fun r hr => h.named_inj r _ x hr hname)
        (q := bookLists lists (Message.orderReplace u).stockLocate) hlist hnodup
        fun j hj => happart (by simp [hj.symm]) hx
      have hexact₁ := hexact₁ (hremoved.levels_eq.trans_le hsize)
      rw [hq₁] at hexact₁
      have hjoin := hplaced.added hexact₁ hcoded (fun j => ?_) (fun r hr => ?_) ?_
      · subst hbid
        have hmem : x ∈ (s.view lists (Message.orderReplace u).stockLocate).queue (isBid c')
            price := by
          rw [Store.view, queue_of_level hlevel]
          exact hx
        have hlists' : bookLists lists₁ (Message.orderReplace u).stockLocate = _ := hq₁
        have hlast : lists₁ (some ((Message.orderReplace u).stockLocate, j)) = _ := congrFun hq₁ j
        rw [book_lists_from_free, hlists', hlast]
        exact .replaced hmem hleave hjoin
      · exact h.gone hlist j
      · rw [hremoved.lookup_eq, Function.update_apply] at hr
        split at hr
        next => cases hr
        next hne => exact hne (h.named_inj r _ x hr hname)
      · -- The removal has left room in the table.
        have := hremoved.size_eq
        have := hremoved.capacity_eq
        omega

/-- The other books look the same after a message. -/
theorem Effect.same {s' : Store} (h : Inv hash capacity s.toShared s.bookOf lists)
    (hok : Admitted s lists m)
    (hbooks : s'.bookOf = Function.update s.bookOf m.stockLocate (s'.bookOf m.stockLocate))
    (heffect : Effect m.stockLocate s.toShared (s.bookOf m.stockLocate) lists m s'.toShared
      (s'.bookOf m.stockLocate) lists') {k : Nat} (hk : k ≠ m.stockLocate) :
    (s.view lists k).Same (s'.view lists' k) := by
  have hbook : s'.bookOf k = s.bookOf k := by rw [hbooks, Function.update_of_ne hk]
  have hframe := heffect.frame h hok hk
  have hlists : bookLists lists' k = bookLists lists k := funext fun i => (hframe i).1
  refine ⟨?_, fun bid price x hx => ?_, ?_⟩
  · simp only [Store.view, hbook, hlists]
    rfl
  · obtain ⟨i, hi⟩ := mem_of_mem_queue hx
    exact ((hframe i).2 x hi).1
  · funext ref
    ext x
    simp only [Store.view, hbook, hlists, named_iff]
    refine and_congr_left ?_
    intro hgiven
    obtain ⟨i, hi⟩ := hgiven
    exact ((hframe i).2 x hi).2 ref

/-- The slots of a side and a price, from the head of its level on. -/
def Store.LevelAt (s : Store) (locate : Nat) (bid : Bool) (price : Nat) (l : List Nat) : Prop :=
  match (s.bookOf locate).levelOf bid price with
  | some i => s.LevelList locate i l
  | none => l = []

/-- The live orders of a book: what the table, the lists and the pool say about each reference. -/
def Store.live (s : Store) (locate : Nat) : Set Order :=
  {o | ∃ ref x l, o.ref = some ref ∧ s.refs.lookup ref = some x ∧
    s.LevelAt locate o.bid o.price l ∧ x ∈ l ∧ (s.pool.get x).qty = o.shares}

/-- The queue that a book shows is found along the links. -/
theorem level_at_iff (h : Inv hash capacity s.toShared s.bookOf lists) {locate : Nat} {bid : Bool}
    {price : Nat} {l : List Nat} :
    s.LevelAt locate bid price l ↔ l = (s.view lists locate).queue bid price := by
  rw [Store.LevelAt, Store.view]
  cases hi : (s.bookOf locate).levelOf bid price with
  | none => rw [queue_of_no_level hi]
  | some i =>
      rw [queue_of_level hi]
      exact h.level_list_iff.trans (and_iff_right ((h.book locate).sized.level_lt hi))

/-- The live orders are those that can be seen. -/
theorem Inv.live_eq (h : Inv hash capacity s.toShared s.bookOf lists) (locate : Nat) :
    s.live locate = (s.view lists locate).live := by
  ext o
  constructor
  · intro hgiven
    obtain ⟨ref, x, l, href, hname, hl, hx, hqty⟩ := hgiven
    obtain rfl := (level_at_iff h).mp hl
    exact ⟨ref, x, href, named_iff.mpr ⟨hname, mem_of_mem_queue hx⟩, hx, hqty⟩
  · intro hgiven
    obtain ⟨ref, x, href, hname, hx, hqty⟩ := hgiven
    exact ⟨ref, x, _, href, (named_iff.mp hname).1, (level_at_iff h).mpr rfl, hx, hqty⟩

/-- An addition finds a free slot and a table below half load. -/
def Store.HasSpace (s : Store) : Message → Prop
  | .addOrder _ => s.pool.freeHead ≠ kNullIdx ∧ s.refs.size * 2 < s.refs.slots.size
  | _ => True

instance (s : Store) : (m : Message) → Decidable (s.HasSpace m)
  | .addOrder _ => inferInstanceAs
      (Decidable (s.pool.freeHead ≠ kNullIdx ∧ s.refs.size * 2 < s.refs.slots.size))
  | .orderExecuted _ | .orderCancel _ | .orderDelete _ | .orderReplace _ => isTrue trivial

/-- The books of a store show the given orders. -/
structure Store.Follows (hash : Nat → Nat) (capacity : Nat) (s : Store) (lists : Lists)
    (os : Nat → Orders) : Prop where
  inv : Inv hash capacity s.toShared s.bookOf lists
  exact : ∀ locate, BookExact (s.bookOf locate) (bookLists lists locate)
  shows : ∀ locate, (s.view lists locate).Follows (os locate)

/-- Before the first message there are no orders. -/
theorem Store.follows_new {refExp : Nat} (hexp : 1 ≤ refExp)
    (hnew : Store.new capacity (2 ^ refExp) = some s) :
    s.Follows hash capacity (initialLists capacity) fun _ => [] where
  inv := inv_new hash hexp hnew
  exact locate := by
    rw [book_of_new hnew]
    exact book_exact_new
  shows locate := View.follows_nil
    (fun bid price => List.eq_nil_iff_forall_not_mem.mpr fun x hx => by
      obtain ⟨_, hi⟩ := mem_of_mem_queue hx
      cases hi)
    fun ref => named_eq_none (lookup_new hexp hnew ref)

/-- A message that has room and meets small books changes the orders of its book. -/
theorem Store.Follows.step {os : Nat → Orders} (h : s.Follows hash capacity lists os)
    (hok : Admitted s lists m) (hsmall : s.Small) (hspace : s.HasSpace m) :
    ∃ s' lists', s.step hash m = some s' ∧ s'.Follows hash capacity lists'
      (Function.update os m.stockLocate ((os m.stockLocate).apply m)) := by
  obtain ⟨s', lists', hs', h', hbooks, heffect⟩ := step_spec h.inv hok
  have hexact : ∀ k, BookExact (s'.bookOf k) (bookLists lists' k) := by
    refine fun k => h'.exact k ?_
    by_cases hk : k = m.stockLocate
    · exact hk ▸ heffect.levels_le.trans (hsmall _)
    · rw [hbooks, Function.update_of_ne hk]
      exact Nat.le_of_lt (hsmall k)
  refine ⟨s', lists', hs', h', hexact, fun k => ?_⟩
  by_cases hk : k = m.stockLocate
  · subst hk
    rw [Function.update_self]
    refine (h.shows _).step (heffect.moves h.inv (h.exact _) (hexact _).coded
      (Nat.le_of_lt (hsmall _)) fun a ha => ?_)
    subst ha
    obtain ⟨hhead, hlt⟩ := hspace
    exact ⟨mt h.inv.free_head_eq_null_iff.mpr hhead, hlt⟩
  · rw [Function.update_of_ne hk]
    exact (h.shows k).congr (heffect.same h.inv hok hbooks hk)

end Moves

end FeedHandler.V3
