import FeedHandler.Foundations.Slots
import FeedHandler.V3.BookInvariant
import FeedHandler.V3.FreeList
import FeedHandler.V3.Store

/-!
# The invariant of the shared store

`Inv` ties the pool, the reference table and all books to one family of node lists: the free list
and a list for every level of every book. `place_spec`, `remove_order_spec` and `reduce_order_spec`
say what the handlers do with it.
-/

namespace FeedHandler.V3

open Itch OrderBook OrderPool Segments Slots

/-- The lists of a store: `none` is the free list, `some (locate, i)` a level of a book. -/
abbrev Lists := Option (Nat × Nat) → List Nat

/-- The invariant of the pool, the table and the books. A pool cannot use more than `kNullIdx` of
its slots; a book is exact while signed 32-bit numbers can hold its level indices. -/
structure Inv (hash : Nat → Nat) (capacity : Nat) (s : Shared) (books : Nat → OrderBook)
    (lists : Lists) : Prop where
  parts : Partitioned (min capacity kNullIdx) lists
  size_eq : s.pool.slots.size = capacity
  free : Seg (fun x => (s.pool.get x).nextIdx) s.pool.freeHead (lists none) kNullIdx
  book : ∀ locate, BookShape s.pool (books locate) fun i => lists (some (locate, i))
  exact : ∀ locate, (books locate).levels.size ≤ 2 ^ 31 →
    BookExact (books locate) fun i => lists (some (locate, i))
  refs : s.refs.WF hash
  named : ∀ ref x, s.refs.lookup ref = some x → ∃ locate i, x ∈ lists (some (locate, i))
  named_inj : ∀ ref ref' x, s.refs.lookup ref = some x → s.refs.lookup ref' = some x → ref = ref'

section Inv

variable {hash : Nat → Nat} {capacity : Nat} {s : Shared} {books : Nat → OrderBook} {lists : Lists}
  {locate i x : Nat} {l m : List Nat}

/-- The nodes on the lists are slots of the pool. -/
theorem Inv.lt_size (h : Inv hash capacity s books lists) {k : Option (Nat × Nat)}
    (hx : x ∈ lists k) : x < s.pool.slots.size ∧ x ≠ kNullIdx := by
  have := h.parts.lt k x hx
  have := h.size_eq
  omega

/-- Sublists of a list of the store are distinct nodes of the pool. -/
theorem Inv.nodes (h : Inv hash capacity s books lists) {k : Option (Nat × Nat)}
    (hk : lists k = l) :
    Nodes s.pool l := by
  subst hk
  exact ⟨h.parts.nodup k, fun x hx => (h.lt_size hx).1, fun hnull => (h.lt_size hnull).2 rfl⟩

/-- The nodes of one list are not on another one. -/
theorem Inv.apart (h : Inv hash capacity s books lists) {k k' : Option (Nat × Nat)} (hk : k ≠ k')
    {y : Nat} (hy : y ∈ lists k) : y ∉ lists k' := fun hy' => hk (h.parts.disjoint k k' y hy hy')

/-- The lists of a book after a node has come from the free list. -/
theorem move_from_free (lists : Lists) (locate i : Nat) (rest l : List Nat) :
    (fun j => move lists none (some (locate, i)) rest l (some (locate, j))) =
      Function.update (fun j => lists (some (locate, j))) i l := by
  funext j
  by_cases hj : j = i
  · rw [hj, move_dst, Function.update_self]
  · rw [move_other (by simp) (by simp [hj]), Function.update_of_ne hj]

/-- The lists of a book after a node has gone to the free list. -/
theorem move_to_free (lists : Lists) (locate i : Nat) (rest l : List Nat) :
    (fun j => move lists (some (locate, i)) none l rest (some (locate, j))) =
      Function.update (fun j => lists (some (locate, j))) i l := by
  funext j
  by_cases hj : j = i
  · rw [hj, move_src (by simp), Function.update_self]
  · rw [move_other (by simp [hj]) (by simp), Function.update_of_ne hj]

section Update

variable {p' : OrderPool} {b' : OrderBook} {lists' : Lists}

/-- After a change of one book the others keep their shape, as none of their nodes was touched. -/
theorem Inv.book_update (h : Inv hash capacity s books lists)
    (hother : ∀ k j, k ≠ locate → lists' (some (k, j)) = lists (some (k, j)))
    (hframe : ∀ k j, k ≠ locate → ∀ y ∈ lists (some (k, j)), p'.get y = s.pool.get y)
    (hbook : BookShape p' b' fun j => lists' (some (locate, j))) (k : Nat) :
    BookShape p' (Function.update books locate b' k) fun j => lists' (some (k, j)) := by
  by_cases hk : k = locate
  · subst hk
    rw [Function.update_self]
    exact hbook
  · rw [Function.update_of_ne hk]
    simp only [hother k _ hk]
    exact (h.book k).frame fun j y hy => hframe k j hk y hy

/-- After a change of one book the bits and best levels of the others still fit their lists. -/
theorem Inv.exact_update (h : Inv hash capacity s books lists)
    (hother : ∀ k j, k ≠ locate → lists' (some (k, j)) = lists (some (k, j)))
    (hexact : b'.levels.size ≤ 2 ^ 31 → BookExact b' fun j => lists' (some (locate, j))) (k : Nat)
    (hk : (Function.update books locate b' k).levels.size ≤ 2 ^ 31) :
    BookExact (Function.update books locate b' k) fun j => lists' (some (k, j)) := by
  by_cases hkl : k = locate
  · subst hkl
    rw [Function.update_self] at hk ⊢
    exact hexact hk
  · rw [Function.update_of_ne hkl] at hk ⊢
    simp only [hother k _ hkl]
    exact h.exact k hk

end Update

/-! ## The free list -/

theorem Inv.free_list (h : Inv hash capacity s books lists) : s.pool.FreeList (lists none) :=
  ⟨h.nodes rfl, h.free⟩

/-- The free list is empty exactly if its head is null. -/
theorem Inv.free_head_eq_null_iff (h : Inv hash capacity s books lists) :
    s.pool.freeHead = kNullIdx ↔ lists none = [] := h.free_list.free_head_eq_null_iff

/-- `allocate` takes the first free node. -/
theorem Inv.allocate (h : Inv hash capacity s books lists) {rest : List Nat}
    (hfree : lists none = x :: rest) :
    s.pool.allocate = some ({ s.pool with freeHead := (s.pool.get x).nextIdx }, x) ∧
      x ≠ kNullIdx ∧ FreeList { s.pool with freeHead := (s.pool.get x).nextIdx } rest := by
  have hlist := h.free_list
  rw [hfree] at hlist
  exact hlist.allocate_cons

end Inv

/-! ## Placing an order -/

/-- What `insert` can do to the table: refuse at half load, or map the reference. -/
structure Inserted (t t' : RefTable) (ref x : Nat) : Prop where
  capacity_eq : t'.slots.size = t.slots.size
  cases : (t.slots.size ≤ t.size * 2 ∧ t' = t) ∨
    (t.size * 2 < t.slots.size ∧ t'.lookup = Function.update t.lookup ref (some x) ∧
      t'.size = if t.lookup ref = none then t.size + 1 else t.size)

/-- What placing an order does besides the lists: the level it chooses has the order's side and
price, the node carries the order's shares, and the table is asked to map the reference. -/
structure Placed (s s' : Shared) (b b' : OrderBook) (x i ref price shares : Nat) (bid : Bool) :
    Prop where
  code : b'.levelOf bid price = some i
  keep : ∀ bid price j, b.levelOf bid price = some j → b'.levelOf bid price = some j
  levels_le : b'.levels.size ≤ b.levels.size + 1
  qty : (s'.pool.get x).qty = shares
  qty_other : ∀ y, y ≠ x → (s'.pool.get y).qty = (s.pool.get y).qty
  refs : Inserted s.refs s'.refs ref x

section Inserted

variable {t t' : RefTable} {ref x : Nat}

/-- A name after an insertion is the new one or was there before. -/
theorem Inserted.named_cases (h : Inserted t t' ref x) {P : Nat → Prop}
    (hnamed : ∀ ref x, t.lookup ref = some x → P x) {ref' y : Nat}
    (hy : t'.lookup ref' = some y) : (ref' = ref ∧ y = x) ∨ P y := by
  rcases h.cases with ⟨_, rfl⟩ | ⟨_, hmap, _⟩
  · exact .inr (hnamed ref' y hy)
  · rw [hmap, Function.update_apply] at hy
    split at hy
    next heq => exact .inl ⟨heq, (Option.some.inj hy).symm⟩
    next => exact .inr (hnamed ref' y hy)

/-- Inserting a node that has no name keeps names distinct. -/
theorem Inserted.named_inj (h : Inserted t t' ref x)
    (hinj : ∀ ref ref' y, t.lookup ref = some y → t.lookup ref' = some y → ref = ref')
    (hx : ∀ ref, t.lookup ref ≠ some x) (ref₁ ref₂ y : Nat) (h₁ : t'.lookup ref₁ = some y)
    (h₂ : t'.lookup ref₂ = some y) : ref₁ = ref₂ := by
  rcases h.cases with ⟨_, rfl⟩ | ⟨_, hmap, _⟩
  · exact hinj _ _ y h₁ h₂
  · rw [hmap, Function.update_apply] at h₁ h₂
    split at h₁ <;> split at h₂
    next heq heq' => exact heq.trans heq'.symm
    next =>
      cases h₁
      exact absurd h₂ (hx ref₂)
    next =>
      cases h₂
      exact absurd h₁ (hx ref₁)
    next => exact hinj _ _ y h₁ h₂

end Inserted

section Place

variable {hash : Nat → Nat} {capacity : Nat} {s : Shared} {books : Nat → OrderBook} {lists : Lists}
  {locate x ref price shares : Nat} {rest : List Nat} {side : UInt8}

theorem insert_cases {t : RefTable} (h : t.WF hash) (href : ref ≠ kEmpty) (x : Nat) :
    ∃ t', t.insert hash ref x = some t' ∧ t'.WF hash ∧ Inserted t t' ref x := by
  by_cases hfull : t.slots.size ≤ t.size * 2
  · exact ⟨t, RefTable.insert_refused x hfull, h, rfl, .inl ⟨hfull, rfl⟩⟩
  · obtain ⟨t', ht', hwf, hcap, hmap, hsize⟩ := RefTable.insert_spec h href x (by omega)
    exact ⟨t', ht', hwf, hcap, .inr ⟨by omega, hmap, hsize⟩⟩

/-- Without a free node nothing is placed. -/
theorem place_exhausted (h : Inv hash capacity s books lists) (hfree : lists none = [])
    (b : OrderBook) :
    b.placeOrder hash s ref price shares side = some (s, b) := by
  have hlist := h.free_list
  rw [hfree] at hlist
  simp only [placeOrder, hlist.allocate_nil, if_true, Option.bind_eq_bind, Option.bind_some]
  rfl

/-- The nodes of a level with a free node behind them. -/
theorem Inv.push_nodes (h : Inv hash capacity s books lists) (hx : x ∈ lists none) (i : Nat) :
    Nodes s.pool (lists (some (locate, i)) ++ [x]) where
  nodup := by
    refine List.nodup_append.mpr ⟨h.parts.nodup _, List.nodup_singleton x, fun y hy z hz => ?_⟩
    rw [List.mem_singleton.mp hz]
    exact fun heq => h.apart (by simp) hx (heq ▸ hy)
  lt_size := by
    intro y hy
    rcases List.mem_append.mp hy with hy | hy
    · exact (h.lt_size hy).1
    · exact List.mem_singleton.mp hy ▸ (h.lt_size hx).1
  ne_null := by
    intro hnull
    rcases List.mem_append.mp hnull with hnull | hnull
    · exact (h.lt_size hnull).2 rfl
    · exact (h.lt_size hx).2 (List.mem_singleton.mp hnull).symm

/-- The nodes of the other levels are not among them. -/
theorem Inv.push_apart (h : Inv hash capacity s books lists) (hx : x ∈ lists none) {i k j y : Nat}
    (hk : (k, j) ≠ (locate, i)) (hy : y ∈ lists (some (k, j))) :
    y ∉ lists (some (locate, i)) ++ [x] := by
  intro hmem
  rcases List.mem_append.mp hmem with hmem | hmem
  · exact h.apart (fun heq => hk (Option.some.inj heq)) hy hmem
  · rw [List.mem_singleton.mp hmem] at hy
    exact h.apart (by simp) hx hy

/-- The free list without its first node, when only that node and a level were written to. -/
theorem Inv.free_tail (h : Inv hash capacity s books lists) (hfree : lists none = x :: rest)
    {p' : OrderPool} {i : Nat} (hhead : p'.freeHead = (s.pool.get x).nextIdx)
    (htouched : Touched s.pool p' (lists (some (locate, i)) ++ [x])) : p'.FreeList rest := by
  obtain ⟨_, _, hrest⟩ := h.allocate hfree
  refine hrest.frame hhead htouched.size_eq fun y hy => ?_
  have hyfree : y ∈ lists none := hfree ▸ .tail _ hy
  have hyx : y ≠ x := fun heq => (List.nodup_cons.mp (hfree ▸ h.parts.nodup none)).1 (heq ▸ hy)
  rw [htouched.get_eq y]
  · rfl
  · rw [List.mem_append, List.mem_singleton]
    exact fun hor => hor.elim (h.apart (by simp) hyfree) hyx

/-- With a free node the order becomes the tail of the level of its side and price. -/
theorem place_spec (side : UInt8) (h : Inv hash capacity s books lists) (href : ref ≠ kEmpty)
    (hprice : price < 2 ^ 32) (hshares : shares < 2 ^ 32) (hfree : lists none = x :: rest) :
    ∃ s' b' i, (books locate).placeOrder hash s ref price shares side = some (s', b') ∧
      Inv hash capacity s' (Function.update books locate b')
        (move lists none (some (locate, i)) rest (lists (some (locate, i)) ++ [x])) ∧
      Placed s s' (books locate) b' x i ref price shares (isBid side) := by
  obtain ⟨halloc, hne, _⟩ := h.allocate hfree
  have hx : x ∈ lists none := hfree ▸ List.mem_cons_self
  -- First `level_for` may add a level to the book, which changes no list.
  obtain ⟨hext, hcode⟩ := level_for_spec side (h.book locate).sized hprice
  obtain ⟨pair, hpair⟩ : ∃ pair, (books locate).levelFor price side = pair := ⟨_, rfl⟩
  obtain ⟨b₁, i⟩ := pair
  simp only [hpair] at hext hcode
  have hbook : BookShape { s.pool with freeHead := (s.pool.get x).nextIdx } b₁ fun j =>
      lists (some (locate, j)) := ((h.book locate).extend hext).frame fun _ _ _ => rfl
  have hlt := hext.sized.level_lt hcode
  have hgrows := hext.size_le
  -- Then the node moves from the free list to the end of that level.
  have hparts : (lists none).Perm (x :: rest) := hfree ▸ List.Perm.refl _
  have hparts' : (lists (some (locate, i)) ++ [x]).Perm (x :: lists (some (locate, i))) :=
    List.perm_append_singleton _ _
  have hmoved := h.parts.move (by simp) hparts hparts'
  have hnodes : Nodes s.pool (lists (some (locate, i)) ++ [x]) := h.push_nodes hx i
  obtain ⟨levels, occupied, best, ask, pool, hlink, hbook', hexact, hlevels, htouched, hhead, hqty,
      hsame⟩ :=
    link_order_spec hbook hlt ⟨hnodes.nodup, hnodes.lt_size, hnodes.ne_null⟩
      (fun j hj y hy => h.push_apart hx (by simp [hj]) hy) hshares
  have hother : ∀ k j, k ≠ locate → move lists none (some (locate, i)) rest
      (lists (some (locate, i)) ++ [x]) (some (k, j)) = lists (some (k, j)) :=
    fun k j hk => move_other (by simp) (by simp [hk])
  -- Last the table maps the reference to the node, or refuses.
  obtain ⟨refs, hinsert, hwf, hrefs⟩ := insert_cases h.refs href x
  refine ⟨⟨pool, refs⟩, b₁.relevel levels occupied best ask, i, ?run,
    { parts := hmoved
      size_eq := htouched.size_eq.trans h.size_eq
      free := ?free
      book := h.book_update hother (fun k j hk y hy => ?frame) ?book
      exact := h.exact_update hother fun hk => ?exact
      refs := hwf
      named := ?named
      named_inj := ?named_inj },
    ⟨hcode, hext.keep, hlevels.trans_le hgrows.2, hqty, hsame, hrefs⟩⟩
  case run =>
    simp only [placeOrder, halloc, if_neg hne, hpair, hlink, hinsert, Option.bind_eq_bind,
      Option.bind_some]
    rfl
  case free =>
    rw [move_src (by simp)]
    exact (h.free_tail hfree hhead ⟨htouched.size_eq, htouched.get_eq⟩).path
  case frame => exact htouched.get_eq y (h.push_apart hx (by simp [hk]) hy)
  case book =>
    rw [move_from_free]
    exact hbook'
  case exact =>
    rw [move_from_free]
    have hk : levels.size ≤ 2 ^ 31 := hk
    exact hexact ((h.exact locate (by omega)).extend (by omega) hext) (by omega)
      ⟨_, _, hprice, hcode⟩
  case named =>
    intro ref' y hy
    rcases hrefs.named_cases h.named hy with ⟨_, rfl⟩ | ⟨k, j, hmem⟩
    · exact ⟨locate, i, (h.parts.mem_move (by simp) hparts hparts' _ _).mpr (.inl ⟨rfl, rfl⟩)⟩
    · refine ⟨k, j, (h.parts.mem_move (by simp) hparts hparts' _ _).mpr (.inr ⟨?_, hmem⟩)⟩
      intro hequal
      subst hequal
      exact h.apart (by simp) hx hmem
  case named_inj =>
    refine hrefs.named_inj h.named_inj fun ref' hname => ?_
    obtain ⟨k, j, hmem⟩ := h.named ref' x hname
    exact h.apart (by simp) hx hmem

end Place

/-! ## Removing and reducing an order -/

/-- What removing an order does besides the lists. -/
structure Removed (s s' : Shared) (b b' : OrderBook) (ref : Nat) : Prop where
  codes : ∀ bid price, b'.levelOf bid price = b.levelOf bid price
  levels_eq : b'.levels.size = b.levels.size
  qty : ∀ y, (s'.pool.get y).qty = (s.pool.get y).qty
  capacity_eq : s'.refs.slots.size = s.refs.slots.size
  lookup_eq : s'.refs.lookup = Function.update s.refs.lookup ref none
  size_eq : s.refs.size = s'.refs.size + 1

section Remove

variable {hash : Nat → Nat} {capacity : Nat} {s : Shared} {books : Nat → OrderBook} {lists : Lists}
  {locate i x ref : Nat} {l m : List Nat}

/-- A table that has forgotten the reference of a node names the other nodes as before. -/
theorem Inv.named_of_forgotten (h : Inv hash capacity s books lists) {refs : RefTable}
    (hname : s.refs.lookup ref = some x)
    (hmap : refs.lookup = Function.update s.refs.lookup ref none) {ref' y : Nat}
    (hy : refs.lookup ref' = some y) : y ≠ x ∧ s.refs.lookup ref' = some y := by
  rw [hmap, Function.update_apply] at hy
  split at hy
  next => cases hy
  next hne => exact ⟨fun heq => hne (h.named_inj _ _ x (heq ▸ hy) hname), hy⟩

/-- An order that the table names leaves its level, the pool gets its node back and the table
forgets it. -/
theorem remove_order_spec (h : Inv hash capacity s books lists)
    (hname : s.refs.lookup ref = some x) (hlist : lists (some (locate, i)) = l ++ x :: m) :
    ∃ s' b', (books locate).removeOrder hash s ref x = some (s', b') ∧
      Inv hash capacity s' (Function.update books locate b')
        (move lists (some (locate, i)) none (l ++ m) (x :: lists none)) ∧
      Removed s s' (books locate) b' ref := by
  have hx : x ∈ lists (some (locate, i)) := by simp [hlist]
  have hnodes := h.nodes hlist
  have hparts : (lists (some (locate, i))).Perm (x :: (l ++ m)) := hlist ▸ List.perm_middle
  have hmoved := h.parts.move (b := none) (by simp) hparts (List.Perm.refl (x :: lists none))
  obtain ⟨levels, occupied, best, ask, pool, hunlink, hbook, hexact, hlevels, htouched, hhead,
      hqty⟩ :=
    unlink_order_spec (h.book locate) hlist hnodes fun j hj y hy =>
      hlist ▸ h.apart (by simp [hj]) hy
  have hi := (h.book locate).lt_size (List.ne_nil_of_mem hx)
  have hsub : ∀ y, y ∈ l ++ m → y ∈ lists (some (locate, i)) := by
    intro y hy
    rw [hparts.mem_iff]
    exact .tail _ hy
  have hlist' : pool.FreeList (lists none) := by
    refine h.free_list.frame hhead htouched.size_eq fun y hy => ?_
    rw [htouched.get_eq y fun hmem => h.apart (by simp) (hsub y hmem) hy]
  obtain ⟨pool', hrelease, hsize', hfree, hget, hqty'⟩ := hlist'.release
    (htouched.size_eq.symm ▸ hnodes.lt_size x (by simp)) (h.lt_size hx).2 (h.apart (by simp) hx)
  have hother : ∀ k j, k ≠ locate → move lists (some (locate, i)) none (l ++ m)
      (x :: lists none) (some (k, j)) = lists (some (k, j)) :=
    fun k j hk => move_other (by simp [hk]) (by simp)
  obtain ⟨refs, herase, hwf, hcap, hmap, hcount⟩ := RefTable.erase_spec h.refs hname
  refine ⟨⟨pool', refs⟩, (books locate).relevel levels occupied best ask, ?run,
    { parts := hmoved
      size_eq := (hsize'.trans htouched.size_eq).trans h.size_eq
      free := ?free
      book := h.book_update hother (fun k j hk y hy => ?frame) ?book
      exact := h.exact_update hother fun hk => ?exact
      refs := hwf
      named := ?named
      named_inj := ?named_inj },
    ⟨fun _ _ => rfl, hlevels, fun y => (hqty' y).trans (hqty y), hcap, hmap, hcount⟩⟩
  case run =>
    simp only [removeOrder, hunlink, hrelease, herase, Option.bind_eq_bind, Option.bind_some]
    rfl
  case free =>
    rw [move_dst]
    exact hfree.path
  case frame =>
    have hne : some (k, j) ≠ some (locate, i) := by simp [hk]
    have hyx : y ≠ x := fun heq => h.apart hne hy (heq ▸ hx)
    rw [hget y hyx, htouched.get_eq y fun hmem => h.apart hne hy (hsub y hmem)]
  case book =>
    -- `release` writes to the removed node, which no level of the book holds any more.
    rw [move_to_free]
    refine hbook.frame fun j y hy => hget y ?_
    intro hsame
    subst hsame
    by_cases hj : j = i
    · rw [hj, Function.update_self] at hy
      exact (List.nodup_cons.mp (List.nodup_middle.mp hnodes.nodup)).1 hy
    · rw [Function.update_of_ne hj] at hy
      exact h.apart (by simp [hj]) hy hx
  case exact =>
    rw [move_to_free]
    have hk : levels.size ≤ 2 ^ 31 := hk
    exact hexact (h.exact locate (by omega)) (by omega)
  case named =>
    intro ref' y hy
    obtain ⟨hne, hy⟩ := h.named_of_forgotten hname hmap hy
    obtain ⟨k, j, hmem⟩ := h.named ref' y hy
    exact ⟨k, j, (h.parts.mem_move (by simp) hparts (List.Perm.refl _) _ _).mpr
      (.inr ⟨hne, hmem⟩)⟩
  case named_inj =>
    intro ref₁ ref₂ y h₁ h₂
    exact h.named_inj _ _ y (h.named_of_forgotten hname hmap h₁).2
      (h.named_of_forgotten hname hmap h₂).2

/-- A partial execution changes a quantity in the node and in its level. -/
theorem reduce_order_spec (h : Inv hash capacity s books lists)
    (hlist : lists (some (locate, i)) = l ++ x :: m) {qty : Nat} (hqty : qty ≤ (s.pool.get x).qty) :
    ∃ lvl, (books locate).levels[i]? = some lvl ∧
      Inv hash capacity { s with pool := s.pool.write x fun o => { o with qty := sub32 o.qty qty } }
        (Function.update books locate { books locate with
          levels := (books locate).levels.setIfInBounds i
            { lvl with totalQty := sub32 lvl.totalQty qty } }) lists := by
  have hx : x ∈ lists (some (locate, i)) := by simp [hlist]
  have hnodes := h.nodes hlist
  have hget := get_write (f := fun o => { o with qty := sub32 o.qty qty })
    (hnodes.lt_size x (by simp))
  obtain ⟨lvl, hlvl, hbook⟩ := reduce_level_spec (h.book locate) hlist hnodes
    (fun j hj y hy => hlist ▸ h.apart (by simp [hj]) hy) hqty
  have hfree : (s.pool.write x fun o => { o with qty := sub32 o.qty qty }).FreeList
      (lists none) := by
    refine h.free_list.frame rfl size_write fun y _ => ?_
    rw [hget]
    split <;> rfl
  refine ⟨lvl, hlvl, h.parts, ?_, hfree.path, h.book_update (fun _ _ _ => rfl) ?_ hbook,
    h.exact_update (fun _ _ _ => rfl) fun hk => ?_, h.refs, h.named, h.named_inj⟩
  · exact size_write.trans h.size_eq
  · intro k j hk y hy
    rw [hget, if_neg fun heq => h.apart (by simp [hk]) hy (heq ▸ hx)]
  · have hsize : ((books locate).levels.setIfInBounds i
        { lvl with totalQty := sub32 lvl.totalQty qty }).size = (books locate).levels.size := by
      simp
    exact (h.exact locate (hsize ▸ hk)).set_levels hsize

end Remove

end FeedHandler.V3
