import FeedHandler.V3.Reachable

/-!
# The hash function does not matter

Where `ref_table.hpp` puts its entries depends on the hash function. `hash_independent` says that
nothing else does: with any two hash functions a stream of messages leaves the same nodes, levels
and books, and tables of one size that map references alike, however full they are.
-/

namespace FeedHandler.V3

open Itch OrderBook Runs

variable {hash hash' : Nat → Nat}

/-- Two tables that map references alike, with entries where their hash functions put them. -/
structure RefTable.Alike (hash hash' : Nat → Nat) (t t' : RefTable) : Prop where
  wf : t.WF hash
  wf' : t'.WF hash'
  lookup_eq : t.lookup = t'.lookup
  size_eq : t.size = t'.size
  capacity_eq : t.slots.size = t'.slots.size

/-- One pool, and tables alike. -/
structure Shared.Alike (hash hash' : Nat → Nat) (s s' : Shared) : Prop where
  pool_eq : s.pool = s'.pool
  refs : s.refs.Alike hash hash' s'.refs

/-- One pool, the same books, and tables alike. -/
structure Store.Alike (hash hash' : Nat → Nat) (s s' : Store) : Prop where
  shared : s.toShared.Alike hash hash' s'.toShared
  books_eq : s.books = s'.books

/-- What a handler leaves: a book, and the rest alike. -/
def AlikeResults (hash hash' : Nat → Nat) (r r' : Shared × OrderBook) : Prop :=
  r.1.Alike hash hash' r'.1 ∧ r.2 = r'.2

section Table

variable {t t' : RefTable} {key value x : Nat}

theorem RefTable.Alike.find (h : t.Alike hash hash' t') (hkey : key ≠ kEmpty) :
    t.find hash key = t'.find hash' key := by
  rw [RefTable.find_spec h.wf hkey, RefTable.find_spec h.wf' hkey, h.lookup_eq]

theorem RefTable.Alike.insert (h : t.Alike hash hash' t') (hkey : key ≠ kEmpty) (value : Nat) :
    Option.Rel (RefTable.Alike hash hash') (t.insert hash key value)
      (t'.insert hash' key value) := by
  have hsize := h.size_eq
  have hcapacity := h.capacity_eq
  by_cases hfull : t.slots.size ≤ t.size * 2
  · rw [RefTable.insert_refused value hfull, RefTable.insert_refused value (by omega)]
    exact .some h
  · obtain ⟨u, hu, hwf, hcap, hmap, hcount⟩ := RefTable.insert_spec h.wf hkey value (by omega)
    obtain ⟨u', hu', hwf', hcap', hmap', hcount'⟩ :=
      RefTable.insert_spec h.wf' hkey value (by omega)
    rw [hu, hu']
    refine .some ⟨hwf, hwf', ?_, ?_, ?_⟩
    · rw [hmap, hmap', h.lookup_eq]
    · rw [hcount, hcount', h.lookup_eq, hsize]
    · rw [hcap, hcap', hcapacity]

theorem RefTable.Alike.erase (h : t.Alike hash hash' t') (hkey : t.lookup key = some value) :
    Option.Rel (RefTable.Alike hash hash') (t.erase hash key) (t'.erase hash' key) := by
  obtain ⟨u, hu, hwf, hcap, hmap, hcount⟩ := RefTable.erase_spec h.wf hkey
  obtain ⟨u', hu', hwf', hcap', hmap', hcount'⟩ :=
    RefTable.erase_spec h.wf' (h.lookup_eq ▸ hkey)
  have hsize := h.size_eq
  rw [hu, hu']
  refine .some ⟨hwf, hwf', ?_, by omega, ?_⟩
  · rw [hmap, hmap', h.lookup_eq]
  · rw [hcap, hcap', h.capacity_eq]

/-- What is found is in the table. -/
theorem RefTable.Alike.lookup_of_find (h : t.Alike hash hash' t') (hkey : key ≠ kEmpty)
    (hfind : t.find hash key = some x) (hx : x ≠ kNullIdx) : t.lookup key = some x := by
  rw [RefTable.find_spec h.wf hkey, Option.some.injEq] at hfind
  cases hlookup : t.lookup key with
  | none =>
      rw [hlookup] at hfind
      exact absurd hfind.symm hx
  | some y =>
      rw [hlookup] at hfind
      exact congrArg some hfind

end Table

section Handlers

variable {s s' : Shared} {ref x price shares : Nat} {m : Message}

theorem Shared.Alike.remove (h : s.Alike hash hash' s') (b : OrderBook)
    (hname : s.refs.lookup ref = some x) :
    Option.Rel (AlikeResults hash hash') (b.removeOrder hash s ref x)
      (b.removeOrder hash' s' ref x) := by
  simp only [removeOrder, h.pool_eq, Option.bind_eq_bind]
  cases b.unlinkOrder s'.pool x with
  | none => exact .none
  | some unlinked =>
      simp only [Option.bind_some]
      cases unlinked.2.release x with
      | none => exact .none
      | some pool =>
          simp only [Option.bind_some]
          refine rel_bind (h.refs.erase hname) fun _ _ hrefs => ?_
          exact .some ⟨⟨rfl, hrefs⟩, rfl⟩

theorem Shared.Alike.place (h : s.Alike hash hash' s') (b : OrderBook) (href : ref ≠ kEmpty)
    (price shares : Nat) (side : UInt8) :
    Option.Rel (AlikeResults hash hash') (b.placeOrder hash s ref price shares side)
      (b.placeOrder hash' s' ref price shares side) := by
  simp only [placeOrder, h.pool_eq, Option.bind_eq_bind]
  cases s'.pool.allocate with
  | none => exact .none
  | some allocated =>
      simp only [Option.bind_some]
      split
      next => exact .some ⟨⟨rfl, h.refs⟩, rfl⟩
      next =>
        cases (b.levelFor price side).1.linkOrder allocated.1 (b.levelFor price side).2 allocated.2
          shares with
        | none => exact .none
        | some linked =>
            simp only [Option.bind_some]
            refine rel_bind (h.refs.insert href _) fun _ _ hrefs => ?_
            exact .some ⟨⟨rfl, hrefs⟩, rfl⟩

theorem Shared.Alike.reduce (h : s.Alike hash hash' s') (b : OrderBook) (href : ref ≠ kEmpty)
    (shares : Nat) :
    Option.Rel (AlikeResults hash hash') (b.reduceOrder hash s ref shares)
      (b.reduceOrder hash' s' ref shares) := by
  simp only [reduceOrder, ← h.refs.find href, ← h.pool_eq, Option.bind_eq_bind]
  cases hfind : s.refs.find hash ref with
  | none => exact .none
  | some x =>
      simp only [Option.bind_some]
      split
      next => exact .some ⟨h, rfl⟩
      next hx =>
        cases s.pool.slots[x]? with
        | none => exact .none
        | some o =>
            simp only [Option.bind_some]
            split
            next => exact h.remove b (h.refs.lookup_of_find href hfind hx)
            next =>
              cases b.levels[o.levelIdx]? with
              | none => exact .none
              | some lvl =>
                  cases s.pool.modify x _ with
                  | none => exact .none
                  | some pool => exact .some ⟨⟨rfl, h.refs⟩, rfl⟩

theorem Shared.Alike.apply (h : s.Alike hash hash' s') (b : OrderBook)
    (hkeys : kEmpty ∉ m.refs) :
    Option.Rel (AlikeResults hash hash') (b.apply hash s m) (b.apply hash' s' m) := by
  have hkey : ∀ {ref}, ref ∈ m.refs → ref ≠ kEmpty := fun hmem heq => hkeys (heq ▸ hmem)
  cases m with
  | addOrder m => exact h.place b (hkey (by simp [Message.refs])) _ _ _
  | orderExecuted m => exact h.reduce b (hkey (by simp [Message.refs])) _
  | orderCancel m => exact h.reduce b (hkey (by simp [Message.refs])) _
  | orderDelete m =>
      have href : m.orderRef.toNat ≠ kEmpty := hkey (by simp [Message.refs])
      simp only [OrderBook.apply, deleteOrder, ← h.refs.find href, Option.bind_eq_bind]
      cases hfind : s.refs.find hash m.orderRef.toNat with
      | none => exact .none
      | some x =>
          simp only [Option.bind_some]
          split
          next => exact .some ⟨h, rfl⟩
          next hx => exact h.remove b (h.refs.lookup_of_find href hfind hx)
  | orderReplace m =>
      have href : m.originalOrderRef.toNat ≠ kEmpty := hkey (by simp [Message.refs])
      simp only [OrderBook.apply, replaceOrder, ← h.refs.find href, ← h.pool_eq,
        Option.bind_eq_bind]
      cases hfind : s.refs.find hash m.originalOrderRef.toNat with
      | none => exact .none
      | some x =>
          simp only [Option.bind_some]
          split
          next => exact .some ⟨h, rfl⟩
          next hx =>
            cases s.pool.slots[x]? with
            | none => exact .none
            | some o =>
                simp only [Option.bind_some]
                cases b.sideOf o.levelIdx with
                | none => exact .none
                | some side =>
                    simp only [Option.bind_some]
                    refine rel_bind (h.remove b (h.refs.lookup_of_find href hfind hx)) ?_
                    intro r r' hr
                    obtain ⟨halike, hbook⟩ := hr
                    rw [hbook]
                    exact halike.place r'.2 (hkey (by simp [Message.refs])) _ _ _

end Handlers

/-- One message leaves stores alike alike. -/
theorem Store.Alike.step {s s' : Store} {m : Message} (h : s.Alike hash hash' s')
    (hkeys : kEmpty ∉ m.refs) :
    Option.Rel (Store.Alike hash hash') (s.step hash m) (s'.step hash' m) := by
  have hbook : s.bookOf = s'.bookOf := by
    funext locate
    rw [Store.bookOf, Store.bookOf, h.books_eq]
  simp only [Store.step, hbook]
  refine rel_bind (h.shared.apply _ hkeys) fun r r' hr => .some ⟨hr.1, ?_⟩
  rw [h.books_eq, hr.2]

/-- Take any stream of messages that do not name the empty key, with any two hash functions. Either
both runs go wrong, or both leave the same pool and the same books, and tables of one size in which
every reference has the same node, whether the pool and the table have filled up or not. -/
theorem hash_independent (hash hash' : Nat → Nat) {capacity refExp : Nat} (hexp : 1 ≤ refExp)
    {s : Store} (hnew : Store.new capacity (2 ^ refExp) = some s) {msgs : List Message}
    (hkeys : ∀ m ∈ msgs, kEmpty ∉ m.refs) :
    Option.Rel (fun r r' => r.pool = r'.pool ∧ r.books = r'.books ∧
        r.refs.lookup = r'.refs.lookup ∧ r.refs.size = r'.refs.size)
      (run (Store.step hash) s msgs) (run (Store.step hash') s msgs) := by
  have hstart : s.Alike hash hash' s :=
    ⟨⟨rfl, (inv_new hash hexp hnew).refs, (inv_new hash' hexp hnew).refs, rfl, rfl, rfl⟩, rfl⟩
  have hstep : ∀ (r r' : Store) (m : Message), r.Alike hash hash' r' → kEmpty ∉ m.refs →
      Option.Rel (Store.Alike hash hash') (r.step hash m) (r'.step hash' m) :=
    fun _ _ _ halike hm => halike.step hm
  have hrun := run_rel hstep hstart hkeys
  cases hs : run (Store.step hash) s msgs <;> cases hs' : run (Store.step hash') s msgs <;>
    rw [hs, hs'] at hrun <;> cases hrun
  · exact .none
  next h =>
    exact .some ⟨h.shared.pool_eq, h.books_eq, h.shared.refs.lookup_eq, h.shared.refs.size_eq⟩

/-- The same books when every reference has the same home. -/
theorem hash_independent_one_home :
    ∃ s r r', Store.new 4 (2 ^ 3) = some s ∧
      run (Store.step RefTable.hash) s
        [.add 1 10 kBid 5 1000000, .add 1 11 0x53 5 1000100, .delete 1 10] = some r ∧
      run (Store.step fun _ => 0) s
        [.add 1 10 kBid 5 1000000, .add 1 11 0x53 5 1000100, .delete 1 10] = some r' ∧
      r.books = r'.books := by
  have hread : (do
      let s ← Store.new 4 (2 ^ 3)
      let _ ← run (Store.step RefTable.hash) s
        [.add 1 10 kBid 5 1000000, .add 1 11 0x53 5 1000100, .delete 1 10]
      run (Store.step fun _ => 0) s
        [.add 1 10 kBid 5 1000000, .add 1 11 0x53 5 1000100, .delete 1 10]).isSome := by
    decide +kernel
  simp only [Option.bind_eq_bind, Option.isSome_iff_exists, Option.bind_eq_some_iff] at hread
  obtain ⟨r', s, hnew, r, hrun, hrun'⟩ := hread
  have hsame := hash_independent RefTable.hash (fun _ => 0) (by decide) hnew
    (show ∀ m ∈ [Message.add 1 10 kBid 5 1000000, .add 1 11 0x53 5 1000100, .delete 1 10],
      kEmpty ∉ m.refs by decide)
  rw [hrun, hrun', Option.rel_some_some] at hsame
  exact ⟨s, r, r', hnew, hrun, hrun', hsame.2.1⟩

end FeedHandler.V3
