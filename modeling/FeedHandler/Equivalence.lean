import FeedHandler.V1.Refinement
import FeedHandler.V3.TopOfBook

/-!
# The v1 and the v3 books agree

What `tests/v3/test_v1_v3_equivalence.cpp` checks on a file, for every stream: `v3_simulates_v1`
says that the two sets of books answer every question alike after every message. Both follow the
same orders (`Store.Follows`), and `Equivalent` is what the orders determine.
-/

namespace FeedHandler

open Itch Book Runs V3

/-- The table finds the slot of a reference. -/
def V3.Store.Finds (hash : Nat → Nat) (s : V3.Store) (ref x : Nat) : Prop :=
  s.refs.find hash ref = some x ∧ x ≠ kNullIdx

/-- The shares along the list of a side and a price of a v1 book. -/
def V1.OrderBook.sharesAt (b : V1.OrderBook) (bid : Bool) (price : Nat) : List Nat :=
  (b.queue bid price).map b.view.shares

/-- An execution or a cancellation takes no more than remains. -/
def V3.Store.Within (s : V3.Store) (m : Message) : Prop :=
  ∀ ref ∈ m.target, ∀ qty ∈ m.taken, ∀ x ∈ s.refs.lookup ref, qty ≤ (s.pool.get x).qty

instance (s : V3.Store) (m : Message) : Decidable (s.Within m) :=
  inferInstanceAs (Decidable (∀ ref ∈ m.target, ∀ qty ∈ m.taken, ∀ x ∈ s.refs.lookup ref,
    qty ≤ (s.pool.get x).qty))

/-- A message that both versions are made for. -/
structure Regular (s : V3.Store) (m : Message) : Prop extends s.Admissible m where
  small : s.Small
  within : s.Within m
  space : s.HasSpace m

/-- The two sets of books answer every question alike: which references resolve, in which book, the
remaining shares along each list, the place of each reference in it, and the top of book. -/
structure Equivalent (hash : Nat → Nat) (s : V3.Store) (t : V1.Store) : Prop where
  resolves : ∀ ref, ref ≠ kEmpty → ((∃ x, s.Finds hash ref x) ↔
    ∃ locate loc, (t.bookOf locate).refIndex.find? ref = some loc)
  live : ∀ locate ref, s.LiveIn locate ref ↔
    ∃ loc, (t.bookOf locate).refIndex.find? ref = some loc
  queues : ∀ locate bid price, ∃ l, s.LevelAt locate bid price l ∧
    l.map (fun x => (s.pool.get x).qty) = (t.bookOf locate).sharesAt bid price ∧
    ∀ ref (n : Nat), ref ≠ kEmpty → ((∃ x, s.Finds hash ref x ∧ l[n]? = some x) ↔
      ∃ loc, (t.bookOf locate).refIndex.find? ref = some loc ∧
        ((t.bookOf locate).queue bid price)[n]? = some loc.it)
  best : ∀ locate, (s.bookOf locate).bestBidAsk = some (t.bookOf locate).bestBidAsk

section Equivalence

variable {hash : Nat → Nat} {capacity : Nat} {s : V3.Store} {t : V1.Store} {lists : Lists}
  {os : Nat → Orders} {m : Message} {locate ref x : Nat}

/-- What the table finds is what it holds. -/
theorem finds_iff (h : Inv hash capacity s.toShared s.bookOf lists) (href : ref ≠ kEmpty) :
    s.Finds hash ref x ↔ s.refs.lookup ref = some x := by
  rw [V3.Store.Finds, RefTable.find_spec h.refs href, Option.some.injEq]
  cases hname : s.refs.lookup ref with
  | none => simp [eq_comm]
  | some y =>
      obtain ⟨_, _, hy⟩ := h.named ref y hname
      have hne : y ≠ kNullIdx := (h.lt_size hy).2
      rw [Option.getD_some, Option.some.injEq]
      constructor
      · exact And.left
      · intro heq
        subst heq
        exact ⟨rfl, hne⟩

/-- The references a v1 book shows are those of its index. -/
theorem v1_named_iff {b : V1.OrderBook} {x : Nat} :
    b.view.named ref = some x ↔ ∃ loc, b.refIndex.find? ref = some loc ∧ loc.it = x :=
  Option.map_eq_some_iff

theorem v1_is_some_iff {b : V1.OrderBook} :
    (b.view.named ref).isSome ↔ ∃ loc, b.refIndex.find? ref = some loc := by
  rw [V1.OrderBook.view, Option.isSome_map, Option.isSome_iff_exists]

/-- The references a v3 book shows are those live in it. -/
theorem live_in_iff_named (h : Inv hash capacity s.toShared s.bookOf lists) :
    s.LiveIn locate ref ↔ ((s.view lists locate).named ref).isSome := by
  rw [h.live_in_iff, Option.isSome_iff_exists]
  refine exists_congr fun x => ?_
  rw [V3.Store.view, named_iff, exists_and_left]
  rfl

/-- A reference resolves if it is live in some book. -/
theorem finds_iff_live (h : Inv hash capacity s.toShared s.bookOf lists) (href : ref ≠ kEmpty) :
    (∃ x, s.Finds hash ref x) ↔ ∃ locate, s.LiveIn locate ref := by
  simp only [finds_iff h href, h.live_in_iff]
  constructor
  · intro hgiven
    obtain ⟨x, hname⟩ := hgiven
    obtain ⟨k, i, hx⟩ := h.named ref x hname
    exact ⟨k, x, i, hname, hx⟩
  · intro hgiven
    obtain ⟨_, x, _, hname, _⟩ := hgiven
    exact ⟨x, hname⟩

/-- The orders determine the answers. -/
theorem equivalent_of_follows (h : s.Follows hash capacity lists os) (h' : t.Follows os) :
    Equivalent hash s t := by
  have hlive : ∀ locate ref, s.LiveIn locate ref ↔
      ∃ loc, (t.bookOf locate).refIndex.find? ref = some loc := by
    intro locate ref
    obtain ⟨_, hnamed, _⟩ := (h.shows locate).same_queues (h' locate).2
    rw [live_in_iff_named h.inv, hnamed, v1_is_some_iff]
  refine ⟨fun ref href => ?_, hlive, fun locate bid price => ?_, fun locate => ?_⟩
  · rw [finds_iff_live h.inv href]
    exact exists_congr fun locate => hlive locate ref
  · obtain ⟨hqueue, _, hplace⟩ := (h.shows locate).same_queues (h' locate).2
    refine ⟨_, (level_at_iff h.inv).mpr rfl, hqueue bid price, fun ref n href => ?_⟩
    have hplace := hplace ref bid price n
    simp only [v1_named_iff] at hplace
    constructor
    · intro hgiven
      obtain ⟨x, hx, hn⟩ := hgiven
      have hx := (finds_iff h.inv href).mp hx
      have hmem := mem_of_mem_queue (List.mem_of_getElem? hn)
      obtain ⟨y, ⟨loc, hloc, rfl⟩, hy⟩ := hplace.mp ⟨x, named_iff.mpr ⟨hx, hmem⟩, hn⟩
      exact ⟨loc, hloc, hy⟩
    · intro hgiven
      obtain ⟨loc, hloc, hn⟩ := hgiven
      obtain ⟨x, hx, hn⟩ := hplace.mpr ⟨loc.it, ⟨loc, hloc, rfl⟩, hn⟩
      exact ⟨x, (finds_iff h.inv href).mpr (named_iff.mp hx).1, hn⟩
  · obtain ⟨r, hr, htop⟩ := h.best locate
    rw [hr, htop.unique (h'.best locate)]

/-- A regular message keeps both versions with the same orders. -/
theorem Regular.step (hok : Regular s m) (h : s.Follows hash capacity lists os)
    (h' : t.Follows os) :
    ∃ s' t', s.step hash m = some s' ∧ t.step m = some t' ∧ ∃ lists' os',
      s'.Follows hash capacity lists' os' ∧ t'.Follows os' := by
  obtain ⟨s', lists', hs', hfollows⟩ :=
    h.step (hok.toAdmissible.admitted h.inv) hok.small hok.space
  have hwithin : (os m.stockLocate).Within m := by
    intro ref qty o hm hqty ho
    have hshares := (h.shows m.stockLocate).named_shares ref
    rw [ho, Option.map_some, eq_comm, Option.map_eq_some_iff] at hshares
    obtain ⟨x, hx, heq⟩ := hshares
    exact heq ▸ hok.within ref hm qty hqty x (named_iff.mp hx).1
  obtain ⟨t', ht', hfollows'⟩ := h'.step hwithin
  exact ⟨s', t', hs', ht', lists', _, hfollows, hfollows'⟩

/-- v3 simulates v1. Take any stream of messages that is regular for the v3 books, run once through
the v1 books and once through the v3 books, which share a pool and a reference table. After every
message the two sets of books answer every question alike. -/
theorem v3_simulates_v1 (hash : Nat → Nat) {refExp : Nat} (hexp : 1 ≤ refExp)
    (hnew : V3.Store.new capacity (2 ^ refExp) = some s)
    {msgs : List Message} (hok : Along (V3.Store.step hash) Regular s msgs)
    {seen : List Message} (hseen : seen <+: msgs) :
    ∃ s' t', run (V3.Store.step hash) s seen = some s' ∧ run V1.Store.step ∅ seen = some t' ∧
      Equivalent hash s' t' := by
  obtain ⟨rest, rfl⟩ := hseen
  have hok := (along_append.mp hok).1
  have hstep : ∀ (s : V3.Store) (t : V1.Store) (m : Message),
      (∃ lists os, s.Follows hash capacity lists os ∧ t.Follows os) → Regular s m → True →
      ∃ s' t', s.step hash m = some s' ∧ t.step m = some t' ∧ ∃ lists os,
        s'.Follows hash capacity lists os ∧ t'.Follows os := by
    intro s t m hgiven hok _
    obtain ⟨lists, os, h, h'⟩ := hgiven
    exact hok.step h h'
  obtain ⟨s', t', hs', ht', lists, os, h, h'⟩ :=
    run_simulates hstep ⟨_, _, V3.Store.follows_new hexp hnew, V1.Store.follows_new⟩ hok
      (along_of_forall (fun _ _ => trivial) _)
  exact ⟨s', t', hs', ht', equivalent_of_follows h h'⟩

/-- A bid outside of the window of its book, an ask at a sub-penny price of another book, an
execution, a replacement and a deletion. -/
theorem v3_simulates_v1_two_books :
    ∃ s s' t', V3.Store.new 4 (2 ^ 3) = some s ∧
      run (V3.Store.step RefTable.hash) s [.add 1 10 kBid 5 10000, .add 1 11 kBid 7 900000000,
        .add 2 20 0x53 6 10001, .execute 1 10 2, .replace 1 11 12 9 10000, .delete 2 20] =
          some s' ∧
      run V1.Store.step ∅ [.add 1 10 kBid 5 10000, .add 1 11 kBid 7 900000000,
        .add 2 20 0x53 6 10001, .execute 1 10 2, .replace 1 11 12 9 10000, .delete 2 20] =
          some t' ∧
      Equivalent RefTable.hash s' t' := by
  obtain ⟨msgs, hmsgs⟩ : ∃ msgs : List Message, [.add 1 10 kBid 5 10000,
    .add 1 11 kBid 7 900000000, .add 2 20 0x53 6 10001, .execute 1 10 2, .replace 1 11 12 9 10000,
    .delete 2 20] = msgs := ⟨_, rfl⟩
  obtain ⟨s, hnew⟩ : ∃ s, V3.Store.new 4 (2 ^ 3) = some s := ⟨_, rfl⟩
  have hrouted : ∀ m ∈ msgs, Routed (fun ref => ref / 10) m := by
    subst hmsgs
    unfold Routed
    decide
  have hok := (owned_new _ (by decide) hnew).along hrouted (inv_new RefTable.hash (by decide) hnew)
    fun locate => by subst hmsgs; simp [book_of_new hnew, OrderBook.new, kWindow]
  have hspace : Along (V3.Store.step RefTable.hash) (fun s m => s.Within m ∧ s.HasSpace m) s
      msgs := by
    subst hmsgs
    cases hnew
    decide +kernel
  obtain ⟨s', t', hs', ht', hequiv⟩ := v3_simulates_v1 RefTable.hash (by decide) hnew
    ((hok.and hspace).imp fun _ _ h => ⟨h.1.1, h.1.2, h.2.1, h.2.2⟩) (List.prefix_refl msgs)
  rw [hmsgs]
  exact ⟨s, s', t', hnew, hs', ht', hequiv⟩

end Equivalence

end FeedHandler
