import FeedHandler.V3.Frames

/-!
# The reachable states of the shared store

`Store.Admissible` is what a stream of messages has to respect: references that are unique across
the books. Read `representation_invariant` first: every state that such a stream reaches satisfies
`Inv`, which ties the pool, the table and the books together.
-/

namespace FeedHandler.V3

open Itch OrderBook Runs Segments Slots

namespace Store

/-- The slots of a level, from its head along the successors. -/
def LevelList (s : Store) (locate i : Nat) (l : List Nat) : Prop :=
  ∃ lvl, (s.bookOf locate).levels[i]? = some lvl ∧ kNullIdx ∉ l ∧
    Seg (fun x => (s.pool.get x).nextIdx) lvl.headIdx l kNullIdx

/-- A reference is live in a book: its slot is on a level of the book. -/
def LiveIn (s : Store) (locate ref : Nat) : Prop :=
  ∃ x i l, s.refs.lookup ref = some x ∧ s.LevelList locate i l ∧ x ∈ l

/-- A message that a stream may contain: no reference is the empty key or live in another book. -/
structure Admissible (s : Store) (m : Message) : Prop where
  keys : ∀ ref ∈ m.refs, ref ≠ kEmpty
  own : ∀ ref ∈ m.refs, ∀ locate, s.LiveIn locate ref → locate = m.stockLocate

/-- All books are of a size that signed 32-bit level indices can address. -/
def Small (s : Store) : Prop := ∀ locate, (s.bookOf locate).levels.size < 2 ^ 31

end Store

section Reachable

variable {hash : Nat → Nat} {capacity : Nat} {s : Store} {lists : Lists} {m : Message}

/-- The lists of the invariant are those found along the links. -/
theorem Inv.level_list_iff (h : Inv hash capacity s.toShared s.bookOf lists) {locate i : Nat}
    {l : List Nat} :
    s.LevelList locate i l ↔ i < (s.bookOf locate).levels.size ∧ l = lists (some (locate, i)) := by
  constructor
  · intro hgiven
    obtain ⟨lvl, hlvl, hnull, hseg⟩ := hgiven
    obtain ⟨hlt, _⟩ := Array.getElem?_eq_some_iff.mp hlvl
    have hlist := ((h.book locate).queue i lvl hlvl).lists.forward
    exact ⟨hlt, hseg.unique hlist hnull fun hmem => (h.lt_size hmem).2 rfl⟩
  · intro hgiven
    obtain ⟨hlt, rfl⟩ := hgiven
    have hlvl := Array.getElem?_eq_getElem hlt
    exact ⟨_, hlvl, fun hmem => (h.lt_size hmem).2 rfl,
      ((h.book locate).queue i _ hlvl).lists.forward⟩

/-- A reference is live in a book if the table maps it to a node on one of its lists. -/
theorem Inv.live_in_iff (h : Inv hash capacity s.toShared s.bookOf lists) {locate ref : Nat} :
    s.LiveIn locate ref ↔ ∃ x i, s.refs.lookup ref = some x ∧ x ∈ lists (some (locate, i)) := by
  constructor
  · intro hgiven
    obtain ⟨x, i, l, hname, hlist, hx⟩ := hgiven
    exact ⟨x, i, hname, (h.level_list_iff.mp hlist).2 ▸ hx⟩
  · intro hgiven
    obtain ⟨x, i, hname, hx⟩ := hgiven
    exact ⟨x, i, _, hname,
      h.level_list_iff.mpr ⟨(h.book locate).lt_size (List.ne_nil_of_mem hx), rfl⟩, hx⟩

/-- The conditions of a message, on the lists of the invariant. -/
theorem Store.Admissible.admitted (hok : s.Admissible m)
    (h : Inv hash capacity s.toShared s.bookOf lists) : Admitted s lists m where
  keys := hok.keys
  own ref href x locate i hname hx := hok.own ref href locate (h.live_in_iff.mpr ⟨x, i, hname, hx⟩)

/-- The lists before the first message: the free list holds every usable slot. -/
def initialLists (capacity : Nat) : Lists
  | none => List.range (min capacity kNullIdx)
  | some _ => []

/-- Books are created empty. -/
theorem book_of_new {refCapacity : Nat} (hnew : Store.new capacity refCapacity = some s)
    (locate : Nat) : s.bookOf locate = OrderBook.new := by
  simp only [Store.new, Option.bind_eq_bind, Option.bind_eq_some_iff, Option.pure_def,
    Option.some.injEq] at hnew
  obtain ⟨_, _, rfl⟩ := hnew
  rfl

/-- The invariant holds before the first message. -/
theorem inv_new (hash : Nat → Nat) {refExp : Nat} (hexp : 1 ≤ refExp)
    (hnew : Store.new capacity (2 ^ refExp) = some s) :
    Inv hash capacity s.toShared s.bookOf (initialLists capacity) := by
  have hpos : 0 < capacity := by
    rw [Nat.pos_iff_ne_zero]
    intro heq
    subst heq
    simp [Store.new, OrderPool.new] at hnew
  obtain ⟨pool, hpool, hsize, hfree⟩ := OrderPool.free_list_new hpos
  simp only [Store.new, hpool, Option.bind_eq_bind, Option.bind_some, Option.pure_def,
    Option.some.injEq] at hnew
  subst hnew
  obtain ⟨hwf, hlookup⟩ := RefTable.new_spec hash hexp
  refine ⟨⟨fun k => ?_, fun k k' x hx hx' => ?_, fun k x hx => ?_, fun x hx => ?_⟩, hsize,
    hfree.path, fun locate => book_shape_new _, fun locate _ => book_exact_new, hwf, ?_, ?_⟩
  · cases k with
    | none => exact hfree.nodup
    | some _ => exact List.nodup_nil
  · cases k <;> cases k' <;> first | rfl | cases hx | cases hx'
  · cases k with
    | none => exact List.mem_range.mp hx
    | some _ => cases hx
  · exact ⟨none, List.mem_range.mpr hx⟩
  · intro ref x hname
    rw [hlookup] at hname
    cases hname
  · intro ref ref' x hname
    rw [hlookup] at hname
    cases hname

/-- The table is empty before the first message. -/
theorem lookup_new {refExp : Nat} (hexp : 1 ≤ refExp)
    (hnew : Store.new capacity (2 ^ refExp) = some s) (ref : Nat) : s.refs.lookup ref = none := by
  cases hname : s.refs.lookup ref with
  | none => rfl
  | some x =>
      obtain ⟨_, _, hmem⟩ := (inv_new id hexp hnew).named ref x hname
      cases hmem

/-- One message. -/
theorem step_inv (h : Inv hash capacity s.toShared s.bookOf lists) (hok : s.Admissible m) :
    ∃ s' lists', s.step hash m = some s' ∧ Inv hash capacity s'.toShared s'.bookOf lists' ∧
      ∀ locate, (s'.bookOf locate).levels.size ≤ (s.bookOf locate).levels.size + 1 := by
  obtain ⟨s', lists', hs', h', hbooks, heffect⟩ := step_spec h (hok.admitted h)
  refine ⟨s', lists', hs', h', fun locate => ?_⟩
  by_cases hl : locate = m.stockLocate
  · exact hl ▸ heffect.levels_le
  · rw [hbooks, Function.update_of_ne hl]
    omega

/-- Every stream runs to its end and keeps the invariant. -/
theorem run_inv {refExp : Nat} (hexp : 1 ≤ refExp)
    (hnew : Store.new capacity (2 ^ refExp) = some s) {msgs : List Message}
    (hok : Along (Store.step hash) Store.Admissible s msgs) :
    ∃ s', run (Store.step hash) s msgs = some s' ∧
      ∃ lists, Inv hash capacity s'.toShared s'.bookOf lists := by
  have hstep : ∀ (s : Store) m, (∃ lists, Inv hash capacity s.toShared s.bookOf lists) →
      s.Admissible m → ∃ s', s.step hash m = some s' ∧
        ∃ lists, Inv hash capacity s'.toShared s'.bookOf lists := by
    intro s m hgiven hok
    obtain ⟨lists, h⟩ := hgiven
    obtain ⟨s', lists', hs', h', _⟩ := step_inv h hok
    exact ⟨s', hs', lists', h'⟩
  exact run_invariant hstep ⟨_, inv_new hash hexp hnew⟩ hok

/-- The books of a stream stay small enough to be exact. -/
theorem run_small {refExp : Nat} (hexp : 1 ≤ refExp)
    (hnew : Store.new capacity (2 ^ refExp) = some s) {msgs : List Message}
    (hok : Along (Store.step hash) (fun s m => s.Admissible m ∧ s.Small) s msgs) :
    ∃ s', run (Store.step hash) s msgs = some s' ∧
      (∃ lists, Inv hash capacity s'.toShared s'.bookOf lists) ∧
      ∀ locate, (s'.bookOf locate).levels.size ≤ 2 ^ 31 := by
  have hstep : ∀ (s : Store) m, (∃ lists, Inv hash capacity s.toShared s.bookOf lists) ∧
      (∀ locate, (s.bookOf locate).levels.size ≤ 2 ^ 31) → s.Admissible m ∧ s.Small →
      ∃ s', s.step hash m = some s' ∧
        (∃ lists, Inv hash capacity s'.toShared s'.bookOf lists) ∧
        ∀ locate, (s'.bookOf locate).levels.size ≤ 2 ^ 31 := by
    intro s m hstate hmsg
    obtain ⟨⟨lists, h⟩, _⟩ := hstate
    obtain ⟨hok, hsmall⟩ := hmsg
    obtain ⟨s', lists', hs', h', hle⟩ := step_inv h hok
    exact ⟨s', hs', ⟨lists', h'⟩, fun locate => (hle locate).trans (hsmall locate)⟩
  refine run_invariant hstep ⟨⟨_, inv_new hash hexp hnew⟩, fun locate => ?_⟩ hok
  rw [book_of_new hnew]
  simp [OrderBook.new, kWindow]

/-! ## Streams that carry the book of each reference -/

/-- A message whose references belong to its book. -/
def Routed (owner : Nat → Nat) (m : Message) : Prop :=
  ∀ ref ∈ m.refs, ref ≠ kEmpty ∧ owner ref = m.stockLocate

/-- References are live in the books they belong to. -/
def Owned (owner : Nat → Nat) (s : Store) : Prop :=
  ∀ locate ref, s.LiveIn locate ref → owner ref = locate

theorem owned_new (owner : Nat → Nat) {refExp : Nat} (hexp : 1 ≤ refExp)
    (hnew : Store.new capacity (2 ^ refExp) = some s) : Owned owner s := by
  intro locate ref h
  obtain ⟨x, _, _, hname, _⟩ := h
  rw [lookup_new hexp hnew] at hname
  cases hname

theorem Owned.admissible {owner : Nat → Nat} (h : Owned owner s) (hm : Routed owner m) :
    s.Admissible m where
  keys ref href := (hm ref href).1
  own ref href locate hlive := (h locate ref hlive).symm.trans (hm ref href).2

/-- A message keeps references in their books. -/
theorem Owned.step {owner : Nat → Nat} (howned : Owned owner s) (hm : Routed owner m)
    (h : Inv hash capacity s.toShared s.bookOf lists) :
    ∃ s' lists', s.step hash m = some s' ∧ Inv hash capacity s'.toShared s'.bookOf lists' ∧
      Owned owner s' ∧
      ∀ locate, (s'.bookOf locate).levels.size ≤ (s.bookOf locate).levels.size + 1 := by
  have hok := (howned.admissible hm).admitted h
  obtain ⟨s', lists', hs', h', hbooks, heffect⟩ := step_spec h hok
  refine ⟨s', lists', hs', h', fun k ref hlive => ?_, fun k => ?_⟩
  · obtain ⟨y, i, hname, hy⟩ := h'.live_in_iff.mp hlive
    by_cases href : ref ∈ m.refs
    · by_cases hk : k = m.stockLocate
      · exact hk ▸ (hm ref href).2
      · obtain ⟨hlists, hsame⟩ := heffect.frame h hok hk i
        rw [hlists] at hy
        exact howned k ref (h.live_in_iff.mpr ⟨y, i, ((hsame y hy).2 ref).mp hname, hy⟩)
    · rw [heffect.lookup_eq href] at hname
      obtain ⟨k', i', hy'⟩ := h.named ref y hname
      have howner := howned k' ref (h.live_in_iff.mpr ⟨y, i', hname, hy'⟩)
      by_cases hk' : k' = m.stockLocate
      · by_cases hk : k = m.stockLocate
        · rw [howner, hk, hk']
        · rw [(heffect.frame h hok hk i).1] at hy
          cases h.parts.disjoint _ _ y hy hy'
          exact howner
      · rw [← (heffect.frame h hok hk' i').1] at hy'
        cases h'.parts.disjoint _ _ y hy hy'
        exact howner
  · by_cases hl : k = m.stockLocate
    · exact hl ▸ heffect.levels_le
    · rw [hbooks, Function.update_of_ne hl]
      omega

/-- A stream whose messages carry the book of each reference is admissible at every step. -/
theorem Owned.along {owner : Nat → Nat} {msgs : List Message}
    (hmsgs : ∀ m ∈ msgs, Routed owner m) {s : Store} {lists : Lists} (howned : Owned owner s)
    (h : Inv hash capacity s.toShared s.bookOf lists)
    (hsize : ∀ locate, (s.bookOf locate).levels.size + msgs.length ≤ 2 ^ 31) :
    Along (Store.step hash) (fun s m => s.Admissible m ∧ s.Small) s msgs := by
  induction msgs generalizing s lists with
  | nil => trivial
  | cons m msgs ih =>
      simp only [List.length_cons] at hsize
      refine ⟨⟨howned.admissible (hmsgs m List.mem_cons_self), fun k => ?_⟩, fun s'' hs'' => ?_⟩
      · have := hsize k
        omega
      · obtain ⟨s', lists', hs', h', howned', hle⟩ := howned.step (hmsgs m List.mem_cons_self) h
        obtain rfl := Option.some.inj (hs'.symm.trans hs'')
        refine ih (fun m hm => hmsgs m (.tail _ hm)) howned' h' fun k => ?_
        have := hsize k
        have := hle k
        omega

/-- The representation invariant of the shared store. Take any stream of messages to any number of
books that share a pool and a table, in which no reference is the empty key or live in another
book. After every message there is one family of lists, a free list and one list for each level,
such that every slot of the pool stands on exactly one of them once, and

* the free list is what is found from the free head along the successors, up to the null index;
* a level's list is what is found from its head along the successors and from its tail along the
  predecessors; its nodes carry its index; its count and total are those of its nodes;
* a level of the window has its bit set exactly if it is not empty, and the cached best levels are
  the highest bid bit and the lowest ask bit, or -1;
* the table maps references to slots on levels, different references to different slots. -/
theorem representation_invariant (hash : Nat → Nat) {refExp : Nat} (hexp : 1 ≤ refExp)
    (hcap : capacity < 2 ^ 32) (hnew : Store.new capacity (2 ^ refExp) = some s)
    {msgs : List Message}
    (hok : Along (Store.step hash) (fun s m => s.Admissible m ∧ s.Small) s msgs) :
    ∃ s', run (Store.step hash) s msgs = some s' ∧ ∃ lists : Lists,
      Partitioned capacity lists ∧ s'.pool.slots.size = capacity ∧
      (Seg (fun x => (s'.pool.get x).nextIdx) s'.pool.freeHead (lists none) kNullIdx ∧
        kNullIdx ∉ lists none) ∧
      (∀ locate i lvl, (s'.bookOf locate).levels[i]? = some lvl →
        Queue s'.pool lvl i (lists (some (locate, i)))) ∧
      (∀ locate i, (s'.bookOf locate).levels.size ≤ i → lists (some (locate, i)) = []) ∧
      (∀ locate, (s'.bookOf locate).Marked fun i => lists (some (locate, i)) ≠ []) ∧
      s'.refs.WF hash ∧
      (∀ ref x, s'.refs.lookup ref = some x → ∃ locate i, x ∈ lists (some (locate, i))) ∧
      ∀ ref ref' x, s'.refs.lookup ref = some x → s'.refs.lookup ref' = some x → ref = ref' := by
  obtain ⟨s', hrun, ⟨lists, h⟩, hsmall⟩ := run_small hexp hnew hok
  have hmin : min capacity kNullIdx = capacity := by
    simp only [kNullIdx]
    omega
  exact ⟨s', hrun, lists, hmin ▸ h.parts, h.size_eq, ⟨h.free, fun hmem => (h.lt_size hmem).2 rfl⟩,
    fun locate => (h.book locate).queue, fun locate => (h.book locate).outside,
    fun locate => (h.exact locate (hsmall locate)).marked, h.refs, h.named, h.named_inj⟩

/-- Orders of two books in a pool of two slots: the third order finds no slot, and then a deletion
frees one. -/
theorem representation_invariant_two_books :
    ∃ s s', Store.new 2 (2 ^ 2) = some s ∧ run (Store.step RefTable.hash) s
        [.add 1 10 kBid 5 10000, .add 2 20 0x53 7 10001, .add 1 11 kBid 5 10000, .delete 1 10] =
          some s' ∧
      ∃ lists : Lists, Partitioned 2 lists := by
  obtain ⟨s, hnew⟩ : ∃ s, Store.new 2 (2 ^ 2) = some s := ⟨_, rfl⟩
  have hrouted : ∀ m ∈ [Message.add 1 10 kBid 5 10000, .add 2 20 0x53 7 10001,
      .add 1 11 kBid 5 10000, .delete 1 10], Routed (fun ref => ref / 10) m := by
    unfold Routed
    decide
  have hok := (owned_new _ (by decide) hnew).along hrouted (inv_new RefTable.hash (by decide) hnew)
    fun locate => by simp [book_of_new hnew, OrderBook.new, kWindow]
  obtain ⟨s', hrun, lists, hparts, _⟩ :=
    representation_invariant RefTable.hash (by decide) (by decide) hnew hok
  exact ⟨s, s', hnew, hrun, lists, hparts⟩

end Reachable

end FeedHandler.V3
