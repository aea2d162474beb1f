import FeedHandler.Agreement
import FeedHandler.V3.Overload

/-!
# The books under overload

What the v3 books answer when the pool or the table runs out. `overload_exact` says that the orders
that bounded resources leave determine every answer. If the table has room for twice the orders of
the pool, an overloaded v3 answers like a v1 that never got the additions that found the pool full
(`overload_matches_v1`).
-/

namespace FeedHandler

open Itch Book Runs V3

/-- The books answer every question as the orders have it: which references resolve in a book, the
shares along each list, the place of each reference in it, and the top of book. -/
structure Answers (hash : Nat → Nat) (s : V3.Store) (os : Nat → Orders) : Prop where
  live : ∀ locate ref, s.LiveIn locate ref ↔ ((os locate).named ref).isSome
  queues : ∀ locate bid price, ∃ l, s.LevelAt locate bid price l ∧
    l.map (fun x => (s.pool.get x).qty) = ((os locate).level bid price).map Order.shares ∧
    ∀ ref (n : Nat), ref ≠ kEmpty → ((∃ x, s.Finds hash ref x ∧ l[n]? = some x) ↔
      ∃ o, o.ref = some ref ∧ ((os locate).level bid price)[n]? = some o)
  best : ∀ locate, ∃ r, (s.bookOf locate).bestBidAsk = some r ∧ TopOfBook
    {p | ∃ o ∈ os locate, o.bid = true ∧ o.price = p}
    {p | ∃ o ∈ os locate, o.bid = false ∧ o.price = p} r

/-- A message that finds the pool full is dropped if it is an addition. -/
def V3.Store.drops (s : V3.Store) : Message → Bool
  | .addOrder _ => s.full
  | _ => false

/-- The messages that have been kept, after another one. -/
def V3.Store.keep (s : V3.Store) (kept : List Message) (m : Message) : List Message :=
  kept ++ if s.drops m then [] else [m]

/-- The messages of a stream that the v3 books do not drop. -/
def keptOf (hash : Nat → Nat) (s : V3.Store) (msgs : List Message) : List Message :=
  beside (V3.Store.step hash) V3.Store.keep s [] msgs

section Answers

variable {hash : Nat → Nat} {capacity : Nat} {s : V3.Store} {lists : Lists} {os : Nat → Orders}

/-- Books that show orders answer as they have it. -/
theorem answers_of_follows (h : s.Follows hash capacity lists os) : Answers hash s os where
  live locate ref := by
    rw [live_in_iff_named h.inv, (h.shows locate).named_is_some]
  queues locate bid price := by
    refine ⟨_, (level_at_iff h.inv).mpr rfl, (h.shows locate).queue_shares bid price, ?_⟩
    intro ref n href
    rw [← (h.shows locate).place_iff]
    refine exists_congr fun x => ?_
    rw [finds_iff h.inv href]
    constructor
    · intro hgiven
      obtain ⟨hname, hn⟩ := hgiven
      have hmem := mem_of_mem_queue (List.mem_of_getElem? hn)
      exact ⟨named_iff.mpr ⟨hname, hmem⟩, hn⟩
    · exact fun hgiven => ⟨(named_iff.mp hgiven.1).1, hgiven.2⟩
  best := h.best

/-- The pool is full when as many orders rest as it has slots. -/
theorem full_iff (h : Inv hash capacity s.toShared s.bookOf lists) :
    s.full = true ↔ {x | ∃ k i l, s.LevelList k i l ∧ x ∈ l}.ncard = min capacity kNullIdx := by
  rw [← h.linked_ncard, Shared.full, decide_eq_true_iff, h.free_head_eq_null_iff,
    ← List.length_eq_zero_iff]
  omega

end Answers

/-- Take any stream of messages in which no reference is the empty key or live in another book, and
books that 31-bit indices can address. After every message the answers are those of the orders that
are left when an addition is dropped while as many orders rest as the pool has slots, and otherwise
rests without its reference while the table is at half load. -/
theorem overload_exact (hash : Nat → Nat) {capacity refExp : Nat} (hexp : 1 ≤ refExp)
    {s : V3.Store} (hnew : V3.Store.new capacity (2 ^ refExp) = some s) {msgs : List Message}
    (hok : Along (V3.Store.step hash) (fun s m => s.Admissible m ∧ s.Small) s msgs)
    {seen : List Message} (hseen : seen <+: msgs) :
    ∃ s', run (V3.Store.step hash) s seen = some s' ∧
      Answers hash s' (boundedOrders hash s seen) ∧
      (s'.full = true ↔
        {x | ∃ k i l, s'.LevelList k i l ∧ x ∈ l}.ncard = min capacity kNullIdx) := by
  obtain ⟨rest, rfl⟩ := hseen
  obtain ⟨s', lists, hrun, h⟩ := follows_of_run hexp hnew (along_append.mp hok).1
  exact ⟨s', hrun, answers_of_follows h, full_iff h.inv⟩

/-- A table of two slots takes one reference, and a pool of two slots no third order. -/
theorem overload_exact_refused_and_dropped :
    ∃ s s', V3.Store.new 2 (2 ^ 1) = some s ∧
      run (V3.Store.step RefTable.hash) s [.add 1 10 kBid 5 10000, .add 1 11 kBid 7 10000,
        .add 1 12 0x53 6 10100, .delete 1 11] = some s' ∧
      Answers RefTable.hash s' (boundedOrders RefTable.hash s [.add 1 10 kBid 5 10000,
        .add 1 11 kBid 7 10000, .add 1 12 0x53 6 10100, .delete 1 11]) ∧
      boundedOrders RefTable.hash s [.add 1 10 kBid 5 10000, .add 1 11 kBid 7 10000,
        .add 1 12 0x53 6 10100, .delete 1 11] 1 =
        [⟨some 10, true, 10000, 5⟩, ⟨none, true, 10000, 7⟩] := by
  obtain ⟨msgs, hmsgs⟩ : ∃ msgs : List Message, [.add 1 10 kBid 5 10000, .add 1 11 kBid 7 10000,
    .add 1 12 0x53 6 10100, .delete 1 11] = msgs := ⟨_, rfl⟩
  obtain ⟨s, hnew⟩ : ∃ s, V3.Store.new 2 (2 ^ 1) = some s := ⟨_, rfl⟩
  have hrouted : ∀ m ∈ msgs, Routed (fun _ => 1) m := by
    subst hmsgs
    unfold Routed
    decide
  have hok := (owned_new _ (by decide) hnew).along hrouted (inv_new RefTable.hash (by decide) hnew)
    fun locate => by subst hmsgs; simp [book_of_new hnew, OrderBook.new, kWindow]
  obtain ⟨s', hs', hanswers, _⟩ := overload_exact RefTable.hash (by decide) hnew hok
    (List.prefix_refl msgs)
  rw [hmsgs]
  refine ⟨s, s', hnew, hs', hanswers, ?_⟩
  subst hmsgs
  cases hnew
  decide +kernel

/-! ## An overloaded v3 and v1 -/

section Kept

variable {hash : Nat → Nat} {capacity refCapacity : Nat} {msgs kept : List Message}
  {s : V3.Store} {t : V1.Store} {lists : Lists} {os : Nat → Orders} {m : Message} {n : Nat}

/-- The v1 books after the kept messages of a selection, and the v3 books after all of them. -/
structure Overloaded (hash : Nat → Nat) (capacity refCapacity : Nat) (msgs kept : List Message)
    (n : Nat) (s : V3.Store) (t : V1.Store) (lists : Lists) (os : Nat → Orders) : Prop where
  v3 : s.Follows hash capacity lists os
  v1 : t.Follows os
  selected : Selected msgs kept os
  balanced : Balanced s
  table : s.refs.slots.size = refCapacity
  small : ∀ locate, (s.bookOf locate).levels.size ≤ 2 * kWindow + n

/-- A table twice as large as the pool is below half load as long as the pool has a free slot. -/
theorem Overloaded.below_half (h : Overloaded hash capacity refCapacity msgs kept n s t lists os)
    (htable : 2 * min capacity kNullIdx ≤ refCapacity) (hfull : s.full = false) :
    s.refs.size * 2 < s.refs.slots.size := by
  have hbalanced := h.v3.inv.balanced_iff.mp h.balanced
  have hfree : lists none ≠ [] := by
    rw [Ne, ← h.v3.inv.free_head_eq_null_iff]
    exact of_decide_eq_false hfull
  have hpos := List.length_pos_iff.mpr hfree
  rw [h.table]
  omega

/-- One more message of a selection. -/
theorem Overloaded.step (h : Overloaded hash capacity refCapacity msgs kept n s t lists os)
    (hmsgs : Coherent msgs) (hkeys : Keyed msgs) (hpart : (kept ++ [m]).Subperm msgs)
    (htable : 2 * min capacity kNullIdx ≤ refCapacity) (hshort : 2 * kWindow + n < 2 ^ 31) :
    ∃ s' t' lists' os', s.step hash m = some s' ∧
      run V1.Store.step t (if s.drops m then [] else [m]) = some t' ∧
      Overloaded hash capacity refCapacity msgs (s.keep kept m) (n + 1) s' t' lists' os' := by
  have hadmitted := admitted_of_selected h.v3 h.selected hmsgs hkeys hpart
  have hadmissible := hadmitted.admissible h.v3.inv
  have hfresh := fresh_of_selected h.v3 h.selected hmsgs hpart
  have hsmall : s.Small := fun locate => (h.small locate).trans_lt hshort
  have hroom : HasRoom s m := by
    cases m with
    | addOrder a =>
        cases hfull : s.full with
        | true => exact .inl (of_decide_eq_true hfull)
        | false => exact .inr (h.below_half htable hfull)
    | orderExecuted _ | orderCancel _ | orderDelete _ | orderReplace _ => trivial
  obtain ⟨s', lists', hs', h3⟩ := h.v3.step_in hadmitted hsmall
  obtain ⟨_, _, heffect⟩ := h.v3.inv.effect_of_step hadmissible hs'
  obtain ⟨s'', _, hs'', _, hlevels⟩ := step_inv h.v3.inv hadmissible
  obtain rfl := Option.some.inj (hs''.symm.trans hs')
  have hbalanced := balanced_step h.v3.inv hadmissible hfresh hroom h.balanced hs'
  have hcapacity := heffect.table_eq.trans h.table
  have hlevels' : ∀ locate, (s''.bookOf locate).levels.size ≤ 2 * kWindow + (n + 1) := by
    intro locate
    have hle := h.small locate
    have hone := hlevels locate
    omega
  rw [V3.Store.keep]
  cases hdrops : s.drops m with
  | true =>
      -- only an addition is dropped, and it changes no order
      have hsame : s.ordersAfter os m = os := by
        cases m with
        | addOrder a =>
            have hfull : s.full = true := hdrops
            rw [Shared.ordersAfter, Orders.applyIn, hfull, if_pos rfl, Function.update_eq_self]
        | orderExecuted _ | orderCancel _ | orderDelete _ | orderReplace _ => cases hdrops
      rw [hsame] at h3
      rw [if_pos rfl, List.append_nil]
      exact ⟨s'', t, lists', os, hs', rfl, h3, h.v1, h.selected, hbalanced, hcapacity, hlevels'⟩
  | false =>
      have hspace : s.HasSpace m := by
        cases m with
        | addOrder a =>
            have hfull : s.full = false := hdrops
            exact ⟨of_decide_eq_false hfull, h.below_half htable hfull⟩
        | orderExecuted _ | orderCancel _ | orderDelete _ | orderReplace _ => trivial
      rw [Shared.ordersAfter, apply_in_of_space hspace] at h3
      obtain ⟨t', ht', h1⟩ := h.v1.step (h.selected.within hmsgs hpart)
      rw [if_neg Bool.false_ne_true]
      refine ⟨s'', t', lists', _, hs', ?_, h3, h1, h.selected.concat hpart rfl, hbalanced,
        hcapacity, hlevels'⟩
      rw [run_cons, ht']
      rfl

/-- The messages of a selection, one by one. -/
theorem Overloaded.run {rest : List Message}
    (h : Overloaded hash capacity refCapacity msgs kept n s t lists os) (hmsgs : Coherent msgs)
    (hkeys : Keyed msgs) (hpart : (kept ++ rest).Subperm msgs)
    (htable : 2 * min capacity kNullIdx ≤ refCapacity)
    (hshort : 2 * kWindow + n + rest.length ≤ 2 ^ 31) :
    ∃ s' t' lists' os' more, Runs.run (V3.Store.step hash) s rest = some s' ∧
      beside (V3.Store.step hash) V3.Store.keep s kept rest = kept ++ more ∧
      Runs.run V1.Store.step t more = some t' ∧
      Overloaded hash capacity refCapacity msgs (kept ++ more) (n + rest.length) s' t' lists' os'
    := by
  induction rest generalizing kept n s t lists os with
  | nil => exact ⟨s, t, lists, os, [], rfl, (List.append_nil _).symm, rfl, by rwa [List.append_nil]⟩
  | cons m rest ih =>
      rw [List.length_cons] at hshort
      have hfirst : (kept ++ [m]).Subperm msgs := by
        refine List.Sublist.subperm ?_ |>.trans hpart
        exact (List.Sublist.refl kept).append (List.singleton_sublist.mpr List.mem_cons_self)
      obtain ⟨s₁, t₁, lists₁, os₁, hs₁, ht₁, h₁⟩ := h.step hmsgs hkeys hfirst htable (by omega)
      have hrest : (s.keep kept m ++ rest).Subperm msgs := by
        refine List.Sublist.subperm ?_ |>.trans hpart
        rw [V3.Store.keep, List.append_assoc]
        refine (List.Sublist.refl kept).append ?_
        split
        next => exact List.sublist_cons_self m rest
        next => exact List.Sublist.refl _
      obtain ⟨s', t', lists', os', more, hs', hbeside, ht', h'⟩ := ih h₁ hrest (by omega)
      refine ⟨s', t', lists', os', (if s.drops m then [] else [m]) ++ more, ?_, ?_, ?_, ?_⟩
      · rw [run_cons, hs₁, Option.bind_some, hs']
      · rw [beside_cons hs₁, hbeside, V3.Store.keep, List.append_assoc]
      · rw [run_append, ht₁, Option.bind_some, ht']
      · rw [← List.append_assoc, List.length_cons, Nat.add_comm rest.length, ← Nat.add_assoc]
        exact h'

end Kept

/-- Take some of the messages of a valid history without the empty key, in any order, and a table
with room for twice the orders of the pool. After every message the v3 books answer every question
like the v1 books after the same messages without the additions that found the pool full. -/
theorem overload_matches_v1 (hash : Nat → Nat) {capacity refExp : Nat} {s : V3.Store}
    (hexp : 1 ≤ refExp) (hnew : V3.Store.new capacity (2 ^ refExp) = some s)
    (htable : 2 * min capacity kNullIdx ≤ 2 ^ refExp) {msgs got : List Message}
    (hvalid : ValidHistory msgs) (hkeys : Keyed msgs) (hpart : got.Subperm msgs)
    (hshort : 2 * kWindow + got.length ≤ 2 ^ 31) {seen : List Message} (hseen : seen <+: got) :
    ∃ s' t', run (V3.Store.step hash) s seen = some s' ∧
      run V1.Store.step ∅ (keptOf hash s seen) = some t' ∧ Equivalent hash s' t' := by
  have hstep : InStep hash capacity (2 ^ refExp) msgs [] s ∅ (initialLists capacity) fun _ => [] :=
    in_step_new hexp hnew
  have hstart : Overloaded hash capacity (2 ^ refExp) msgs [] 0 s ∅ (initialLists capacity)
      fun _ => [] :=
    ⟨hstep.v3, hstep.v1, hstep.selected, hstep.balanced, hstep.table, hstep.small⟩
  have hlen := hseen.length_le
  obtain ⟨s', t', lists, os, more, hs', hkept, ht', h⟩ := hstart.run hvalid.good.2 hkeys
    (hseen.sublist.subperm.trans hpart) htable (by omega)
  refine ⟨s', t', hs', ?_, equivalent_of_follows h.v3 h.v1⟩
  rw [keptOf, hkept, List.nil_append, ht']

/-- Of two bids the second one is dropped by a pool of one slot, and so is not executed. -/
theorem overload_matches_v1_one_slot :
    ∃ s s' t', V3.Store.new 1 (2 ^ 1) = some s ∧
      run (V3.Store.step RefTable.hash) s [.add 1 10 kBid 5 10000, .add 1 11 kBid 7 10100,
        .execute 1 11 2] = some s' ∧
      run V1.Store.step ∅ [.add 1 10 kBid 5 10000, .execute 1 11 2] = some t' ∧
      Equivalent RefTable.hash s' t' := by
  obtain ⟨s, hnew⟩ : ∃ s, V3.Store.new 1 (2 ^ 1) = some s := ⟨_, rfl⟩
  have hvalid : ValidHistory [.add 1 10 kBid 5 10000, .add 1 11 kBid 7 10100, .execute 1 11 2] := by
    decide
  have hkept : keptOf RefTable.hash s [.add 1 10 kBid 5 10000, .add 1 11 kBid 7 10100,
      .execute 1 11 2] = [.add 1 10 kBid 5 10000, .execute 1 11 2] := by
    cases hnew
    decide +kernel
  obtain ⟨s', t', hs', ht', hequiv⟩ := overload_matches_v1 RefTable.hash (by decide) hnew
    (by decide) hvalid (by decide) (List.Subperm.refl _) (by decide) (List.prefix_refl _)
  rw [hkept] at ht'
  exact ⟨s, s', t', hnew, hs', ht', hequiv⟩

end FeedHandler
