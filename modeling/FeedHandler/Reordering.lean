import FeedHandler.Book.History
import FeedHandler.Receiver.Deliveries
import FeedHandler.V1.Refinement
import FeedHandler.V3.TopOfBook

/-!
# Packets that arrive in another order

The v2 and the v3 receiver apply a late packet when it arrives. `reordering_tolerated` says that
this does no harm as long as every message arrives behind the one that introduced the reference it
names: the live orders and the tops of book at the end are those of the delivery in sequence order.
`reordering_not_tolerated` is what happens otherwise.
-/

namespace FeedHandler

open Itch Book Runs Receiver V3

/-- A datagram at the v2 receiver. -/
def receiveV2 : Counters Tracker × V1.Store → Datagram → Option (Counters Tracker × V1.Store) :=
  handle Tracker.receive V1.Store.step

/-- A datagram at the v3 receiver. -/
def receiveV3 (hash : Nat → Nat) :
    Counters Tracker × V3.Store → Datagram → Option (Counters Tracker × V3.Store) :=
  handle Tracker.receive (V3.Store.step hash)

/-- Two v1 stores have the same live orders and the same tops of book. -/
def V1.Store.Agree (t t' : V1.Store) : Prop :=
  ∀ locate, (t.bookOf locate).live = (t'.bookOf locate).live ∧
    (t.bookOf locate).bestBidAsk = (t'.bookOf locate).bestBidAsk

/-- Two v3 stores have the same live orders and the same tops of book. -/
def V3.Store.Agree (s s' : V3.Store) : Prop :=
  ∀ locate, s.live locate = s'.live locate ∧
    (s.bookOf locate).bestBidAsk = (s'.bookOf locate).bestBidAsk

/-- What the v3 books need beyond a valid history: small books, and room for additions. -/
def Roomy (hash : Nat → Nat) (s : V3.Store) (msgs : List Message) : Prop :=
  Along (V3.Store.step hash) (fun s m => s.Small ∧ s.HasSpace m) s msgs

section Histories

variable {hash : Nat → Nat} {capacity : Nat} {msgs msgs' : List Message} {m : Message}
  {os os' : Nat → Orders}

/-- The v1 books follow the orders of messages that may come one after the other. -/
theorem v1_describes (hgood : Along record Good [] msgs) :
    ∃ t os, run V1.Store.step ∅ msgs = some t ∧ t.Follows os ∧ Describes msgs os := by
  have hstep : ∀ (seen : List Message) (t : V1.Store) (m : Message),
      (∃ os, Rooted seen ∧ Describes seen os ∧ t.Follows os) → Good seen m → True →
      ∃ seen' t', record seen m = some seen' ∧ t.step m = some t' ∧
        ∃ os, Rooted seen' ∧ Describes seen' os ∧ t'.Follows os := by
    intro seen t m hgiven hgood _
    obtain ⟨os, hroot, hdesc, h⟩ := hgiven
    obtain ⟨t', ht', h'⟩ := h.step (hdesc.within hroot hgood)
    exact ⟨_, t', rfl, ht', _, hroot.concat hgood, hdesc.concat hroot hgood rfl, h'⟩
  obtain ⟨_, t, hseen, ht, os, _, hdesc, h⟩ := run_simulates hstep
    ⟨_, rooted_nil, describes_nil, V1.Store.follows_new⟩ hgood
      (along_of_forall (fun _ _ => trivial) _)
  rw [run_record] at hseen
  cases hseen
  exact ⟨t, os, ht, h, hdesc⟩

/-- References are live in the book of their order only. -/
theorem admitted_of_good {s : V3.Store} {lists : Lists} {seen : List Message}
    (h : s.Follows hash capacity lists os) (hdesc : Describes seen os) (hroot : Rooted seen)
    (hgood : Good seen m) (hkeys : ∀ ref ∈ m.refs, ref ≠ kEmpty) : Admitted s lists m where
  keys := hkeys
  own ref href x locate i hname hx := by
    have hsome := (h.shows locate).named_is_some ref
    rw [V3.Store.view, named_iff.mpr ⟨hname, i, hx⟩, Option.isSome_some, eq_comm,
      Option.isSome_iff_exists] at hsome
    obtain ⟨o, ho⟩ := hsome
    obtain ⟨hmem, hoRef⟩ := named_mem ho
    obtain ⟨o₀, ho₀, href₀, _⟩ := ((hdesc _ _).mp hmem).introduced hoRef
    rcases Message.mem_refs_iff.mp href with htarget | hintro
    · obtain ⟨o₁, ho₁, href₁, _⟩ := hgood.names ref htarget
      exact (ho₀.unique hroot.unique ho₁ (href₀.trans href₁.symm)).1
    · exact absurd (ho₀.ref_mem href₀) (hgood.fresh ref hintro)

/-- The v3 books follow the orders of messages that may come one after the other, as long as there
is room. -/
theorem v3_describes {s : V3.Store} {refExp : Nat} (hexp : 1 ≤ refExp)
    (hnew : V3.Store.new capacity (2 ^ refExp) = some s) (hgood : Along record Good [] msgs)
    (hkeys : ∀ m ∈ msgs, ∀ ref ∈ m.refs, ref ≠ kEmpty) (hroom : Roomy hash s msgs) :
    ∃ s' lists os, run (V3.Store.step hash) s msgs = some s' ∧
      s'.Follows hash capacity lists os ∧ Describes msgs os := by
  have hstep : ∀ (seen : List Message) (s : V3.Store) (m : Message),
      (∃ lists os, Rooted seen ∧ Describes seen os ∧ s.Follows hash capacity lists os) →
      (Good seen m ∧ ∀ ref ∈ m.refs, ref ≠ kEmpty) → s.Small ∧ s.HasSpace m →
      ∃ seen' s', record seen m = some seen' ∧ s.step hash m = some s' ∧
        ∃ lists os, Rooted seen' ∧ Describes seen' os ∧ s'.Follows hash capacity lists os := by
    intro seen s m hstate hmsg hbounds
    obtain ⟨lists, os, hroot, hdesc, h⟩ := hstate
    obtain ⟨hgood, hkeys⟩ := hmsg
    obtain ⟨hsmall, hspace⟩ := hbounds
    obtain ⟨s', lists', hs', h'⟩ :=
      h.step (admitted_of_good h hdesc hroot hgood hkeys) hsmall hspace
    exact ⟨_, s', rfl, hs', lists', _, hroot.concat hgood, hdesc.concat hroot hgood rfl, h'⟩
  obtain ⟨_, s', hseen, hs', lists, os, _, hdesc, h⟩ := run_simulates hstep
    ⟨_, _, rooted_nil, describes_nil, V3.Store.follows_new hexp hnew⟩
    (hgood.and (along_of_forall hkeys [])) hroom
  rw [run_record] at hseen
  cases hseen
  exact ⟨s', lists, os, hs', h, hdesc⟩

/-- Implementations of the orders that the same messages describe have the same live orders. -/
theorem same_live {ν μ : Type} [DecidableEq ν] [DecidableEq μ] {v : View ν} {v' : View μ}
    {locate : Nat} (h : v.Follows (os locate)) (h' : v'.Follows (os' locate))
    (hdesc : Describes msgs os) (hdesc' : Describes msgs' os') (hperm : msgs.Perm msgs') :
    v.live = v'.live := by
  ext o
  rw [h.mem_live_iff, h'.mem_live_iff, describes_perm hdesc hdesc' hperm]

/-- The sides of books of the same orders have the same prices. -/
theorem same_prices (hdesc : Describes msgs os) (hdesc' : Describes msgs' os')
    (hperm : msgs.Perm msgs') (locate : Nat) (bid : Bool) :
    {p | ∃ o ∈ os locate, o.bid = bid ∧ o.price = p} =
      {p | ∃ o ∈ os' locate, o.bid = bid ∧ o.price = p} := by
  ext p
  simp only [Set.mem_ofPred_eq, describes_perm hdesc hdesc' hperm]

end Histories

section Disagreement

/-- A valid history that leaves different v2 books if it is delivered in another order. -/
def DisagreeV2 : Prop :=
  ∃ file frames ds ds' r r', Reordered file frames ds ds' ∧
    ValidHistory (frames.filterMap Frame.message) ∧
    run receiveV2 (.initial, ∅) ds = some r ∧ run receiveV2 (.initial, ∅) ds' = some r' ∧
    ¬ r.2.Agree r'.2

/-- A valid history that leaves different v3 books if it is delivered in another order, which meets
a condition. -/
def DisagreeV3 (capacity refCapacity : Nat) (ok : List Message → Prop) : Prop :=
  ∃ file frames ds ds' s r r', Reordered file frames ds ds' ∧
    ValidHistory (frames.filterMap Frame.message) ∧ ok (ds'.flatMap Datagram.decoded) ∧
    V3.Store.new capacity refCapacity = some s ∧
    run (receiveV3 RefTable.hash) (.initial, s) ds = some r ∧
    run (receiveV3 RefTable.hash) (.initial, s) ds' = some r' ∧ ¬ r.2.Agree r'.2

/-- No reference is the empty key. -/
def Keyed (msgs : List Message) : Prop := ∀ m ∈ msgs, ∀ ref ∈ m.refs, ref ≠ kEmpty

instance (msgs : List Message) : Decidable (Keyed msgs) :=
  inferInstanceAs (Decidable (∀ m ∈ msgs, ∀ ref ∈ m.refs, ref ≠ kEmpty))

variable (front : List Message) (m m' : Message)

/-- A valid history, each message of which can be framed, with two last messages. -/
structure Swappable : Prop where
  front_ne : front ≠ []
  short : front.length < 900
  framed : ∀ m₀ ∈ front ++ [m, m'], m₀.frame.message = some m₀
  valid : ValidHistory (front ++ [m, m'])

/-- Two packets that change places make the v2 books differ if their messages make the tops of book
differ. -/
theorem disagree_v2 {best best' : Option (Nat × Nat)} (h : Swappable front m m')
    (hread : (do
      let t ← run V1.Store.step ∅ (front ++ [m, m'])
      let t' ← run V1.Store.step ∅ (front ++ [m', m])
      return ((t.bookOf 1).bestBidAsk, (t'.bookOf 1).bestBidAsk)) = some (best, best'))
    (hne : best ≠ best') : DisagreeV2 := by
  simp only [Option.bind_eq_bind, Option.bind_eq_some_iff, Option.pure_def, Option.some.injEq,
    Prod.mk.injEq] at hread
  obtain ⟨t, ht, t', ht', rfl, rfl⟩ := hread
  obtain ⟨file, frames, ds, ds', hreordered, hframes, hdecoded⟩ :=
    exists_swapped h.front_ne h.short h.framed
  obtain ⟨_, hin, _⟩ := hreordered.read
  obtain ⟨c, hc⟩ := hreordered.run_handle (by simp) ((hin.trans hframes).symm ▸ ht)
  obtain ⟨c', hc'⟩ := hreordered.run_handle (by simp) (hdecoded.symm ▸ ht')
  exact ⟨file, frames, ds, ds', _, _, hreordered, hframes.symm ▸ h.valid, hc, hc',
    fun hagree => hne (hagree 1).2⟩

/-- Two packets that change places make the v3 books differ if their messages do. -/
theorem disagree_v3 {capacity refCapacity : Nat} {ok : List Message → Prop} {s t t' : V3.Store}
    (h : Swappable front m m') (hok : ok (front ++ [m', m]))
    (hnew : V3.Store.new capacity refCapacity = some s)
    (ht : run (V3.Store.step RefTable.hash) s (front ++ [m, m']) = some t)
    (ht' : run (V3.Store.step RefTable.hash) s (front ++ [m', m]) = some t')
    (hne : ¬ t.Agree t') : DisagreeV3 capacity refCapacity ok := by
  obtain ⟨file, frames, ds, ds', hreordered, hframes, hdecoded⟩ :=
    exists_swapped h.front_ne h.short h.framed
  obtain ⟨_, hin, _⟩ := hreordered.read
  obtain ⟨c, hc⟩ := hreordered.run_handle (by simp) ((hin.trans hframes).symm ▸ ht)
  obtain ⟨c', hc'⟩ := hreordered.run_handle (by simp) (hdecoded.symm ▸ ht')
  exact ⟨file, frames, ds, ds', s, _, _, hreordered, hframes.symm ▸ h.valid, hdecoded.symm ▸ hok,
    hnew, hc, hc', hne⟩

/-- They do if they make the tops of book differ. -/
theorem disagree_v3_of_best {capacity refCapacity : Nat} {ok : List Message → Prop}
    {best best' : Option (Option (Nat × Nat))} (h : Swappable front m m')
    (hok : ok (front ++ [m', m]))
    (hread : (do
      let s ← V3.Store.new capacity refCapacity
      let t ← run (V3.Store.step RefTable.hash) s (front ++ [m, m'])
      let t' ← run (V3.Store.step RefTable.hash) s (front ++ [m', m])
      return ((t.bookOf 1).bestBidAsk, (t'.bookOf 1).bestBidAsk)) = some (best, best'))
    (hne : best ≠ best') : DisagreeV3 capacity refCapacity ok := by
  simp only [Option.bind_eq_bind, Option.bind_eq_some_iff, Option.pure_def, Option.some.injEq,
    Prod.mk.injEq] at hread
  obtain ⟨s, hnew, t, ht, t', ht', rfl, rfl⟩ := hread
  exact disagree_v3 front m m' h hok hnew ht ht' fun hagree => hne (hagree 1).2

end Disagreement

/-- Reordering is tolerated if introductions come first. Take a file whose messages are a valid
history, cut into packets by the sender, and deliver these packets in sequence order and in any
order that begins with the first packet, makes no jump of 65536 or more and brings every message
behind the introduction of the reference it names. The v2 receiver ends with the same live orders
and the same tops of book. So does the v3 receiver, if no reference is the empty key and its books,
its pool and its table have room in both deliveries. -/
theorem reordering_tolerated {file : List UInt8} {frames : List Frame} {ds ds' : List Datagram}
    (h : Reordered file frames ds ds') (hvalid : ValidHistory (frames.filterMap Frame.message))
    (hcausal : Causal (ds'.flatMap Datagram.decoded)) :
    (∃ r r', run receiveV2 (.initial, ∅) ds = some r ∧ run receiveV2 (.initial, ∅) ds' = some r' ∧
      r.2.Agree r'.2) ∧
    ∀ (hash : Nat → Nat) (capacity refExp : Nat) (s : V3.Store), 1 ≤ refExp →
      V3.Store.new capacity (2 ^ refExp) = some s →
      (∀ m ∈ frames.filterMap Frame.message, ∀ ref ∈ m.refs, ref ≠ kEmpty) →
      Roomy hash s (ds.flatMap Datagram.decoded) → Roomy hash s (ds'.flatMap Datagram.decoded) →
      ∃ r r', run (receiveV3 hash) (.initial, s) ds = some r ∧
        run (receiveV3 hash) (.initial, s) ds' = some r' ∧ r.2.Agree r'.2 := by
  obtain ⟨_, hdecoded, hperm⟩ := h.read
  obtain ⟨hgood, hcoherent⟩ := hvalid.good
  have hgood' := (hcoherent.perm hperm).good hcausal
  rw [← hdecoded] at hgood hperm
  constructor
  · obtain ⟨t, os, ht, hfollows, hdesc⟩ := v1_describes hgood
    obtain ⟨t', os', ht', hfollows', hdesc'⟩ := v1_describes hgood'
    obtain ⟨c, hc⟩ := h.run_handle (by simp) ht
    obtain ⟨c', hc'⟩ := h.run_handle (by simp) ht'
    refine ⟨_, _, hc, hc', fun locate => ⟨?_, ?_⟩⟩
    · rw [(hfollows locate).1.live_eq, (hfollows' locate).1.live_eq]
      exact same_live (hfollows locate).2 (hfollows' locate).2 hdesc hdesc' hperm
    · have htop := hfollows.best locate
      rw [same_prices hdesc hdesc' hperm, same_prices hdesc hdesc' hperm] at htop
      exact htop.unique (hfollows'.best locate)
  · intro hash capacity refExp s hexp hnew hkeys hroom hroom'
    rw [← hdecoded] at hkeys
    obtain ⟨t, lists, os, ht, hfollows, hdesc⟩ := v3_describes hexp hnew hgood hkeys hroom
    obtain ⟨t', lists', os', ht', hfollows', hdesc'⟩ := v3_describes hexp hnew hgood'
      (fun m hm => hkeys m (hperm.mem_iff.mpr hm)) hroom'
    obtain ⟨c, hc⟩ := h.run_handle (by simp) ht
    obtain ⟨c', hc'⟩ := h.run_handle (by simp) ht'
    refine ⟨_, _, hc, hc', fun locate => ⟨?_, ?_⟩⟩
    · rw [hfollows.inv.live_eq, hfollows'.inv.live_eq]
      exact same_live (hfollows.shows locate) (hfollows'.shows locate) hdesc hdesc' hperm
    · obtain ⟨r, hr, htop⟩ := hfollows.best locate
      obtain ⟨r', hr', htop'⟩ := hfollows'.best locate
      rw [same_prices hdesc hdesc' hperm, same_prices hdesc hdesc' hperm] at htop
      rw [hr, hr', htop.unique htop']

/-- An execution that arrives behind the replacement of its order is ignored, and does no harm. -/
theorem reordering_tolerated_late_execution :
    ∃ ds ds' s r r' q q', ds.flatMap Datagram.decoded =
        [.add 1 1 kBid 5 10000, .execute 1 1 2, .replace 1 1 2 7 10100] ∧
      ds'.flatMap Datagram.decoded =
        [.add 1 1 kBid 5 10000, .replace 1 1 2 7 10100, .execute 1 1 2] ∧
      run receiveV2 (.initial, ∅) ds = some r ∧ run receiveV2 (.initial, ∅) ds' = some r' ∧
      r.2.Agree r'.2 ∧ V3.Store.new 4 (2 ^ 3) = some s ∧
      run (receiveV3 RefTable.hash) (.initial, s) ds = some q ∧
      run (receiveV3 RefTable.hash) (.initial, s) ds' = some q' ∧ q.2.Agree q'.2 := by
  have hswap : Swappable [.add 1 1 kBid 5 10000] (.execute 1 1 2) (.replace 1 1 2 7 10100) :=
    ⟨by simp, by decide, by decide +kernel, by decide⟩
  obtain ⟨file, frames, ds, ds', h, hframes, hdecoded'⟩ :=
    exists_swapped hswap.front_ne hswap.short hswap.framed
  have hdecoded := h.read.2.1.trans hframes
  obtain ⟨s, hnew⟩ : ∃ s, V3.Store.new 4 (2 ^ 3) = some s := ⟨_, rfl⟩
  have hroomy : ∀ msgs : List Message, (∀ m ∈ msgs, Routed (fun _ => 1) m) → msgs.length ≤ 3 →
      Along (V3.Store.step RefTable.hash) V3.Store.HasSpace s msgs →
      Roomy RefTable.hash s msgs := by
    intro msgs hrouted hlen hspace
    have hok := (owned_new _ (by decide) hnew).along hrouted
      (inv_new RefTable.hash (by decide) hnew) fun locate => by
        simp only [book_of_new hnew, OrderBook.new, kWindow, Array.size_replicate]
        omega
    exact (hok.and hspace).imp fun _ _ h => ⟨h.1.2, h.2⟩
  obtain ⟨⟨r, r', hr, hr', hagree⟩, hv3⟩ := reordering_tolerated h
    (by rw [hframes]; exact hswap.valid)
    (by rw [hdecoded']; decide)
  obtain ⟨q, q', hq, hq', hagree'⟩ := hv3 RefTable.hash 4 3 s (by decide) hnew
    (by rw [hframes]; decide)
    (by
      rw [hdecoded]
      refine hroomy _ (by unfold Routed; decide) (by decide) ?_
      cases hnew
      decide +kernel)
    (by
      rw [hdecoded']
      refine hroomy _ (by unfold Routed; decide) (by decide) ?_
      cases hnew
      decide +kernel)
  exact ⟨ds, ds', s, r, r', q, q', hdecoded, hdecoded', hr, hr', hagree, hnew, hq, hq', hagree'⟩

/-- Reordering does harm. A deletion that overtakes its addition is lost, in v2 and in v3. Even if
introductions come first the v3 books differ if an addition overtakes the deletion that would have
made room for it, in the pool or in the table, or if a reference is the empty key. -/
theorem reordering_not_tolerated :
    DisagreeV2 ∧ DisagreeV3 4 (2 ^ 3) Keyed ∧
      DisagreeV3 2 (2 ^ 3) (fun msgs => Causal msgs ∧ Keyed msgs) ∧
      DisagreeV3 4 (2 ^ 1) (fun msgs => Causal msgs ∧ Keyed msgs) ∧
      DisagreeV3 4 (2 ^ 3) Causal := by
  have hlate : Swappable [.add 1 1 0x53 5 10200] (.add 1 2 kBid 7 10000) (.delete 1 2) :=
    ⟨by simp, by decide, by decide +kernel, by decide⟩
  have hpool : Swappable [.add 1 1 0x53 5 10200, .add 1 2 kBid 7 10000] (.delete 1 2)
    (.add 1 3 kBid 7 10100) := ⟨by simp, by decide, by decide +kernel, by decide⟩
  have htable : Swappable [.add 1 1 kBid 5 10000] (.delete 1 1) (.add 1 2 kBid 7 10100) :=
    ⟨by simp, by decide, by decide +kernel, by decide⟩
  have hkey : Swappable [.add 1 1 kBid 5 10000, .add 1 0xFFFFFFFFFFFFFFFF kBid 6 10100]
    (.delete 1 0xFFFFFFFFFFFFFFFF) (.add 1 22 0x53 7 10200) :=
    ⟨by simp, by decide, by decide +kernel, by decide⟩
  refine ⟨?_, ?_, ?_, ?_, ?_⟩
  · exact disagree_v2 _ _ _ hlate (by decide +kernel : _ = some (none, some (10000, 10200)))
      (by decide)
  · exact disagree_v3_of_best _ _ _ hlate (by decide)
      (by decide +kernel : _ = some (some none, some (some (10000, 10200)))) (by decide)
  · exact disagree_v3_of_best _ _ _ hpool ⟨by decide, by decide⟩
      (by decide +kernel : _ = some (some (some (10100, 10200)), some none)) (by decide)
  · -- the refused order rests in the book, but its reference does not resolve
    have hread : (do
        let s ← V3.Store.new 4 (2 ^ 1)
        let t ← run (V3.Store.step RefTable.hash) s
          [.add 1 1 kBid 5 10000, .delete 1 1, .add 1 2 kBid 7 10100]
        let t' ← run (V3.Store.step RefTable.hash) s
          [.add 1 1 kBid 5 10000, .add 1 2 kBid 7 10100, .delete 1 1]
        let x ← t.refs.lookup 2
        let i ← (t.bookOf 1).levelOf true 10100
        let lvl ← (t.bookOf 1).levels[i]?
        return (x, lvl.headIdx, (t.pool.get x).nextIdx, (t.pool.get x).qty, t'.refs.lookup 2)) =
          some (0, 0, kNullIdx, 7, none) := by decide +kernel
    simp only [Option.bind_eq_bind, Option.bind_eq_some_iff, Option.pure_def, Option.some.injEq,
      Prod.mk.injEq] at hread
    obtain ⟨s, hnew, t, ht, t', ht', x, hx, i, hi, lvl, hlvl, rfl, hhead, hnext, hqty, hnone⟩ :=
      hread
    refine disagree_v3 _ _ _ htable ⟨by decide, by decide⟩ hnew ht ht' fun hagree => ?_
    have hlive : ⟨some 2, true, 10100, 7⟩ ∈ t.live 1 := by
      refine ⟨2, 0, [0], rfl, hx, ?_, List.mem_cons_self, hqty⟩
      rw [V3.Store.LevelAt, hi]
      exact ⟨lvl, hlvl, by decide, hhead, hnext⟩
    rw [(hagree 1).1] at hlive
    obtain ⟨ref, x, _, href, hname, _⟩ := hlive
    obtain rfl := Option.some.inj href
    rw [hnone] at hname
    cases hname
  · exact disagree_v3_of_best _ _ _ hkey (by decide)
      (by decide +kernel : _ = some (some (some (10000, 10200)), some (some (10100, 10200))))
      (by decide)

end FeedHandler
