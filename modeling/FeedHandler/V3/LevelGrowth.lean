import FeedHandler.Common.AnalyzeData
import FeedHandler.V3.LevelCalls
import FeedHandler.V3.Reachable
import Mathlib.Data.Finset.Prod

/-!
# How many levels a book has

Only `level_for` codes prices and adds levels, so that a book codes as after the calls of
`level_for` that its messages made (`codes_of_run`), whatever else they did. `levels_size_exact`
says that it has one level behind the window for every side and price outside the window that was
called for: levels are never added twice, and never given back.
-/

namespace FeedHandler.V3.OrderBook

open Itch Runs

/-- The fields that the coding of sides and prices depends on. -/
structure Codes where
  baseCents : Int
  baseSet : Bool
  levels : Nat
  overflowBid : OrderedMap Nat Nat
  overflowAsk : OrderedMap Nat Nat
  overflowSide : Array UInt8

/-- The coding of a book. -/
def codes (b : OrderBook) : Codes :=
  ⟨b.baseCents, b.baseSet, b.levels.size, b.overflowBid, b.overflowAsk, b.overflowSide⟩

/-! ## What the messages do to the coding -/

section Codes

variable {hash : Nat → Nat} {s s' : Shared} {b b' : OrderBook} {p p' : OrderPool}
  {x i qty ref price shares : Nat} {side : UInt8}

theorem codes_inj : b.codes = b'.codes ↔ b.baseCents = b'.baseCents ∧ b.baseSet = b'.baseSet ∧
    b.levels.size = b'.levels.size ∧ b.overflowBid = b'.overflowBid ∧
    b.overflowAsk = b'.overflowAsk ∧ b.overflowSide = b'.overflowSide := by
  simp only [codes, Codes.mk.injEq]

theorem codes_set_base (h : b.codes = b'.codes) (price : Nat) :
    (b.setBase price).codes = (b'.setBase price).codes := by
  obtain ⟨hbase, hset, hlevels, hbid, hask, hside⟩ := codes_inj.mp h
  unfold setBase
  rw [hset]
  split
  next => exact h
  next => exact codes_inj.mpr ⟨rfl, rfl, hlevels, hbid, hask, hside⟩

theorem codes_push_level (h : b.codes = b'.codes) (price : Nat) (side : UInt8) :
    (b.pushLevel price side).1.codes = (b'.pushLevel price side).1.codes := by
  obtain ⟨hbase, hset, hlevels, hbid, hask, hside⟩ := codes_inj.mp h
  unfold pushLevel
  split
  all_goals
    simp only [codes_inj, Array.size_push, hbase, hset, hlevels, hbid, hask, hside, and_self]

/-- `level_for` goes by the coding. -/
theorem codes_level_for (h : b.codes = b'.codes) (price : Nat) (side : UInt8) :
    (b.levelFor price side).1.codes = (b'.levelFor price side).1.codes := by
  have hbased := codes_set_base h price
  obtain ⟨hbase, _, _, hbid, hask, _⟩ := codes_inj.mp hbased
  have hmap : (b.setBase price).overflow side = (b'.setBase price).overflow side := by
    rw [overflow, overflow, hbid, hask]
  simp only [levelFor, hbase, hmap]
  split
  next => exact hbased
  next =>
    split
    next => exact hbased
    next => exact codes_push_level hbased price side

theorem codes_link_order (h : b.linkOrder p i x qty = some (b', p')) : b'.codes = b.codes := by
  simp only [linkOrder, Option.bind_eq_bind, Option.bind_eq_some_iff, Option.pure_def,
    Option.some.injEq, Prod.mk.injEq] at h
  obtain ⟨lvl, _, ⟨p₁, lvl'⟩, _, rfl, _⟩ := h
  obtain ⟨occupied, bid, ask, hoccupy, _⟩ :=
    occupy_total { b with levels := b.levels.setIfInBounds i lvl' } i
  rw [hoccupy]
  exact codes_inj.mpr ⟨rfl, rfl, Array.size_setIfInBounds, rfl, rfl, rfl⟩

theorem codes_vacate (h : b.vacate i = some b') : b'.codes = b.codes := by
  obtain ⟨words, hwords⟩ := b.write_bit_eq i fun word bit => word &&& ~~~bit
  simp only [vacate, hwords, Option.bind_eq_some_iff] at h
  obtain ⟨b₁, hbid, hask⟩ := h
  have hfirst : b₁.codes = b.codes := by
    split at hbid
    next =>
      simp only [rescanBid, Option.bind_eq_bind, Option.bind_eq_some_iff, Option.pure_def,
        Option.some.injEq] at hbid
      obtain ⟨_, _, rfl⟩ := hbid
      rfl
    next =>
      cases hbid
      rfl
  split at hask
  next =>
    simp only [rescanAsk, Option.bind_eq_bind, Option.bind_eq_some_iff, Option.pure_def,
      Option.some.injEq] at hask
    obtain ⟨_, _, rfl⟩ := hask
    exact hfirst
  next =>
    cases hask
    exact hfirst

theorem codes_unlink_order (h : b.unlinkOrder p x = some (b', p')) : b'.codes = b.codes := by
  simp only [unlinkOrder, Option.bind_eq_bind, Option.bind_eq_some_iff] at h
  obtain ⟨o, _, lvl, _, ⟨p₁, lvl'⟩, _, h⟩ := h
  have hset : ({ b with levels := b.levels.setIfInBounds o.levelIdx lvl' } : OrderBook).codes =
      b.codes := codes_inj.mpr ⟨rfl, rfl, Array.size_setIfInBounds, rfl, rfl, rfl⟩
  split at h
  next =>
    simp only [Option.bind_eq_some_iff, Option.pure_def, Option.some.injEq, Prod.mk.injEq] at h
    obtain ⟨b₁, hvacate, rfl, _⟩ := h
    exact (codes_vacate hvacate).trans hset
  next =>
    cases h
    exact hset

/-- The freed node is the next to be given out. -/
theorem codes_remove_order (h : b.removeOrder hash s ref x = some (s', b')) :
    b'.codes = b.codes ∧ s'.pool.freeHead = x := by
  simp only [removeOrder, Option.bind_eq_bind, Option.bind_eq_some_iff, Option.pure_def,
    Option.some.injEq, Prod.mk.injEq] at h
  obtain ⟨⟨b₁, pool⟩, hunlink, pool', hrelease, refs, _, rfl, rfl⟩ := h
  simp only [OrderPool.release, Option.bind_eq_bind, Option.bind_eq_some_iff,
    Option.some.injEq] at hrelease
  obtain ⟨_, _, rfl⟩ := hrelease
  exact ⟨codes_unlink_order hunlink, rfl⟩

theorem codes_place_order (h : b.placeOrder hash s ref price shares side = some (s', b')) :
    b'.codes = if s.pool.freeHead = kNullIdx then b.codes
      else (b.levelFor price side).1.codes := by
  simp only [placeOrder, OrderPool.allocate, Option.bind_eq_bind] at h
  by_cases hhead : s.pool.freeHead = kNullIdx
  · rw [if_pos hhead] at h ⊢
    simp only [Option.bind_some, if_true, Option.pure_def, Option.some.injEq, Prod.mk.injEq] at h
    rw [← h.2]
  · rw [if_neg hhead] at h ⊢
    simp only [Option.bind_eq_some_iff, Option.some.injEq, Option.pure_def] at h
    obtain ⟨_, ⟨_, _, rfl⟩, h⟩ := h
    simp only [hhead, if_false, Option.bind_eq_some_iff, Option.some.injEq, Prod.mk.injEq] at h
    obtain ⟨⟨b₁, pool⟩, hlink, refs, _, _, rfl⟩ := h
    exact codes_link_order hlink

theorem codes_reduce_order (h : b.reduceOrder hash s ref shares = some (s', b')) :
    b'.codes = b.codes := by
  simp only [reduceOrder, Option.bind_eq_bind, Option.bind_eq_some_iff] at h
  obtain ⟨x, _, h⟩ := h
  split at h
  next =>
    cases h
    rfl
  next =>
    simp only [Option.bind_eq_some_iff] at h
    obtain ⟨o, _, h⟩ := h
    split at h
    next => exact (codes_remove_order h).1
    next =>
      simp only [Option.bind_eq_some_iff, Option.pure_def, Option.some.injEq, Prod.mk.injEq] at h
      obtain ⟨_, _, _, _, _, rfl⟩ := h
      exact codes_inj.mpr ⟨rfl, rfl, Array.size_setIfInBounds, rfl, rfl, rfl⟩

/-- The call of `level_for` that a message makes, if any. -/
def levelCall (hash : Nat → Nat) (s : Shared) (b : OrderBook) : Message → Option LevelCall
  | .addOrder m => if s.pool.freeHead = kNullIdx then none else some ⟨m.price, m.side⟩
  | .orderReplace m => do
      let x ← s.refs.find hash m.originalOrderRef.toNat
      if x = kNullIdx then none
      else
        let o ← s.pool.slots[x]?
        let side ← b.sideOf o.levelIdx
        return ⟨m.price, side⟩
  | .orderExecuted _ | .orderCancel _ | .orderDelete _ => none

/-- A book after calls of `level_for`. -/
def calling (b : OrderBook) (calls : List LevelCall) : OrderBook :=
  calls.foldl (fun b c => (b.callLevelFor c).1) b

/-- A message changes the coding by its call. -/
theorem codes_apply {m : Message} (h : b.apply hash s m = some (s', b')) :
    b'.codes = (b.calling (b.levelCall hash s m).toList).codes := by
  cases m with
  | addOrder m =>
      have hplace := codes_place_order h
      show b'.codes = (b.calling (if s.pool.freeHead = kNullIdx then none
        else some ⟨m.price, m.side⟩ : Option LevelCall).toList).codes
      split at hplace
      next hhead => rwa [if_pos hhead]
      next hhead => rwa [if_neg hhead]
  | orderExecuted m => exact codes_reduce_order h
  | orderCancel m => exact codes_reduce_order h
  | orderDelete m =>
      simp only [apply, deleteOrder, Option.bind_eq_bind, Option.bind_eq_some_iff] at h
      obtain ⟨x, _, h⟩ := h
      split at h
      next =>
        cases h
        rfl
      next => exact (codes_remove_order h).1
  | orderReplace m =>
      simp only [apply, replaceOrder, Option.bind_eq_bind, Option.bind_eq_some_iff] at h
      obtain ⟨x, hfind, h⟩ := h
      simp only [levelCall, hfind, Option.bind_eq_bind, Option.bind_some]
      split at h
      next hnull =>
        cases h
        rw [if_pos hnull]
        rfl
      next hnull =>
        simp only [Option.bind_eq_some_iff] at h
        obtain ⟨o, ho, side, hside, ⟨s₁, b₁⟩, hremove, hplace⟩ := h
        obtain ⟨hcodes, hhead⟩ := codes_remove_order hremove
        have hplaced := codes_place_order hplace
        rw [if_neg (hhead.symm ▸ hnull), codes_level_for hcodes] at hplaced
        rw [if_neg hnull, ho, Option.bind_some, hside]
        exact hplaced

end Codes

/-! ## Runs -/

section Runs

variable {hash : Nat → Nat} {s s' : Store} {calls : Nat → List LevelCall} {msgs : List Message}

theorem calling_append (b : OrderBook) (calls calls' : List LevelCall) :
    b.calling (calls ++ calls') = (b.calling calls).calling calls' := List.foldl_append

theorem codes_calling {b b' : OrderBook} (h : b.codes = b'.codes) (calls : List LevelCall) :
    (b.calling calls).codes = (b'.calling calls).codes := by
  induction calls generalizing b b' with
  | nil => exact h
  | cons c calls ih => exact ih (codes_level_for h _ _)

/-- The calls in the books after a message. -/
def callsAfter (hash : Nat → Nat) (s : Store) (calls : Nat → List LevelCall) (m : Message) :
    Nat → List LevelCall :=
  Function.update calls m.stockLocate
    (calls m.stockLocate ++ ((s.bookOf m.stockLocate).levelCall hash s.toShared m).toList)

/-- The calls of `level_for` in the books of a run. -/
def callsOf (hash : Nat → Nat) (s : Store) (msgs : List Message) : Nat → List LevelCall :=
  beside (Store.step hash) (callsAfter hash) s (fun _ => []) msgs

/-- Every book codes as after its calls. -/
def CodesCalls (s : Store) (calls : Nat → List LevelCall) : Prop :=
  ∀ locate, (s.bookOf locate).codes = (new.calling (calls locate)).codes

theorem CodesCalls.step {m : Message} (h : CodesCalls s calls) (hs : s.step hash m = some s') :
    CodesCalls s' (callsAfter hash s calls m) := by
  simp only [Store.step, Option.bind_eq_bind, Option.bind_eq_some_iff, Option.pure_def,
    Option.some.injEq] at hs
  obtain ⟨⟨shared, b⟩, happly, rfl⟩ := hs
  intro locate
  rw [Store.book_of_assign, callsAfter]
  by_cases hl : locate = m.stockLocate
  · subst hl
    rw [Function.update_self, Function.update_self, calling_append, codes_apply happly]
    exact codes_calling (h _) _
  · rw [Function.update_of_ne hl, Function.update_of_ne hl]
    exact h locate

/-- The books of a run code as after its calls. -/
theorem codes_of_run (hnew : ∀ locate, s.bookOf locate = new)
    (hrun : run (Store.step hash) s msgs = some s') : CodesCalls s' (callsOf hash s msgs) :=
  have hall : Along (Store.step hash) (fun _ _ => True) s msgs :=
    along_of_forall (fun _ _ => trivial) s
  beside_invariant (fun _ _ _ _ h _ hs => h.step hs) (fun locate => congrArg codes (hnew locate))
    hall hrun

end Runs

/-! ## Counting levels -/

/-- A call for a price outside of the window that the first call placed. -/
def LevelCall.Far (first c : LevelCall) : Prop :=
  ¬ (c.price.toNat % 100 = 0 ∧ first.price.toNat / 100 ≤ c.price.toNat / 100 + kWindow / 2 ∧
    c.price.toNat / 100 < first.price.toNat / 100 + kWindow / 2)

instance (first : LevelCall) : DecidablePred first.Far := fun _ => inferInstanceAs (Decidable (¬ _))

/-- The sides and prices outside of the window of a first call. -/
def farFrom (first : LevelCall) (calls : List LevelCall) : Finset (Bool × UInt32) :=
  ((calls.filter first.Far).map fun c => (c.bid, c.price)).toFinset

/-- The sides and prices outside of the window that calls are for. -/
def farPrices : List LevelCall → Finset (Bool × UInt32)
  | [] => ∅
  | first :: calls => farFrom first (first :: calls)

section Counting

variable {b : OrderBook} {first c : LevelCall} {calls : List LevelCall}

theorem far_from_concat (first c : LevelCall) (calls : List LevelCall) :
    farFrom first (calls ++ [c]) =
      if first.Far c then insert (c.bid, c.price) (farFrom first calls)
      else farFrom first calls := by
  ext key
  split <;> rename_i h <;> simp [farFrom, h, eq_comm]

/-- The window is that of the first call, and the levels behind it are those of the calls
outside. -/
structure Counted (first : LevelCall) (calls : List LevelCall) (b : OrderBook) : Prop where
  set : b.baseSet = true
  base_eq : b.baseCents = (first.price.toNat / 100 : Nat) - (kWindow / 2 : Nat)
  size_eq : b.levels.size = 2 * kWindow + (farFrom first calls).card
  found : ∀ bid (price : UInt32),
    (b.overflowOf bid).find? price.toNat ≠ none ↔ (bid, price) ∈ farFrom first calls

/-- Before its levels are counted, the first call places the window. -/
theorem counted_new (first : LevelCall) : Counted first [] (new.setBase first.price.toNat) where
  set := rfl
  base_eq := rfl
  size_eq := Array.size_replicate
  found bid price := by cases bid <;> simp [new, setBase, overflowOf, farFrom]

theorem Counted.far_iff (h : Counted first calls b) (c : LevelCall) :
    first.Far c ↔ b.windowOffset c.price.toNat = none := by
  have hbase := h.base_eq
  rw [← not_iff_not, LevelCall.Far, not_not, ← Ne, Option.ne_none_iff_exists']
  simp only [window_offset_eq_some_iff, kWindow] at hbase ⊢
  constructor
  · intro hnear
    exact ⟨c.price.toNat / 100 + 512 - first.price.toNat / 100, by omega, hnear.1, by omega⟩
  · intro hgiven
    obtain ⟨off, hoff, hcent, heq⟩ := hgiven
    omega

theorem Counted.call (h : Counted first calls b) (c : LevelCall) :
    Counted first (calls ++ [c]) (b.callLevelFor c).1 := by
  have hbased : b.setBase c.price.toNat = b := if_pos h.set
  simp only [callLevelFor, levelFor, hbased]
  split
  next hin =>
    have hnear : ¬ first.Far c := by
      rw [h.far_iff, windowOffset, if_pos hin]
      simp
    have hsame := far_from_concat first c calls
    rw [if_neg hnear] at hsame
    exact ⟨h.set, h.base_eq, hsame ▸ h.size_eq, hsame ▸ h.found⟩
  next hout =>
    have hfar : first.Far c := h.far_iff c |>.mpr (if_neg hout)
    have hgrown := far_from_concat first c calls
    rw [if_pos hfar] at hgrown
    have hmap : b.overflow c.side = b.overflowOf c.bid := by
      rw [overflow, overflowOf, LevelCall.bid, isBid]
      simp only [decide_eq_true_eq]
    rw [hmap]
    split
    next idx hfind =>
      -- the side and the price have been called for before
      have hmem := (h.found c.bid c.price).mp (by rw [hfind]; simp)
      rw [Finset.insert_eq_of_mem hmem] at hgrown
      exact ⟨h.set, h.base_eq, hgrown ▸ h.size_eq, hgrown ▸ h.found⟩
    next hfind =>
      have hfresh : (c.bid, c.price) ∉ farFrom first calls := fun hmem =>
        (h.found c.bid c.price).mpr hmem hfind
      have hpushed := b.push_level_pushed c.price.toNat c.side
      refine ⟨hpushed.set_eq.trans h.set, hpushed.base_eq.trans h.base_eq, ?_, fun bid price => ?_⟩
      · rw [hpushed.size_eq, h.size_eq, hgrown, Finset.card_insert_of_notMem hfresh, Nat.add_assoc]
      · rw [hpushed.find_of, hgrown, Finset.mem_insert, Prod.mk.injEq, ← h.found bid price]
        by_cases hkey : bid = c.bid ∧ price = c.price
        · obtain ⟨rfl, rfl⟩ := hkey
          simp [LevelCall.bid]
        · rw [if_neg]
          · simp [hkey]
          · exact fun hkey' => hkey ⟨hkey'.1, UInt32.toNat.inj hkey'.2⟩

/-- The number of levels after calls. -/
theorem size_calling (calls : List LevelCall) :
    (new.calling calls).levels.size = 2 * kWindow + (farPrices calls).card := by
  cases calls with
  | nil => exact Array.size_replicate
  | cons first calls =>
      have hcounted : ∀ l, Counted first l ((new.setBase first.price.toNat).calling l) := by
        intro l
        induction l using List.reverseRecOn with
        | nil => exact counted_new first
        | append_singleton l c ih =>
            rw [calling_append]
            exact ih.call c
      exact (hcounted (first :: calls)).size_eq

end Counting

/-- After any messages to new books, however the pool and the table fill up, a book has its window
and one level for every side and price outside of the window that an order was entered with. -/
theorem levels_size_exact (hash : Nat → Nat) {capacity refCapacity : Nat} {s s' : Store}
    (hnew : Store.new capacity refCapacity = some s) {msgs : List Message}
    (hrun : run (Store.step hash) s msgs = some s') (locate : Nat) :
    (s'.bookOf locate).levels.size =
      2 * kWindow + (farPrices (callsOf hash s msgs locate)).card := by
  have hcodes := codes_of_run (book_of_new hnew) hrun locate
  rw [(codes_inj.mp hcodes).2.2.1, size_calling]

/-- A bid in the window, one at a price that is not of whole cents, which is entered again after its
deletion, and an ask far away. -/
theorem levels_size_exact_entered_again :
    ∃ s s', Store.new 4 (2 ^ 3) = some s ∧ run (Store.step RefTable.hash) s
        [.add 1 10 kBid 5 1000000, .add 1 11 kBid 5 1000050, .delete 1 11, .add 1 12 kBid 5 1000050,
          .add 1 13 0x53 5 2000000] = some s' ∧
      (s'.bookOf 1).levels.size = 2 * kWindow + 2 := by
  have hread : (do
      let s ← Store.new 4 (2 ^ 3)
      let _ ← run (Store.step RefTable.hash) s
        [.add 1 10 kBid 5 1000000, .add 1 11 kBid 5 1000050, .delete 1 11, .add 1 12 kBid 5 1000050,
          .add 1 13 0x53 5 2000000]
      some (farPrices (callsOf RefTable.hash s [.add 1 10 kBid 5 1000000,
        .add 1 11 kBid 5 1000050, .delete 1 11, .add 1 12 kBid 5 1000050,
        .add 1 13 0x53 5 2000000] 1)).card) = some 2 := by decide +kernel
  simp only [Option.bind_eq_bind, Option.bind_eq_some_iff] at hread
  obtain ⟨s, hnew, s', hrun, hcard⟩ := hread
  refine ⟨s, s', hnew, hrun, ?_⟩
  rw [levels_size_exact RefTable.hash hnew hrun, Option.some.inj hcard]

/-! ## What the analysis says of the levels -/

/-- A replacement in the book of a symbol. -/
def replaces (locate : Nat) : Message → Bool
  | .orderReplace m => m.stockLocate.toNat = locate
  | _ => false

/-- The calls are for prices that the analysis has seen, but for those of replacements. -/
def Predicted (calls : List LevelCall) (seen : OrderedMap Nat Unit) (replacements : Nat) : Prop :=
  ∃ others : Finset (Bool × UInt32), others.card ≤ replacements ∧
    ∀ c ∈ calls, seen.find? c.price.toNat ≠ none ∨ (c.bid, c.price) ∈ others

section Predicted

variable {hash : Nat → Nat} {s s' : Store} {t : AnalyzeData} {calls : Nat → List LevelCall}
  {l : List LevelCall} {seen : OrderedMap Nat Unit} {msgs : List Message} {m : Message}
  {locate n : Nat}

/-- The calls of a message to the book. -/
theorem level_call_cases {shared : Shared} {b : OrderBook} {c : LevelCall}
    (h : b.levelCall hash shared m = some c) :
    (∃ a, m = .addOrder a ∧ c.price = a.price) ∨ ∃ u, m = .orderReplace u := by
  cases m with
  | addOrder a =>
      refine .inl ⟨a, rfl, ?_⟩
      simp only [levelCall] at h
      split at h
      next => cases h
      next =>
        cases h
        rfl
  | orderReplace u => exact .inr ⟨u, rfl⟩
  | orderExecuted | orderCancel | orderDelete => cases h

theorem Predicted.step (h : Predicted (calls locate) (t.pricesOf locate) n) (m : Message) :
    Predicted (callsAfter hash s calls m locate) ((t.step m).pricesOf locate)
      (n + if replaces locate m then 1 else 0) := by
  obtain ⟨others, hcard, hcalls⟩ := h
  have hkept : ∀ c ∈ calls locate, ((t.step m).pricesOf locate).find? c.price.toNat ≠ none ∨
      (c.bid, c.price) ∈ others := fun c hc =>
    (hcalls c hc).imp_left fun hseen => AnalyzeData.prices_step (.inl hseen)
  by_cases hl : locate = m.stockLocate
  · rw [callsAfter, ← hl, Function.update_self]
    cases hcall : (s.bookOf locate).levelCall hash s.toShared m with
    | none =>
        rw [Option.toList_none, List.append_nil]
        exact ⟨others, hcard.trans (Nat.le_add_right _ _), hkept⟩
    | some c =>
        rcases level_call_cases hcall with ⟨a, rfl, hprice⟩ | ⟨u, rfl⟩
        · refine ⟨others, hcard.trans (Nat.le_add_right _ _), fun c' hc' => ?_⟩
          rcases List.mem_append.mp hc' with hold | hnew
          · exact hkept c' hold
          · obtain rfl := List.mem_singleton.mp hnew
            exact .inl (AnalyzeData.prices_step (.inr ⟨a, rfl, hl.symm, hprice ▸ rfl⟩))
        · -- the call of a replacement is one of the others
          refine ⟨insert (c.bid, c.price) others, ?_, fun c' hc' => ?_⟩
          · have hreplaces : replaces locate (.orderReplace u) = true := decide_eq_true hl.symm
            rw [if_pos hreplaces]
            exact (Finset.card_insert_le _ _).trans (Nat.succ_le_succ hcard)
          · rcases List.mem_append.mp hc' with hold | hnew
            · exact (hkept c' hold).imp_right (Finset.mem_insert_of_mem ·)
            · obtain rfl := List.mem_singleton.mp hnew
              exact .inr (Finset.mem_insert_self _ _)
  · rw [callsAfter, Function.update_of_ne hl]
    exact ⟨others, hcard.trans (Nat.le_add_right _ _), hkept⟩

theorem Predicted.run (hrun : run (Store.step hash) s msgs = some s')
    (h : Predicted (calls locate) (t.pricesOf locate) n) :
    Predicted (beside (Store.step hash) (callsAfter hash) s calls msgs locate)
      ((msgs.foldl AnalyzeData.step t).pricesOf locate) (n + msgs.countP (replaces locate)) := by
  induction msgs generalizing s t calls n with
  | nil => exact h
  | cons m msgs ih =>
      rw [run_cons, Option.bind_eq_some_iff] at hrun
      obtain ⟨s₁, hs₁, hrun⟩ := hrun
      rw [beside_cons hs₁, List.countP_cons, Nat.add_comm (List.countP _ _), ← Nat.add_assoc]
      exact ih hrun (h.step m)

/-- Both sides of every price that has been seen, and the others. -/
theorem Predicted.card_le (h : Predicted l seen n) : (farPrices l).card ≤ 2 * seen.length + n := by
  obtain ⟨others, hcard, hcalls⟩ := h
  let prices : Finset UInt32 := (seen.entries.map fun e => UInt32.ofNat e.1).toFinset
  have hprices : prices.card ≤ seen.length :=
    (List.toFinset_card_le _).trans (List.length_map _).le
  have hsub : farPrices l ⊆ Finset.univ ×ˢ prices ∪ others := by
    intro key hkey
    obtain ⟨c, hc, rfl⟩ : ∃ c ∈ l, (c.bid, c.price) = key := by
      cases l with
      | nil => simp [farPrices] at hkey
      | cons first l =>
          simp only [farPrices, farFrom, List.mem_toFinset, List.mem_map, List.mem_filter] at hkey
          obtain ⟨c, ⟨hc, _⟩, heq⟩ := hkey
          exact ⟨c, hc, heq⟩
    rcases hcalls c hc with hseen | hother
    · obtain ⟨_, hfind⟩ := Option.ne_none_iff_exists'.mp hseen
      refine Finset.mem_union_left _ (Finset.mem_product.mpr ⟨Finset.mem_univ _, ?_⟩)
      refine List.mem_toFinset.mpr (List.mem_map.mpr ⟨_, seen.mem_entries_iff.mpr hfind, ?_⟩)
      exact UInt32.ofNat_toNat
    · exact Finset.mem_union_right _ hother
  calc (farPrices l).card ≤ (Finset.univ ×ˢ prices ∪ others).card := Finset.card_le_card hsub
    _ ≤ (Finset.univ ×ˢ prices).card + others.card := Finset.card_union_le _ _
    _ = 2 * prices.card + others.card := by rw [Finset.card_product, Finset.card_univ]; rfl
    _ ≤ 2 * seen.length + n := by omega

end Predicted

/-- A book has no more levels behind its window than both sides of the distinct prices that the
analysis counts for its symbol, and the replacements in it. -/
theorem levels_predicted (hash : Nat → Nat) {capacity refCapacity : Nat} {s s' : Store}
    (hnew : Store.new capacity refCapacity = some s) {msgs : List Message}
    (hrun : run (Store.step hash) s msgs = some s') (locate : Nat) :
    (s'.bookOf locate).levels.size ≤ 2 * kWindow +
      (2 * ((AnalyzeData.analyze msgs).pricesOf locate).length +
        msgs.countP (replaces locate)) := by
  have hcodes := codes_of_run (book_of_new hnew) hrun locate
  have hstart : Predicted [] (AnalyzeData.initial.pricesOf locate) 0 :=
    ⟨∅, le_rfl, fun c hc => absurd hc List.not_mem_nil⟩
  have hpredicted : Predicted (callsOf hash s msgs locate) _ _ := Predicted.run hrun hstart
  rw [Nat.zero_add] at hpredicted
  rw [(codes_inj.mp hcodes).2.2.1, size_calling]
  exact Nat.add_le_add_left hpredicted.card_le _

/-- Two additions at one price and a replacement. -/
theorem levels_predicted_two_prices :
    ∃ s s', Store.new 4 (2 ^ 3) = some s ∧ run (Store.step RefTable.hash) s
        [.add 1 10 kBid 5 1000050, .add 1 11 0x53 5 1000050, .replace 1 10 12 5 999950] = some s' ∧
      (s'.bookOf 1).levels.size ≤ 2 * kWindow + 3 := by
  have hread : (do
      let s ← Store.new 4 (2 ^ 3)
      run (Store.step RefTable.hash) s [.add 1 10 kBid 5 1000050, .add 1 11 0x53 5 1000050,
        .replace 1 10 12 5 999950]).isSome := by decide +kernel
  simp only [Option.bind_eq_bind, Option.isSome_iff_exists, Option.bind_eq_some_iff] at hread
  obtain ⟨s', s, hnew, hrun⟩ := hread
  refine ⟨s, s', hnew, hrun, (levels_predicted RefTable.hash hnew hrun 1).trans ?_⟩
  decide +kernel

end FeedHandler.V3.OrderBook
