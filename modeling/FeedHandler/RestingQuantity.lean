import FeedHandler.V1.Implements
import FeedHandler.V3.Reachable
import FeedHandler.V3.UnknownReference

/-!
# Remaining quantities in the two books

v3 compares the quantity of an execution with what is left of the order, v1 subtracts it and looks
for zero. `KeepsQuantities` says what a message should do to the orders that rest in a v1 book;
`resting_quantity_never_grows_iff` that the messages of a run do so exactly if none takes more than
is left.
-/

namespace FeedHandler

open Itch Runs

section V3

open V3

variable {hash : Nat → Nat} {capacity : Nat} {s : V3.Store} {lists : Lists} {m : Message}
  {ref qty left : Nat}

/-- A state that a stream reaches in which no reference is the empty key or live in another book. -/
def V3.Store.Reached (hash : Nat → Nat) (s : V3.Store) : Prop :=
  ∃ capacity refExp s₀ msgs, 1 ≤ refExp ∧ V3.Store.new capacity (2 ^ refExp) = some s₀ ∧
    Along (V3.Store.step hash) V3.Store.Admissible s₀ msgs ∧
    run (V3.Store.step hash) s₀ msgs = some s

theorem V3.Store.Reached.inv (h : s.Reached hash) :
    ∃ capacity lists, V3.Inv hash capacity s.toShared s.bookOf lists := by
  obtain ⟨capacity, refExp, s₀, msgs, hexp, hnew, hok, hrun⟩ := h
  obtain ⟨s', hrun', lists, hinv⟩ := run_inv hexp hnew hok
  obtain rfl := Option.some.inj (hrun.symm.trans hrun')
  exact ⟨capacity, lists, hinv⟩

/-- What is left of an order is the quantity in its slot. -/
theorem V3.remaining_eq (h : V3.Inv hash capacity s.toShared s.bookOf lists) (href : ref ≠ kEmpty) :
    s.remaining hash ref = (s.refs.lookup ref).map fun x => (s.pool.get x).qty := by
  rw [Shared.remaining, find_eq h href, Option.bind_eq_bind, Option.bind_some]
  cases hname : s.refs.lookup ref with
  | none => rfl
  | some x =>
      obtain ⟨locate, i, hx⟩ := h.named ref x hname
      obtain ⟨hlt, hne⟩ := h.lt_size hx
      rw [Option.getD_some, if_neg hne, OrderPool.slots_get hlt]
      rfl

/-- A v3 execution or cancellation takes what is left at most; an order of which nothing is left
leaves. -/
theorem V3.remaining_step (h : V3.Inv hash capacity s.toShared s.bookOf lists)
    (hok : s.Admissible m)
    (hm : m.target = some ref) (hqty : m.taken = some qty)
    (hleft : s.remaining hash ref = some left) :
    ∃ s', s.step hash m = some s' ∧
      s'.remaining hash ref = if qty ≥ left then none else some (left - qty) := by
  have href := hok.keys ref (Message.target_mem hm)
  obtain ⟨s', lists', hs', h', _, heffect⟩ := step_spec h (hok.admitted h)
  refine ⟨s', hs', ?_⟩
  rw [V3.remaining_eq h href, Option.map_eq_some_iff] at hleft
  obtain ⟨x, hname, rfl⟩ := hleft
  rw [V3.remaining_eq h' href]
  generalize s'.toShared = sh at heffect ⊢
  generalize s'.bookOf m.stockLocate = b' at heffect
  cases heffect with
  | ignored hm' hnone =>
      obtain rfl := Option.some.inj (hm'.symm.trans hm)
      rw [hnone] at hname
      cases hname
  | dropped => cases hqty
  | placed => cases hqty
  | replaced => cases hqty
  | reduced hm' hqty' hname' _ hlt _ _ hself _ hrefs =>
      obtain rfl := Option.some.inj (hm'.symm.trans hm)
      obtain rfl := Option.some.inj (hqty'.symm.trans hqty)
      obtain rfl := Option.some.inj (hname'.symm.trans hname)
      rw [hrefs, hname, Option.map_some, hself, if_neg (Nat.not_le.mpr hlt)]
  | removed hm' hname' hall _ hremoved =>
      obtain rfl := Option.some.inj (hm'.symm.trans hm)
      obtain rfl := Option.some.inj (hname'.symm.trans hname)
      obtain ⟨d, rfl⟩ | ⟨qty', hqty', hle⟩ := hall
      · cases hqty
      · obtain rfl := Option.some.inj (hqty'.symm.trans hqty)
        rw [hremoved.lookup_eq, Function.update_self, Option.map_none, if_pos hle]

end V3

namespace V1.OrderBook

/-- The shares that are left of the order a reference stands for. -/
def remaining (b : OrderBook) (ref : Nat) : Option Nat := do
  let loc ← b.refIndex.find? ref
  let o ← b.nodes.find? loc.it
  return o.shares.toNat

/-- The shares of the order that a message adds to the book, if it adds one. -/
def enters (b : OrderBook) : Message → Option UInt32
  | .addOrder m => some m.shares
  | .orderReplace m => (b.refIndex.find? m.originalOrderRef.toNat).map fun _ => m.shares
  | _ => none

/-- The shares that the order of each node was added with, after a message. -/
def enteredAfter (b : OrderBook) (entered : Nat → UInt32) (m : Message) : Nat → UInt32 :=
  match b.enters m with
  | some shares => Function.update entered b.nextNode shares
  | none => entered

/-- The shares that the order of each node was added with, after a run. -/
def enteredOf (b : OrderBook) (entered : Nat → UInt32) (msgs : List Message) : Nat → UInt32 :=
  beside OrderBook.apply enteredAfter b entered msgs

/-- No resting order has more shares than it was added with. -/
def Bounded (b : OrderBook) (entered : Nat → UInt32) : Prop :=
  ∀ it o, b.nodes.find? it = some o → o.shares ≤ entered it

/-- What a message should do to the resting orders: none gains shares, one that an execution or a
cancellation takes whole leaves, and what is left is what a v3 book leaves of the same order. -/
structure KeepsQuantities (b b' : OrderBook) (m : Message) : Prop where
  shrinks : ∀ it o o', b.nodes.find? it = some o → b'.nodes.find? it = some o' →
    o'.shares ≤ o.shares
  leaves : ∀ ref qty loc o, m.target = some ref → m.taken = some qty →
    b.refIndex.find? ref = some loc → b.nodes.find? loc.it = some o → qty ≥ o.shares.toNat →
    b'.refIndex.find? ref = none ∧ b'.nodes.find? loc.it = none ∧
      ∀ bid price, loc.it ∉ b'.queue bid price
  as_v3 : ∀ (hash : Nat → Nat) (s s' : V3.Store) ref qty, s.Reached hash → s.Admissible m →
    m.target = some ref → m.taken = some qty → s.remaining hash ref ≠ none →
    s.remaining hash ref = b.remaining ref → s.step hash m = some s' →
    s'.remaining hash ref = b'.remaining ref

/-- An execution or a cancellation takes no more than is left. -/
def Within (b : OrderBook) (m : Message) : Prop :=
  ∀ ref qty left, m.target = some ref → m.taken = some qty → b.remaining ref = some left →
    qty ≤ left

/-- A message does what it should to the resting orders. -/
def StepKeeps (b : OrderBook) (m : Message) : Prop :=
  ∀ b', b.apply m = some b' → KeepsQuantities b b' m

section Steps

variable {b b' : OrderBook} {m : Message} {ref : UInt64} {loc : OrderLocator} {it : Nat}
  {o o' : RestingOrder}

/-- Nodes are numbered below the next one. -/
def Numbered (b : OrderBook) : Prop := ∀ it o, b.nodes.find? it = some o → it < b.nextNode

/-- What a removal does to nodes and references. -/
theorem remove_order_nodes (h : b.Inv) (hloc : b.refIndex.find? ref.toNat = some loc) :
    ∃ b', b.removeOrder ref loc = some b' ∧ b'.nodes = b.nodes.erase loc.it ∧
      b'.nextNode = b.nextNode ∧ b'.refIndex = b.refIndex.erase ref.toNat ∧
      ∀ bid price, loc.it ∉ b'.queue bid price := by
  obtain ⟨b₁, hremove, hnodes, hindex, hnext, hqueue, _⟩ := remove_locator_spec h hloc
  refine ⟨{ b₁ with refIndex := b₁.refIndex.erase ref.toNat }, by rw [removeOrder, hremove]; rfl,
    hnodes, hnext, by rw [← hindex], fun bid price => ?_⟩
  show loc.it ∉ b₁.queue bid price
  rw [hqueue, List.mem_filter]
  simp

/-- Executions and cancellations reduce an order. -/
theorem apply_of_taken {r qty : Nat} (hm : m.target = some r) (hqty : m.taken = some qty) :
    ∃ (ref : UInt64) (shares : UInt32), r = ref.toNat ∧ qty = shares.toNat ∧
      ∀ b : OrderBook, b.apply m = b.reduceOrder ref shares := by
  cases m with
  | orderExecuted m =>
      exact ⟨_, _, (Option.some.inj hm).symm, (Option.some.inj hqty).symm, fun _ => rfl⟩
  | orderCancel m =>
      exact ⟨_, _, (Option.some.inj hm).symm, (Option.some.inj hqty).symm, fun _ => rfl⟩
  | addOrder => cases hm
  | orderDelete => cases hqty
  | orderReplace => cases hqty

/-- The two ways a reduction goes: on an equal quantity the order leaves, otherwise the difference
of 32-bit numbers remains. -/
theorem reduce_order_nodes (h : b.Inv) (shares : UInt32)
    (hloc : b.refIndex.find? ref.toNat = some loc) (ho : b.nodes.find? loc.it = some o) :
    ∃ b', b.reduceOrder ref shares = some b' ∧ b'.nextNode = b.nextNode ∧
      if o.shares = shares then
        (∀ it, b'.nodes.find? it = if it = loc.it then none else b.nodes.find? it) ∧
          b'.refIndex.find? ref.toNat = none ∧ ∀ bid price, loc.it ∉ b'.queue bid price
      else
        (∀ it, b'.nodes.find? it = if it = loc.it then some { o with shares := o.shares - shares }
          else b.nodes.find? it) ∧ b'.refIndex = b.refIndex := by
  obtain ⟨b₁, hb₁⟩ : ∃ b₁ : OrderBook,
    { b with nodes := b.nodes.assign loc.it { o with shares := o.shares - shares } } = b₁ :=
      ⟨_, rfl⟩
  have hzero : o.shares - shares = 0 ↔ o.shares = shares := by
    rw [UInt32.sub_eq_iff_eq_add, UInt32.zero_add]
  have hreduce : b.reduceOrder ref shares =
      if o.shares = shares then b₁.removeOrder ref loc else some b₁ := by
    simp only [reduceOrder, hloc, ho, hzero, hb₁, Option.bind_eq_bind, Option.bind_some]
    rfl
  have hinv₁ : b₁.Inv := hb₁ ▸ write_node_spec h loc.it _
  have hloc₁ : b₁.refIndex.find? ref.toNat = some loc := hb₁ ▸ hloc
  have hfind : ∀ it, b₁.nodes.find? it =
      if it = loc.it then some { o with shares := o.shares - shares } else b.nodes.find? it := by
    intro it
    rw [← hb₁]
    exact OrderedMap.find_assign ..
  rw [hreduce]
  split
  next =>
    obtain ⟨b', hb', hnodes, hnext, hindex, hqueue⟩ := remove_order_nodes hinv₁ hloc₁
    refine ⟨b', hb', hnext.trans (hb₁ ▸ rfl), fun it => ?_, ?_, hqueue⟩
    · rw [hnodes, OrderedMap.find_erase, hfind]
      split <;> rfl
    · rw [hindex, OrderedMap.find_erase, if_pos rfl]
  next => exact ⟨b₁, rfl, hb₁ ▸ rfl, hfind, hb₁ ▸ rfl⟩

/-- Where a node after a message comes from. -/
inductive NodeFrom (b : OrderBook) (m : Message) (it : Nat) (o' : RestingOrder) : Prop
  | kept (hold : b.nodes.find? it = some o')
  | entered (hit : it = b.nextNode) (henters : b.enters m = some o'.shares)
  /-- An execution or a cancellation has taken from it. -/
  | taken {ref : UInt64} {shares : UInt32} {loc : OrderLocator} {o : RestingOrder}
      (hm : m.target = some ref.toNat) (hqty : m.taken = some shares.toNat)
      (hloc : b.refIndex.find? ref.toNat = some loc) (hit : it = loc.it)
      (hold : b.nodes.find? loc.it = some o) (hsub : o'.shares = o.shares - shares)

/-- The number of the next node, and where the nodes after a message come from. -/
structure NodesFrom (b b' : OrderBook) (m : Message) : Prop where
  next_eq : b'.nextNode = if (b.enters m).isSome then b.nextNode + 1 else b.nextNode
  origin : ∀ it o', b'.nodes.find? it = some o' → b.NodeFrom m it o'

/-- Executions and cancellations. -/
theorem reduce_order_origin (h : b.Inv) {r qty : Nat} (hm : m.target = some r)
    (hqty : m.taken = some qty) (henters : b.enters m = none) (hb' : b.apply m = some b') :
    b.NodesFrom b' m := by
  obtain ⟨ref, shares, rfl, rfl, happly⟩ := apply_of_taken hm hqty
  rw [happly] at hb'
  cases hloc : b.refIndex.find? ref.toNat with
  | none =>
      simp only [reduceOrder, hloc, Option.some.injEq] at hb'
      subst hb'
      exact ⟨by rw [henters]; rfl, fun it o' ho' => .kept ho'⟩
  | some loc =>
      obtain ⟨o, ho⟩ := h.node hloc
      obtain ⟨b'', hb'', hnext, hcases⟩ := reduce_order_nodes h shares hloc ho
      obtain rfl := Option.some.inj (hb''.symm.trans hb')
      refine ⟨by rw [henters]; exact hnext, fun it o' ho' => ?_⟩
      split at hcases
      next =>
        rw [hcases.1] at ho'
        split at ho'
        next => cases ho'
        next => exact .kept ho'
      next =>
        rw [hcases.1] at ho'
        split at ho'
        next heq =>
          cases ho'
          exact .taken hm hqty hloc heq ho rfl
        next => exact .kept ho'

/-- Removals. -/
theorem remove_order_origin (h : b.Inv) (hloc : b.refIndex.find? ref.toNat = some loc)
    (hb' : b.removeOrder ref loc = some b') : b'.nextNode = b.nextNode ∧
      ∀ it o', b'.nodes.find? it = some o' → b.nodes.find? it = some o' := by
  obtain ⟨b'', hb'', hnodes, hnext, _⟩ := remove_order_nodes h hloc
  obtain rfl := Option.some.inj (hb''.symm.trans hb')
  refine ⟨hnext, fun it o' ho' => ?_⟩
  rw [hnodes, OrderedMap.find_erase] at ho'
  split at ho'
  next => cases ho'
  next => exact ho'

/-- The nodes after a message. -/
theorem apply_nodes (h : b.Inv) (hb' : b.apply m = some b') : b.NodesFrom b' m := by
  cases m with
  | addOrder m =>
      cases hb'
      refine ⟨rfl, fun it o' ho' => ?_⟩
      rw [addOrder, nodes_push_order, OrderedMap.find_assign] at ho'
      split at ho'
      next heq =>
        cases ho'
        exact .entered heq rfl
      next => exact .kept ho'
  | orderExecuted m => exact reduce_order_origin h rfl rfl rfl hb'
  | orderCancel m => exact reduce_order_origin h rfl rfl rfl hb'
  | orderDelete m =>
      replace hb' : b.deleteOrder m = some b' := hb'
      rw [deleteOrder] at hb'
      split at hb'
      next =>
        cases hb'
        exact ⟨rfl, fun it o' ho' => .kept ho'⟩
      next loc hloc =>
        obtain ⟨hnext, hold⟩ := remove_order_origin h hloc hb'
        exact ⟨hnext, fun it o' ho' => .kept (hold it o' ho')⟩
  | orderReplace m =>
      replace hb' : b.replaceOrder m = some b' := hb'
      rw [replaceOrder] at hb'
      split at hb'
      next hloc =>
        cases hb'
        exact ⟨by rw [enters, hloc]; rfl, fun it o' ho' => .kept ho'⟩
      next loc hloc =>
        have henters : b.enters (.orderReplace m) = some m.shares := by rw [enters, hloc]; rfl
        simp only [Option.bind_eq_bind, Option.bind_eq_some_iff, Option.pure_def,
          Option.some.injEq] at hb'
        obtain ⟨b₁, hb₁, rfl⟩ := hb'
        obtain ⟨hnext, hold⟩ := remove_order_origin h hloc hb₁
        refine ⟨by rw [henters]; exact congrArg (· + 1) hnext, fun it o' ho' => ?_⟩
        rw [nodes_push_order, OrderedMap.find_assign, hnext] at ho'
        split at ho'
        next heq =>
          cases ho'
          exact .entered heq henters
        next => exact .kept (hold it o' ho')

theorem numbered_new : new.Numbered := by
  intro it o ho
  cases ho

theorem Numbered.apply (h : b.Inv) (hnum : b.Numbered) (hb' : b.apply m = some b') :
    b'.Numbered := by
  intro it o' ho'
  obtain ⟨hnext, horigin⟩ := apply_nodes h hb'
  have hle : b.nextNode ≤ b'.nextNode := by
    rw [hnext]
    split <;> omega
  cases horigin it o' ho' with
  | kept hold => exact Nat.lt_of_lt_of_le (hnum it o' hold) hle
  | entered hit henters =>
      rw [hnext, henters, hit]
      exact Nat.lt_succ_self _
  | taken _ _ _ hit hold => exact Nat.lt_of_lt_of_le (hnum it _ (hit ▸ hold)) hle

/-- Taking no more than is left of an order does not wrap. -/
theorem Within.sub_le (hwithin : b.Within m) {shares : UInt32} (hm : m.target = some ref.toNat)
    (hqty : m.taken = some shares.toNat) (hloc : b.refIndex.find? ref.toNat = some loc)
    (ho : b.nodes.find? loc.it = some o) : o.shares - shares ≤ o.shares := by
  have hle : shares.toNat ≤ o.shares.toNat := by
    refine hwithin _ _ _ hm hqty ?_
    rw [remaining, hloc, Option.bind_eq_bind, Option.bind_some, ho]
    rfl
  rw [UInt32.le_iff_toNat_le, UInt32.toNat_sub_of_le _ _ (UInt32.le_iff_toNat_le.mpr hle)]
  exact Nat.sub_le _ _

/-- No resting order gains shares. -/
theorem Within.shrinks (hwithin : b.Within m) (h : b.Inv) (hnum : b.Numbered)
    (hb' : b.apply m = some b') (ho : b.nodes.find? it = some o)
    (ho' : b'.nodes.find? it = some o') : o'.shares ≤ o.shares := by
  cases (apply_nodes h hb').origin it o' ho' with
  | kept hold =>
      rw [Option.some.inj (ho.symm.trans hold)]
      exact UInt32.le_refl _
  -- A node that was there is not the next one to be numbered.
  | entered hit => exact absurd (hit ▸ hnum it o ho) (Nat.lt_irrefl _)
  | taken hm hqty hloc hit hold hsub =>
      subst hit
      obtain rfl := Option.some.inj (ho.symm.trans hold)
      exact hsub ▸ hwithin.sub_le hm hqty hloc ho

/-- The bound of every order by the shares it was added with. -/
theorem Within.bounded (hwithin : b.Within m) (h : b.Inv) (hnum : b.Numbered)
    (hb' : b.apply m = some b') {entered : Nat → UInt32} (hbound : b.Bounded entered) :
    b'.Bounded (b.enteredAfter entered m) := by
  intro it o' ho'
  have hkeep : ∀ o, b.nodes.find? it = some o → b.enteredAfter entered m it = entered it := by
    intro o ho
    rw [enteredAfter]
    cases b.enters m with
    | some shares => exact Function.update_of_ne (Nat.ne_of_lt (hnum it o ho)) _ _
    | none => rfl
  cases (apply_nodes h hb').origin it o' ho' with
  | kept hold => exact hkeep o' hold ▸ hbound it o' hold
  | entered hit henters =>
      rw [enteredAfter, henters, hit]
      simp
  | taken hm hqty hloc hit hold hsub =>
      subst hit
      rw [hkeep _ hold, hsub]
      exact UInt32.le_trans (hwithin.sub_le hm hqty hloc hold) (hbound _ _ hold)

/-- What a v1 book leaves of an order. -/
theorem remaining_apply (h : b.Inv) {r qty left : Nat} (hm : m.target = some r)
    (hqty : m.taken = some qty) (hleft : b.remaining r = some left) (hb' : b.apply m = some b') :
    b'.remaining r = if qty = left then none else some ((2 ^ 32 - qty + left) % 2 ^ 32) := by
  obtain ⟨ref, shares, rfl, rfl, happly⟩ := apply_of_taken hm hqty
  simp only [remaining, Option.bind_eq_bind, Option.bind_eq_some_iff, Option.pure_def,
    Option.some.injEq] at hleft
  obtain ⟨loc, hloc, o, ho, rfl⟩ := hleft
  rw [happly] at hb'
  obtain ⟨b'', hb'', _, hcases⟩ := reduce_order_nodes h shares hloc ho
  obtain rfl := Option.some.inj (hb''.symm.trans hb')
  by_cases heq : o.shares = shares
  · rw [if_pos heq] at hcases
    rw [if_pos (congrArg UInt32.toNat heq.symm), remaining, hcases.2.1]
    rfl
  · -- The node stays with the difference modulo `2 ^ 32`, whichever of the two is larger.
    rw [if_neg heq] at hcases
    have hne : shares.toNat ≠ o.shares.toNat := fun h => heq (UInt32.toNat_inj.mp h.symm)
    rw [if_neg hne, remaining, hcases.2, hloc, Option.bind_eq_bind, Option.bind_some, hcases.1,
      if_pos rfl, ← UInt32.toNat_sub]
    rfl

/-- A message does what it should to the resting orders exactly if it takes no more than is left. -/
theorem step_keeps_iff (h : b.Inv) (hnum : b.Numbered) : b.StepKeeps m ↔ b.Within m := by
  constructor
  · intro hkeeps ref qty left hm hqty hleft
    by_contra hlt
    have hlt : left < qty := Nat.lt_of_not_le hlt
    obtain ⟨b', hb', _⟩ := step_spec h m
    have hafter := remaining_apply h hm hqty hleft hb'
    rw [if_neg (Nat.ne_of_gt hlt)] at hafter
    -- The order is still there, with the difference modulo `2 ^ 32`.
    simp only [remaining, Option.bind_eq_bind, Option.bind_eq_some_iff, Option.pure_def,
      Option.some.injEq] at hleft hafter
    obtain ⟨loc, hloc, o, ho, rfl⟩ := hleft
    obtain ⟨hgone, _⟩ :=
      (hkeeps b' hb').leaves ref qty loc o hm hqty hloc ho (Nat.le_of_lt hlt)
    obtain ⟨loc', hloc', _⟩ := hafter
    rw [hgone] at hloc'
    cases hloc'
  · intro hwithin b' hb'
    refine ⟨fun it o o' ho ho' => hwithin.shrinks h hnum hb' ho ho', ?leaves, ?as_v3⟩
    case leaves =>
      intro r qty loc o hm hqty hloc ho hge
      obtain ⟨ref, shares, rfl, rfl, happly⟩ := apply_of_taken hm hqty
      have hle : shares.toNat ≤ o.shares.toNat := by
        refine hwithin _ _ _ hm hqty ?_
        rw [remaining, hloc, Option.bind_eq_bind, Option.bind_some, ho]
        rfl
      rw [happly] at hb'
      obtain ⟨b'', hb'', _, hcases⟩ := reduce_order_nodes h shares hloc ho
      obtain rfl := Option.some.inj (hb''.symm.trans hb')
      rw [if_pos (UInt32.toNat_inj.mp (Nat.le_antisymm hge hle))] at hcases
      exact ⟨hcases.2.1, by rw [hcases.1, if_pos rfl], hcases.2.2⟩
    case as_v3 =>
      intro hash s s' ref qty hreached hok hm hqty hne hsame hs'
      obtain ⟨capacity, lists, hinv⟩ := hreached.inv
      obtain ⟨left, hleft⟩ := Option.ne_none_iff_exists'.mp hne
      obtain ⟨s'', hs'', hafter⟩ := V3.remaining_step hinv hok hm hqty hleft
      obtain rfl := Option.some.inj (hs''.symm.trans hs')
      have hleft' := hsame.symm.trans hleft
      have hle := hwithin ref qty left hm hqty hleft'
      rw [hafter, remaining_apply h hm hqty hleft' hb']
      by_cases heq : qty = left
      · rw [if_pos heq, if_pos (Nat.le_of_eq heq.symm)]
      · have hmod : (2 ^ 32 - qty + left) % 2 ^ 32 = left - qty := by
          have hword : left < 2 ^ 32 := by
            simp only [remaining, Option.bind_eq_bind, Option.bind_eq_some_iff, Option.pure_def,
              Option.some.injEq] at hleft'
            obtain ⟨_, _, o, _, rfl⟩ := hleft'
            exact o.shares.toNat_lt
          omega
        rw [if_neg heq, if_neg (by omega), hmod]

end Steps

/-- Take any sequence of messages to a v1 book. Every message does what it should to the resting
orders, and in every state reached no order has more shares than it was added with, exactly if every
execution or cancellation takes no more than is left of the order it names. -/
theorem resting_quantity_never_grows_iff (msgs : List Message) :
    (Along OrderBook.apply StepKeeps .new msgs ∧ ∀ before, before <+: msgs →
      ∃ b, run OrderBook.apply .new before = some b ∧
        b.Bounded (enteredOf .new (fun _ => 0) before)) ↔
    Along OrderBook.apply Within .new msgs := by
  have hstep : ∀ (b : OrderBook) m b', b.Inv ∧ b.Numbered → True → b.apply m = some b' →
      b'.Inv ∧ b'.Numbered := by
    intro b m b' ⟨h, hnum⟩ _ hb'
    obtain ⟨b'', hb'', hinv, _⟩ := step_spec h m
    obtain rfl := Option.some.inj (hb''.symm.trans hb')
    exact ⟨hinv, hnum.apply h hb'⟩
  have hany : Along OrderBook.apply (fun _ _ => True) .new msgs :=
    along_of_forall (fun _ _ => trivial) _
  constructor
  · intro ⟨hkeeps, _⟩
    exact Along.imp_of_inv hstep (fun b m h _ => (step_keeps_iff h.1 h.2).mp)
      ⟨inv_new, numbered_new⟩ hany hkeeps
  · intro hwithin
    refine ⟨Along.imp_of_inv hstep (fun b m h _ => (step_keeps_iff h.1 h.2).mpr)
      ⟨inv_new, numbered_new⟩ hany hwithin, ?_⟩
    intro before hbefore
    obtain ⟨rest, rfl⟩ := hbefore
    have hkeep : ∀ (b : OrderBook) entered m, (b.Inv ∧ b.Numbered) ∧ b.Bounded entered →
        b.Within m →
        ∃ b', b.apply m = some b' ∧ (b'.Inv ∧ b'.Numbered) ∧
          b'.Bounded (b.enteredAfter entered m) := by
      intro b entered m ⟨⟨h, hnum⟩, hbound⟩ hm
      obtain ⟨b', hb', hinv, _⟩ := step_spec h m
      exact ⟨b', hb', ⟨hinv, hnum.apply h hb'⟩, hm.bounded h hnum hb' hbound⟩
    have hstart : (new.Inv ∧ new.Numbered) ∧ new.Bounded fun _ => 0 :=
      ⟨⟨inv_new, numbered_new⟩, fun it o ho => by cases ho⟩
    obtain ⟨b, hrun, _, hbound⟩ := run_beside hkeep hstart (along_append.mp hwithin).1
    exact ⟨b, hrun, hbound⟩

/-- An execution of 101 shares of an order of 100: 2^32 - 1 shares remain in the v1 book, and the v3
book has no such order any more. -/
theorem execution_beyond_remaining_wraps :
    ∃ b b' s s', run OrderBook.apply .new [.add 1 1 kBid 100 10000] = some b ∧
      b.apply (.execute 1 1 101) = some b' ∧
      V3.Store.new 4 (2 ^ 2) = some s ∧ run (V3.Store.step V3.RefTable.hash) s
        [.add 1 1 kBid 100 10000, .execute 1 1 101] = some s' ∧
      b.remaining 1 = some 100 ∧ b'.remaining 1 = some (2 ^ 32 - 1) ∧
      s'.remaining V3.RefTable.hash 1 = none ∧ ¬ KeepsQuantities b b' (.execute 1 1 101) := by
  have hread : (do
      let b ← run OrderBook.apply .new [.add 1 1 kBid 100 10000]
      let b' ← b.apply (.execute 1 1 101)
      let s ← V3.Store.new 4 (2 ^ 2)
      let s' ← run (V3.Store.step V3.RefTable.hash) s [.add 1 1 kBid 100 10000, .execute 1 1 101]
      return (b.remaining 1, b'.remaining 1, s'.remaining V3.RefTable.hash 1)) =
        some (some 100, some (2 ^ 32 - 1), none) := by decide +kernel
  simp only [Option.bind_eq_bind, Option.bind_eq_some_iff, Option.pure_def, Option.some.injEq,
    Prod.mk.injEq] at hread
  obtain ⟨b, hb, b', hb', s, hnew, s', hrun, hleft, hleft', hgone⟩ := hread
  refine ⟨b, b', s, s', hb, hb', hnew, hrun, hleft, hleft', hgone, fun hkeeps => ?_⟩
  simp only [remaining, Option.bind_eq_bind, Option.bind_eq_some_iff, Option.pure_def,
    Option.some.injEq] at hleft hleft'
  obtain ⟨loc, hloc, o, ho, hshares⟩ := hleft
  obtain ⟨loc', hloc', _⟩ := hleft'
  obtain ⟨hnone, _⟩ := hkeeps.leaves 1 101 loc o rfl rfl hloc ho (by rw [hshares]; decide)
  rw [hnone] at hloc'
  cases hloc'

end V1.OrderBook

end FeedHandler
