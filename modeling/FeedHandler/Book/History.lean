import FeedHandler.Book.Orders
import FeedHandler.Foundations.Runs
import Mathlib.Algebra.BigOperators.Group.List.Basic
import Mathlib.Algebra.Order.Group.Nat
import Mathlib.Data.List.Nodup
import Mathlib.Logic.Function.Basic

/-!
# The orders of a history, in any order

What remains of a list of messages, without the order in which they stand: `Remains` depends only on
which messages there are and on the sums of what they take. Read `Describes.concat` first: applying
a message to orders that are described in this way gives orders that are, provided the message may
come next (`Good`). `ValidHistory.good` and `Coherent.good` say that the messages of a valid history
may come as they stand and in every order that keeps introductions first, and `describes_perm` that
the same orders remain.
-/

namespace FeedHandler.Book

open Itch Runs

/-- The orders of all books after a message. -/
def dispatch (os : Nat → Orders) (m : Message) : Option (Nat → Orders) :=
  some (Function.update os m.stockLocate ((os m.stockLocate).apply m))

/-- The reference a message names stands for an order of its book that has the shares it takes. -/
def Names (os : Nat → Orders) (m : Message) : Prop :=
  ∀ ref ∈ m.target, ∃ o ∈ (os m.stockLocate).named ref, ∀ qty ∈ m.taken, qty ≤ o.shares

/-- A valid history: references are introduced once, and messages name live orders. -/
structure ValidHistory (msgs : List Message) : Prop where
  unique : (msgs.filterMap Message.introduced).Nodup
  names : Along dispatch Names (fun _ => []) msgs

/-- Every message stands behind the introduction of the reference it names. -/
def Causal (msgs : List Message) : Prop :=
  Along record (fun seen m => ∀ ref ∈ m.target, ref ∈ seen.filterMap Message.introduced) [] msgs

instance (os : Nat → Orders) (m : Message) : Decidable (Names os m) :=
  inferInstanceAs (Decidable (∀ ref ∈ m.target, ∃ o ∈ (os m.stockLocate).named ref,
    ∀ qty ∈ m.taken, qty ≤ o.shares))

instance (msgs : List Message) : Decidable (ValidHistory msgs) :=
  decidable_of_iff ((msgs.filterMap Message.introduced).Nodup ∧
    Along dispatch Names (fun _ => []) msgs) ⟨fun h => ⟨h.1, h.2⟩, fun h => ⟨h.1, h.2⟩⟩

instance (msgs : List Message) : Decidable (Causal msgs) :=
  inferInstanceAs (Decidable (Along record _ [] msgs))

/-! ## What a list of messages introduces and takes -/

/-- An order that messages introduce, with all its shares. A replacement takes the side from the
order it replaces. -/
inductive Introduced (msgs : List Message) : Nat → Order → Prop
  | add {m : AddOrder} (hm : .addOrder m ∈ msgs) : Introduced msgs m.stockLocate.toNat
      ⟨some m.orderRef.toNat, isBid m.side, m.price.toNat, m.shares.toNat⟩
  | replace {m : OrderReplace} {o : Order} (hm : .orderReplace m ∈ msgs)
      (h : Introduced msgs m.stockLocate.toNat o) (href : o.ref = some m.originalOrderRef.toNat) :
      Introduced msgs m.stockLocate.toNat
        ⟨some m.newOrderRef.toNat, o.bid, m.price.toNat, m.shares.toNat⟩

/-- The shares that messages take from the order of a reference. -/
def takenFrom (msgs : List Message) (ref : Nat) : Nat :=
  ((msgs.filter fun m => m.target = some ref).filterMap Message.taken).sum

/-- Messages end an order: they delete or replace it, or take all of its shares. -/
def Over (msgs : List Message) (ref shares : Nat) : Prop :=
  ∃ m ∈ msgs, m.target = some ref ∧ (m.taken = none ∨ shares ≤ takenFrom msgs ref)

/-- An order that remains after messages. -/
def Remains (msgs : List Message) (locate : Nat) (o : Order) : Prop :=
  ∃ ref o₀, Introduced msgs locate o₀ ∧ o₀.ref = some ref ∧ ¬ Over msgs ref o₀.shares ∧
    o = { o₀ with shares := o₀.shares - takenFrom msgs ref }

/-- The orders of all books are those that remain. -/
def Describes (msgs : List Message) (os : Nat → Orders) : Prop :=
  ∀ locate o, o ∈ os locate ↔ Remains msgs locate o

/-- The order a message creates, if the given ones are those before it. -/
def Creates (P : Nat → Order → Prop) : Message → Nat → Order → Prop
  | .addOrder m, locate, o => locate = m.stockLocate.toNat ∧
      o = ⟨some m.orderRef.toNat, isBid m.side, m.price.toNat, m.shares.toNat⟩
  | .orderReplace m, locate, o => locate = m.stockLocate.toNat ∧ ∃ o₀, P locate o₀ ∧
      o₀.ref = some m.originalOrderRef.toNat ∧
      o = ⟨some m.newOrderRef.toNat, o₀.bid, m.price.toNat, m.shares.toNat⟩
  | _, _, _ => False

section Orders

variable {os : Orders} {o : Order} {ref newRef qty price shares : Nat} {bid : Bool}

theorem named_mem (h : os.named ref = some o) : o ∈ os ∧ o.ref = some ref :=
  ⟨List.mem_of_find?_eq_some h, by simpa using List.find?_some h⟩

/-- Without an order of a reference, nothing follows from there being one. -/
theorem mem_iff_of_unnamed (hname : os.named ref = none) (p : Order → Prop) :
    o ∈ os ↔ (o ∈ os ∧ o.ref ≠ some ref) ∨ ∃ o₀ ∈ os, o₀.ref = some ref ∧ p o₀ := by
  have hno : ∀ o ∈ os, o.ref ≠ some ref := fun o ho => by
    simpa using List.find?_eq_none.mp hname o ho
  constructor
  · exact fun ho => .inl ⟨ho, hno o ho⟩
  · intro hor
    rcases hor with ⟨ho, _⟩ | ⟨o₀, ho₀, href, _⟩
    · exact ho
    · exact absurd href (hno o₀ ho₀)

theorem mem_remove_iff : o ∈ os.remove ref ↔ o ∈ os ∧ o.ref ≠ some ref := by
  simp [Orders.remove]

theorem mem_add_iff (hfresh : ∀ o ∈ os, o.ref ≠ some ref) :
    o ∈ os.add ref bid price shares ↔ o ∈ os ∨ o = ⟨some ref, bid, price, shares⟩ := by
  have hforget : os.forget ref = os := by
    refine (List.map_congr_left fun o ho => ?_).trans (List.map_id os)
    exact if_neg (hfresh o ho)
  rw [Orders.add, hforget, List.mem_append, List.mem_singleton]

theorem mem_reduce_iff
    (huniq : ∀ o ∈ os, ∀ o' ∈ os, o.ref = some ref → o'.ref = some ref → o = o') :
    o ∈ os.reduce ref qty ↔ (o ∈ os ∧ o.ref ≠ some ref) ∨
      ∃ o₀ ∈ os, o₀.ref = some ref ∧ qty < o₀.shares ∧
        o = { o₀ with shares := o₀.shares - qty } := by
  cases hname : os.named ref with
  | none =>
      rw [Orders.reduce, hname]
      exact mem_iff_of_unnamed hname _
  | some o₁ =>
      obtain ⟨ho₁, href₁⟩ := named_mem hname
      simp only [Orders.reduce, hname]
      -- Either the order is taken whole and removed, or its rest stays.
      by_cases hall : o₁.shares ≤ qty
      · rw [if_pos hall, mem_remove_iff, or_iff_left]
        intro h
        obtain ⟨o₀, ho₀, href, hlt, _⟩ := h
        rw [huniq o₀ ho₀ o₁ ho₁ href href₁] at hlt
        omega
      · rw [if_neg hall, Orders.take, List.mem_map]
        constructor
        · intro h
          obtain ⟨o₀, ho₀, rfl⟩ := h
          by_cases href : o₀.ref = some ref
          · obtain rfl := huniq o₀ ho₀ o₁ ho₁ href href₁
            exact .inr ⟨o₀, ho₀, href, by omega, if_pos href⟩
          · rw [Order.take, if_neg href]
            exact .inl ⟨ho₀, href⟩
        · intro hor
          rcases hor with ⟨ho, href⟩ | ⟨o₀, ho₀, href, _, rfl⟩
          · exact ⟨o, ho, if_neg href⟩
          · exact ⟨o₀, ho₀, if_pos href⟩

/-- The orders after a message: those it does not name, what it leaves of the one it names, and the
one it creates. -/
theorem mem_apply_iff {m : Message} (locate : Nat) (hl : locate = m.stockLocate)
    (huniq : ∀ o ∈ os, ∀ o' ∈ os, o.ref = o'.ref → o = o')
    (hfresh : ∀ ref ∈ m.introduced, ∀ o ∈ os, o.ref ≠ some ref) :
    o ∈ os.apply m ↔ (o ∈ os ∧ ∀ ref ∈ m.target, o.ref ≠ some ref) ∨
      (∃ ref ∈ m.target, ∃ qty ∈ m.taken, ∃ o₀ ∈ os, o₀.ref = some ref ∧ qty < o₀.shares ∧
        o = { o₀ with shares := o₀.shares - qty }) ∨
      Creates (fun _ o => o ∈ os) m locate o := by
  have huniq' : ∀ ref, ∀ o ∈ os, ∀ o' ∈ os, o.ref = some ref → o'.ref = some ref → o = o' :=
    fun _ o ho o' ho' h h' => huniq o ho o' ho' (h.trans h'.symm)
  cases m with
  | addOrder m =>
      rw [Orders.apply, mem_add_iff (hfresh _ rfl)]
      simp [Message.target, Creates, hl, Message.stockLocate]
  | orderExecuted m =>
      rw [Orders.apply, mem_reduce_iff (huniq' _)]
      simp [Message.target, Message.taken, Creates]
  | orderCancel m =>
      rw [Orders.apply, mem_reduce_iff (huniq' _)]
      simp [Message.target, Message.taken, Creates]
  | orderDelete m =>
      rw [Orders.apply, mem_remove_iff]
      simp [Message.target, Message.taken, Creates]
  -- A replacement drops the named order and adds one with its side.
  | orderReplace m =>
      have hcreate : Creates (fun _ o => o ∈ os) (.orderReplace m) locate o ↔ ∃ o₀ ∈ os,
          o₀.ref = some m.originalOrderRef.toNat ∧
          o = ⟨some m.newOrderRef.toNat, o₀.bid, m.price.toNat, m.shares.toNat⟩ := by
        simp [Creates, hl, Message.stockLocate]
      rw [hcreate]
      simp only [Orders.apply, Orders.replace, Message.target, Message.taken, Option.mem_def,
        Option.some.injEq, forall_eq', reduceCtorEq, false_and, exists_false, and_false, false_or]
      cases hname : os.named m.originalOrderRef.toNat with
      | none => exact mem_iff_of_unnamed hname _
      | some o₁ =>
          obtain ⟨ho₁, href₁⟩ := named_mem hname
          simp only
          rw [mem_add_iff fun o ho => hfresh _ rfl o (mem_remove_iff.mp ho).1, mem_remove_iff]
          refine or_congr_right ⟨fun ho => ⟨o₁, ho₁, href₁, ho⟩, ?_⟩
          intro hgiven
          obtain ⟨o₀, ho₀, href, rfl⟩ := hgiven
          rw [huniq' _ o₀ ho₀ o₁ ho₁ href href₁]

end Orders

section Closed

variable {msgs msgs' seen : List Message} {m m' : Message} {locate locate' ref shares : Nat}
  {o o' : Order}

/-- Two messages that introduce the same reference are the same. -/
theorem eq_of_introduced (hunique : (msgs.filterMap Message.introduced).Nodup) (hm : m ∈ msgs)
    (hm' : m' ∈ msgs) (href : m.introduced = some ref) (href' : m'.introduced = some ref) :
    m = m' := by
  induction msgs with
  | nil => cases hm
  | cons m₁ msgs ih =>
      have hmem : ∀ {m₂}, m₂ ∈ msgs → m₂.introduced = some ref →
          ref ∈ msgs.filterMap Message.introduced :=
        fun hm₂ href₂ => List.mem_filterMap.mpr ⟨_, hm₂, href₂⟩
      rcases List.mem_cons.mp hm with rfl | hrest <;> rcases List.mem_cons.mp hm' with rfl | hrest'
      · rfl
      · rw [List.filterMap_cons_some href, List.nodup_cons] at hunique
        exact absurd (hmem hrest' href') hunique.1
      · rw [List.filterMap_cons_some href', List.nodup_cons] at hunique
        exact absurd (hmem hrest href) hunique.1
      · refine ih (hunique.sublist ?_) hrest hrest'
        exact (List.sublist_cons_self m₁ msgs).filterMap _

/-- An introduced order stems from a message that introduces its reference. -/
theorem Introduced.message (h : Introduced msgs locate o) :
    ∃ m ∈ msgs, ∃ ref, m.introduced = some ref ∧ o.ref = some ref := by
  cases h with
  | add hm => exact ⟨_, hm, _, rfl, rfl⟩
  | replace hm _ _ => exact ⟨_, hm, _, rfl, rfl⟩

theorem Introduced.ref_mem (h : Introduced msgs locate o) (href : o.ref = some ref) :
    ref ∈ msgs.filterMap Message.introduced := by
  obtain ⟨m, hm, ref', hintro, href'⟩ := h.message
  obtain rfl := Option.some.inj (href.symm.trans href')
  exact List.mem_filterMap.mpr ⟨m, hm, hintro⟩

/-- A reference is introduced with one order, in one book. -/
theorem Introduced.unique (hunique : (msgs.filterMap Message.introduced).Nodup)
    (h : Introduced msgs locate o) (h' : Introduced msgs locate' o') (href : o.ref = o'.ref) :
    locate = locate' ∧ o = o' := by
  induction h generalizing locate' o' with
  | @add m hm =>
      cases h' with
      | @add m' hm' =>
          have heq := eq_of_introduced hunique hm hm' rfl href.symm
          cases heq
          exact ⟨rfl, rfl⟩
      | @replace m' _ hm' _ _ => cases eq_of_introduced hunique hm hm' rfl href.symm
  | @replace m o hm _ hold ih =>
      cases h' with
      | @add m' hm' => cases eq_of_introduced hunique hm hm' rfl href.symm
      | @replace m' o' hm' h' hold' =>
          have heq := eq_of_introduced hunique hm hm' rfl href.symm
          cases heq
          obtain ⟨_, rfl⟩ := ih h' (hold.trans hold'.symm)
          exact ⟨rfl, rfl⟩

theorem Introduced.mono (h : Introduced msgs locate o) (hsub : ∀ m ∈ msgs, m ∈ msgs') :
    Introduced msgs' locate o := by
  induction h with
  | add hm => exact .add (hsub _ hm)
  | replace hm _ href ih => exact .replace (hsub _ hm) ih href

/-- The messages name references that they introduce, in the same book. -/
structure Rooted (msgs : List Message) : Prop where
  unique : (msgs.filterMap Message.introduced).Nodup
  routed : ∀ m ∈ msgs, ∀ ref ∈ m.target, ∃ o, Introduced msgs m.stockLocate o ∧ o.ref = some ref

/-- A message may come next: the reference it introduces is new, and the one it names stands for an
order of its book that has the shares it takes. What is replaced is not over. -/
structure Good (seen : List Message) (m : Message) : Prop where
  fresh : ∀ ref ∈ m.introduced, ref ∉ seen.filterMap Message.introduced
  names : ∀ ref ∈ m.target, ∃ o, Introduced seen m.stockLocate o ∧ o.ref = some ref ∧
    (∀ qty ∈ m.taken, takenFrom seen ref + qty ≤ o.shares) ∧
    (m.introduced ≠ none → ¬ Over seen ref o.shares)

/-- A reference that a message introduces has an order. -/
theorem Rooted.exists_introduced (h : Rooted msgs) (hm : m ∈ msgs)
    (href : m.introduced = some ref) : ∃ locate o, Introduced msgs locate o ∧ o.ref = some ref := by
  cases m with
  | addOrder m => exact ⟨_, _, .add hm, href⟩
  | orderReplace m =>
      obtain ⟨o, ho, hold⟩ := h.routed _ hm _ rfl
      exact ⟨_, _, .replace hm ho hold, href⟩
  | orderExecuted m => cases href
  | orderCancel m => cases href
  | orderDelete m => cases href

/-- No message names a reference that has not been introduced. -/
theorem Rooted.target_ne (h : Rooted msgs) (hm : m ∈ msgs)
    (href : ref ∉ msgs.filterMap Message.introduced) : m.target ≠ some ref := fun htarget => by
  obtain ⟨o, ho, heq⟩ := h.routed m hm ref htarget
  exact href (ho.ref_mem heq)

/-- What one more message introduces. -/
theorem introduced_concat_iff (h : Rooted seen) (hgood : Good seen m) :
    Introduced (seen ++ [m]) locate o ↔
      Introduced seen locate o ∨ Creates (Introduced seen) m locate o := by
  constructor
  · intro hnew
    induction hnew with
    | @add m' hm' =>
        rcases List.mem_append.mp hm' with hm' | hm'
        · exact .inl (.add hm')
        · rw [← List.mem_singleton.mp hm']
          exact .inr ⟨rfl, rfl⟩
    | @replace m' o hm' _ href ih =>
        rcases List.mem_append.mp hm' with hm' | hm'
        · refine .inl (.replace hm' (ih.resolve_right fun hcreates => ?_) href)
          -- the new order would be one that an earlier message names
          refine h.target_ne hm' (hgood.fresh _ ?_) rfl
          cases m with
          | addOrder a => exact (congrArg Order.ref hcreates.2).symm.trans href
          | orderReplace a =>
              obtain ⟨_, o₀, _, _, rfl⟩ := hcreates
              exact href
          | orderExecuted a => cases hcreates
          | orderCancel a => cases hcreates
          | orderDelete a => cases hcreates
        · obtain rfl := List.mem_singleton.mp hm'
          refine .inr ⟨rfl, o, ih.resolve_right fun hcreates => ?_, href, rfl⟩
          obtain ⟨_, o₀, _, _, rfl⟩ := hcreates
          obtain ⟨o₁, ho₁, href₁, _⟩ := hgood.names _ rfl
          exact hgood.fresh _ rfl (Option.some.inj href ▸ ho₁.ref_mem href₁)
  · intro hor
    rcases hor with hold | hcreates
    · exact hold.mono fun m' hm' => List.mem_append_left _ hm'
    · have hm : m ∈ seen ++ [m] := List.mem_append_right _ List.mem_cons_self
      cases m with
      | addOrder a =>
          obtain ⟨rfl, rfl⟩ := hcreates
          exact .add hm
      | orderReplace a =>
          obtain ⟨rfl, o₀, ho₀, href, rfl⟩ := hcreates
          exact .replace hm (ho₀.mono fun m' hm' => List.mem_append_left _ hm') href
      | orderExecuted a => cases hcreates
      | orderCancel a => cases hcreates
      | orderDelete a => cases hcreates

/-- A created order has the reference its message introduces, in the book of the message. -/
theorem creates_ref {P : Nat → Order → Prop} (h : Creates P m locate o) :
    locate = m.stockLocate ∧ ∃ ref, m.introduced = some ref ∧ o.ref = some ref := by
  cases m with
  | addOrder a =>
      obtain ⟨rfl, rfl⟩ := h
      exact ⟨rfl, _, rfl, rfl⟩
  | orderReplace a =>
      obtain ⟨rfl, _, _, _, rfl⟩ := h
      exact ⟨rfl, _, rfl, rfl⟩
  | orderExecuted a => cases h
  | orderCancel a => cases h
  | orderDelete a => cases h

/-- The messages stay rooted. -/
theorem Rooted.concat (h : Rooted seen) (hgood : Good seen m) : Rooted (seen ++ [m]) where
  unique := by
    rw [List.filterMap_append, List.nodup_append]
    refine ⟨h.unique, ?_, fun ref href ref' href' => ?_⟩
    · cases hm : m.introduced <;> simp [hm]
    · intro hsame
      subst hsame
      exact hgood.fresh ref (by simpa using href') href
  routed m' hm' ref href := by
    rcases List.mem_append.mp hm' with hm' | hm'
    · obtain ⟨o, ho, heq⟩ := h.routed m' hm' ref href
      exact ⟨o, ho.mono fun m'' hm'' => List.mem_append_left _ hm'', heq⟩
    · obtain rfl := List.mem_singleton.mp hm'
      obtain ⟨o, ho, heq, _⟩ := hgood.names ref href
      exact ⟨o, ho.mono fun m'' hm'' => List.mem_append_left _ hm'', heq⟩

/-! ## What remains after one more message -/

theorem taken_from_append (msgs msgs' : List Message) (ref : Nat) :
    takenFrom (msgs ++ msgs') ref = takenFrom msgs ref + takenFrom msgs' ref := by
  simp [takenFrom, List.filter_append, List.filterMap_append]

theorem taken_from_of_ne (h : ∀ m ∈ msgs, m.target ≠ some ref) : takenFrom msgs ref = 0 := by
  have hnil : (msgs.filter fun m => m.target = some ref) = [] := by simpa using h
  rw [takenFrom, hnil]
  rfl

theorem Over.append_left (h : Over msgs ref shares) : Over (msgs ++ msgs') ref shares := by
  obtain ⟨m, hm, htarget, hall⟩ := h
  rw [Over, taken_from_append]
  exact ⟨m, List.mem_append_left _ hm, htarget, hall.imp_right fun hle => by omega⟩

/-- Messages that do not name a reference do not end its order. -/
theorem over_append_of_ne (h : ∀ m ∈ msgs', m.target ≠ some ref) :
    Over (msgs ++ msgs') ref shares ↔ Over msgs ref shares := by
  refine ⟨?_, Over.append_left⟩
  intro hgiven
  obtain ⟨m, hm, htarget, hall⟩ := hgiven
  rw [taken_from_append, taken_from_of_ne h, Nat.add_zero] at hall
  rcases List.mem_append.mp hm with hm | hm
  · exact ⟨m, hm, htarget, hall⟩
  · exact absurd htarget (h m hm)

/-- A deletion or a replacement ends the order it names. -/
theorem over_concat_of_ends (htarget : m.target = some ref) (hends : m.taken = none) :
    Over (seen ++ [m]) ref shares :=
  ⟨m, List.mem_append_right _ List.mem_cons_self, htarget, .inl hends⟩

theorem taken_from_concat {qty : Nat} (htarget : m.target = some ref) (hqty : m.taken = some qty) :
    takenFrom (seen ++ [m]) ref = takenFrom seen ref + qty := by
  rw [taken_from_append]
  simp [takenFrom, htarget, hqty]

theorem taken_from_concat_of_ends (hends : m.taken = none) :
    takenFrom (seen ++ [m]) ref = takenFrom seen ref := by
  rw [taken_from_append]
  by_cases htarget : m.target = some ref <;> simp [takenFrom, htarget, hends]

/-- An execution or a cancellation ends an order by taking what remains. -/
theorem over_concat_of_taken {qty : Nat} (htarget : m.target = some ref)
    (hqty : m.taken = some qty) : Over (seen ++ [m]) ref shares ↔
      Over seen ref shares ∨ shares ≤ takenFrom seen ref + qty := by
  constructor
  · intro h
    obtain ⟨m', hm', htarget', hall⟩ := h
    rw [taken_from_concat htarget hqty] at hall
    rcases hall with hends | hle
    · rcases List.mem_append.mp hm' with hm' | hm'
      · exact .inl ⟨m', hm', htarget', .inl hends⟩
      · rw [List.mem_singleton.mp hm', hqty] at hends
        cases hends
    · exact .inr hle
  · intro hor
    rcases hor with hover | hle
    · exact hover.append_left
    · refine ⟨m, List.mem_append_right _ List.mem_cons_self, htarget, .inr ?_⟩
      rwa [taken_from_concat htarget hqty]

/-- No message names the reference that the last one introduces. -/
theorem Good.target_ne (hgood : Good seen m) (h : Rooted seen) (href : m.introduced = some ref) :
    ∀ m' ∈ seen ++ [m], m'.target ≠ some ref := by
  intro m' hm'
  rcases List.mem_append.mp hm' with hm' | hm'
  · exact h.target_ne hm' (hgood.fresh ref href)
  · rw [List.mem_singleton.mp hm']
    intro htarget
    obtain ⟨o, ho, heq, _⟩ := hgood.names ref htarget
    exact hgood.fresh ref href (ho.ref_mem heq)

theorem taken_from_concat_of_ne (h : m.target ≠ some ref) :
    takenFrom (seen ++ [m]) ref = takenFrom seen ref := by
  have hnone : takenFrom [m] ref = 0 := taken_from_of_ne (by simpa using h)
  rw [taken_from_append, hnone, Nat.add_zero]

/-- What remains after one more message. -/
theorem remains_concat_iff (h : Rooted seen) (hgood : Good seen m) :
    Remains (seen ++ [m]) locate o ↔
      (Remains seen locate o ∧ ∀ ref ∈ m.target, o.ref ≠ some ref) ∨
      (∃ ref ∈ m.target, ∃ qty ∈ m.taken, ∃ o₀, Remains seen locate o₀ ∧ o₀.ref = some ref ∧
        qty < o₀.shares ∧ o = { o₀ with shares := o₀.shares - qty }) ∨
      Creates (Introduced seen) m locate o := by
  constructor
  · intro hgiven
    obtain ⟨ref, o₀, ho₀, href, hover, rfl⟩ := hgiven
    rcases (introduced_concat_iff h hgood).mp ho₀ with hold | hcreates
    · by_cases htarget : m.target = some ref
      · cases hqty : m.taken with
        -- A deletion or a replacement would have ended the order.
        | none => exact absurd (over_concat_of_ends htarget hqty) hover
        | some qty =>
            rw [over_concat_of_taken htarget hqty, not_or] at hover
            refine .inr (.inl ⟨ref, htarget, qty, rfl, _, ⟨ref, o₀, hold, href, hover.1, rfl⟩, href,
              ?_, ?_⟩)
            · show qty < o₀.shares - takenFrom seen ref
              omega
            · rw [taken_from_concat htarget hqty, Nat.sub_add_eq]
      · rw [over_append_of_ne (by simpa using htarget)] at hover
        rw [taken_from_concat_of_ne htarget]
        refine .inl ⟨⟨ref, o₀, hold, href, hover, rfl⟩, fun ref' href' heq => htarget ?_⟩
        exact (Option.mem_def.mp href').trans (heq.symm.trans href)
    · -- A created order has been taken from by no message yet.
      obtain ⟨_, ref', hintro, href'⟩ := creates_ref hcreates
      obtain rfl := Option.some.inj (href.symm.trans href')
      rw [taken_from_of_ne (hgood.target_ne h hintro)]
      exact .inr (.inr hcreates)
  · rintro (⟨⟨ref, o₀, ho₀, href, hover, rfl⟩, hne⟩ |
      ⟨ref, htarget, qty, hqty, _, ⟨ref', o₀, ho₀, href', hover, rfl⟩, href, hlt, rfl⟩ | hcreates)
    · have htarget : m.target ≠ some ref := fun htarget => hne ref htarget href
      refine ⟨ref, o₀, (introduced_concat_iff h hgood).mpr (.inl ho₀), href, ?_, ?_⟩
      · rwa [over_append_of_ne (by simpa using htarget)]
      · rw [taken_from_concat_of_ne htarget]
    · obtain rfl := Option.some.inj (href.symm.trans href')
      refine ⟨ref, o₀, (introduced_concat_iff h hgood).mpr (.inl ho₀), href', ?_, ?_⟩
      · rw [over_concat_of_taken htarget hqty, not_or]
        simp only at hlt
        exact ⟨hover, by omega⟩
      · rw [taken_from_concat htarget hqty, Nat.sub_add_eq]
    · obtain ⟨_, ref, hintro, href⟩ := creates_ref hcreates
      have hne := hgood.target_ne h hintro
      refine ⟨ref, o, (introduced_concat_iff h hgood).mpr (.inr hcreates), href, ?_, ?_⟩
      · intro hgiven
        obtain ⟨m', hm', htarget, _⟩ := hgiven
        exact hne m' hm' htarget
      · rw [taken_from_of_ne hne, Nat.sub_zero]

/-! ## Orders that messages describe -/

variable {os os' : Nat → Orders}

/-- An order that remains has been introduced. -/
theorem Remains.introduced (h : Remains seen locate o) (href : o.ref = some ref) :
    ∃ o₀, Introduced seen locate o₀ ∧ o₀.ref = some ref ∧ ¬ Over seen ref o₀.shares ∧
      o = { o₀ with shares := o₀.shares - takenFrom seen ref } := by
  obtain ⟨ref', o₀, ho₀, href', hover, rfl⟩ := h
  obtain rfl := Option.some.inj (href.symm.trans href')
  exact ⟨o₀, ho₀, href', hover, rfl⟩

/-- One order remains for a reference. -/
theorem Remains.unique (h : Rooted seen) (ho : Remains seen locate o)
    (ho' : Remains seen locate' o')
    (href : o.ref = o'.ref) : locate = locate' ∧ o = o' := by
  obtain ⟨ref, o₀, ho₀, href₀, _, rfl⟩ := ho
  obtain ⟨o₁, ho₁, href₁, _, rfl⟩ := ho'.introduced (href.symm.trans href₀)
  obtain ⟨rfl, rfl⟩ := ho₀.unique h.unique ho₁ (href₀.trans href₁.symm)
  exact ⟨rfl, rfl⟩

/-- A created order is the same from what has been introduced and from what remains. -/
theorem creates_congr (hgood : Good seen m) (h : Rooted seen) (hdesc : Describes seen os) :
    Creates (fun _ o => o ∈ os m.stockLocate) m m.stockLocate o ↔
      Creates (Introduced seen) m m.stockLocate o := by
  cases m with
  | addOrder a => rfl
  | orderReplace a =>
      obtain ⟨o₁, ho₁, href₁, _, hover⟩ := hgood.names _ rfl
      refine and_congr_right fun _ => ?_
      constructor
      · intro hgiven
        obtain ⟨o₀, hmem, hold, rfl⟩ := hgiven
        obtain ⟨o₂, ho₂, href₂, _, rfl⟩ := ((hdesc _ _).mp hmem).introduced hold
        exact ⟨o₂, ho₂, href₂, rfl⟩
      · intro hgiven
        obtain ⟨o₀, ho₀, href, rfl⟩ := hgiven
        obtain ⟨_, rfl⟩ := ho₀.unique h.unique ho₁ (href.trans href₁.symm)
        exact ⟨_, (hdesc _ _).mpr ⟨_, o₀, ho₀, href, hover (by simp [Message.introduced]), rfl⟩,
          href, rfl⟩
  | orderExecuted a => rfl
  | orderCancel a => rfl
  | orderDelete a => rfl

/-- A message that may come next leaves the orders that remain. -/
theorem Describes.concat (hdesc : Describes seen os) (h : Rooted seen) (hgood : Good seen m)
    (hos' : dispatch os m = some os') : Describes (seen ++ [m]) os' := by
  cases hos'
  intro locate o
  rw [remains_concat_iff h hgood]
  by_cases hl : locate = m.stockLocate
  · subst hl
    have huniq : ∀ o ∈ os m.stockLocate, ∀ o' ∈ os m.stockLocate, o.ref = o'.ref → o = o' :=
      fun o ho o' ho' href => (((hdesc _ _).mp ho).unique h ((hdesc _ _).mp ho') href).2
    have hfresh : ∀ ref ∈ m.introduced, ∀ o ∈ os m.stockLocate, o.ref ≠ some ref := by
      intro ref hintro o ho href
      obtain ⟨o₀, ho₀, href₀, _⟩ := ((hdesc _ _).mp ho).introduced href
      exact hgood.fresh ref hintro (ho₀.ref_mem href₀)
    rw [Function.update_self, mem_apply_iff _ rfl huniq hfresh, creates_congr hgood h hdesc]
    simp only [hdesc m.stockLocate]
  · rw [Function.update_of_ne hl, hdesc locate o]
    have htarget : ∀ ref ∈ m.target, ∀ o, Remains seen locate o → o.ref ≠ some ref := by
      intro ref htarget o ho href
      obtain ⟨o₀, ho₀, href₀, _⟩ := ho.introduced href
      obtain ⟨o₁, ho₁, href₁, _⟩ := hgood.names ref htarget
      exact hl (ho₀.unique h.unique ho₁ (href₀.trans href₁.symm)).1
    constructor
    · exact fun ho => .inl ⟨ho, fun ref href => htarget ref href o ho⟩
    · intro hor
      rcases hor with ⟨ho, _⟩ | ⟨ref, href, _, _, o₀, ho₀, heq, _⟩ | hcreates
      · exact ho
      · exact absurd heq (htarget ref href o₀ ho₀)
      · exact absurd (creates_ref hcreates).1 hl

/-- A message that may come next takes no more than remains. -/
theorem Describes.within (hdesc : Describes seen os) (h : Rooted seen) (hgood : Good seen m) :
    (os m.stockLocate).Within m := by
  intro ref qty o htarget hqty hname
  obtain ⟨ho, href⟩ := named_mem hname
  obtain ⟨o₀, ho₀, href₀, _, rfl⟩ := ((hdesc _ _).mp ho).introduced href
  obtain ⟨o₁, ho₁, href₁, htaken, _⟩ := hgood.names ref htarget
  obtain ⟨_, rfl⟩ := ho₀.unique h.unique ho₁ (href₀.trans href₁.symm)
  have := htaken qty hqty
  show qty ≤ o₀.shares - takenFrom seen ref
  omega

/-- There are no orders before the first message. -/
theorem describes_nil : Describes [] fun _ => [] := by
  intro locate o
  refine iff_of_false List.not_mem_nil ?_
  intro h
  obtain ⟨ref, o₀, ho₀, _⟩ := h
  obtain ⟨m, hm, _⟩ := ho₀.message
  cases hm

theorem rooted_nil : Rooted [] := ⟨List.nodup_nil, fun m hm => by cases hm⟩

/-! ## The order of the messages -/

theorem taken_from_perm (h : msgs.Perm msgs') (ref : Nat) :
    takenFrom msgs ref = takenFrom msgs' ref :=
  ((h.filter _).filterMap _).sum_eq

theorem Over.perm (hover : Over msgs ref shares) (h : msgs.Perm msgs') : Over msgs' ref shares := by
  obtain ⟨m, hm, htarget, hall⟩ := hover
  exact ⟨m, h.mem_iff.mp hm, htarget, taken_from_perm h ref ▸ hall⟩

theorem Remains.perm (ho : Remains msgs locate o) (h : msgs.Perm msgs') :
    Remains msgs' locate o := by
  obtain ⟨ref, o₀, ho₀, href, hover, rfl⟩ := ho
  refine ⟨ref, o₀, ho₀.mono fun m hm => h.mem_iff.mp hm, href, fun hover' => ?_, ?_⟩
  · exact hover (hover'.perm h.symm)
  · rw [taken_from_perm h]

/-- Orders that the same messages describe are the same. -/
theorem describes_perm (hdesc : Describes msgs os) (hdesc' : Describes msgs' os')
    (h : msgs.Perm msgs') : o ∈ os locate ↔ o ∈ os' locate := by
  rw [hdesc, hdesc']
  exact ⟨fun ho => ho.perm h, fun ho => ho.perm h.symm⟩

/-- What a valid history has, in whatever order its messages stand: no more is taken than there is,
and an order that is replaced is not ended by the other messages. -/
structure Coherent (msgs : List Message) : Prop extends Rooted msgs where
  within : ∀ locate o ref, Introduced msgs locate o → o.ref = some ref →
    takenFrom msgs ref ≤ o.shares
  replaced : ∀ m rest, msgs.Perm (m :: rest) → m.introduced ≠ none → ∀ ref ∈ m.target,
    ∀ locate o, Introduced msgs locate o → o.ref = some ref → ¬ Over rest ref o.shares

theorem coherent_nil : Coherent [] where
  toRooted := rooted_nil
  within _ _ _ h _ := by
    obtain ⟨_, hm, _⟩ := h.message
    cases hm
  replaced _ _ h := by
    have := h.length_eq
    simp at this

theorem Coherent.perm (hmsgs : Coherent msgs) (h : msgs.Perm msgs') : Coherent msgs' where
  unique := (h.filterMap _).nodup_iff.mp hmsgs.unique
  routed m hm ref href := by
    obtain ⟨o, ho, heq⟩ := hmsgs.routed m (h.mem_iff.mpr hm) ref href
    exact ⟨o, ho.mono fun m' hm' => h.mem_iff.mp hm', heq⟩
  within locate o ref ho href := by
    rw [← taken_from_perm h]
    exact hmsgs.within locate o ref (ho.mono fun m hm => h.mem_iff.mpr hm) href
  replaced m rest hrest hintro ref htarget locate o ho href :=
    hmsgs.replaced m rest (h.trans hrest) hintro ref htarget locate o
      (ho.mono fun m hm => h.mem_iff.mpr hm) href

/-- A message that names a live order names one that is not over. -/
theorem Coherent.live (h : Coherent seen) (hdesc : Describes seen os) (hnames : Names os m) :
    ∀ ref ∈ m.target, ∃ o, Introduced seen m.stockLocate o ∧ o.ref = some ref ∧
      ¬ Over seen ref o.shares ∧ ∀ qty ∈ m.taken, takenFrom seen ref + qty ≤ o.shares := by
  intro ref htarget
  obtain ⟨o, hname, hqty⟩ := hnames ref htarget
  obtain ⟨ho, href⟩ := named_mem hname
  obtain ⟨o₀, ho₀, href₀, hover, rfl⟩ := ((hdesc _ _).mp ho).introduced href
  have hwithin := h.within _ _ _ ho₀ href₀
  refine ⟨o₀, ho₀, href₀, hover, fun qty htaken => ?_⟩
  have hqty := hqty qty htaken
  simp only at hqty
  omega

/-- A message of a valid history keeps the messages coherent. -/
theorem Coherent.concat (h : Coherent seen) (hdesc : Describes seen os) (hnames : Names os m)
    (hgood : Good seen m) : Coherent (seen ++ [m]) where
  toRooted := h.toRooted.concat hgood
  within locate o ref ho href := by
    rcases (introduced_concat_iff h.toRooted hgood).mp ho with hold | hcreates
    · have hle := h.within locate o ref hold href
      by_cases htarget : m.target = some ref
      · cases hqty : m.taken with
        | none => rwa [taken_from_concat_of_ends hqty]
        | some qty =>
            -- The message takes at most what the live order has left.
            obtain ⟨o₁, ho₁, href₁, _, htaken⟩ := h.live hdesc hnames ref htarget
            obtain ⟨_, rfl⟩ := hold.unique h.unique ho₁ (href.trans href₁.symm)
            rw [taken_from_concat htarget hqty]
            exact htaken qty hqty
      · rwa [taken_from_concat_of_ne htarget]
    · obtain ⟨_, ref', hintro, href'⟩ := creates_ref hcreates
      obtain rfl := Option.some.inj (href.symm.trans href')
      rw [taken_from_of_ne (hgood.target_ne h.toRooted hintro)]
      exact Nat.zero_le _
  replaced m' rest hrest hintro ref htarget locate o ho href := by
    have hunique := (h.toRooted.concat hgood).unique
    have hsub : ∀ m' ∈ seen, m' ∈ seen ++ [m] := fun m' hm' => List.mem_append_left _ hm'
    by_cases hm' : m' = m
    · -- the last message replaces an order that is not over
      subst hm'
      obtain ⟨o₁, ho₁, href₁, hover, _⟩ := h.live hdesc hnames ref htarget
      obtain ⟨_, rfl⟩ := ho.unique hunique (ho₁.mono hsub) (href.trans href₁.symm)
      have hperm : seen.Perm rest :=
        ((List.perm_append_singleton m' seen).symm.trans hrest).cons_inv
      exact fun hover' => hover (hover'.perm hperm.symm)
    · -- the last message does not name an order that an earlier one replaced
      have hmem : m' ∈ seen := by
        have hmem := hrest.mem_iff.mpr List.mem_cons_self
        simpa [hm'] using hmem
      obtain ⟨o₁, ho₁, href₁⟩ := h.routed m' hmem ref htarget
      obtain ⟨rfl, rfl⟩ := ho.unique hunique (ho₁.mono hsub) (href.trans href₁.symm)
      have hends : m'.taken = none := by
        cases m' <;> first | rfl | exact absurd rfl hintro
      have hne : m.target ≠ some ref := by
        intro htarget'
        obtain ⟨_, _, _, hover, _⟩ := h.live hdesc hnames ref htarget'
        exact hover ⟨m', hmem, htarget, .inl hends⟩
      have hperm : rest.Perm (seen.erase m' ++ [m]) :=
        (hrest.symm.trans ((List.perm_cons_erase hmem).append_right [m])).cons_inv
      intro hover
      have hover := (over_append_of_ne (by simpa using hne)).mp (hover.perm hperm)
      exact h.replaced m' _ (List.perm_cons_erase hmem) hintro ref htarget _ _ ho₁ href₁ hover

/-- Along a valid history every message may come next, and the messages are coherent. -/
theorem ValidHistory.good (h : ValidHistory msgs) : Along record Good [] msgs ∧ Coherent msgs := by
  have hrun : ∀ (msgs seen : List Message) (os : Nat → Orders), Coherent seen →
      Describes seen os → ((seen ++ msgs).filterMap Message.introduced).Nodup →
      Along dispatch Names os msgs → Along record Good seen msgs ∧ Coherent (seen ++ msgs) := by
    intro msgs
    induction msgs with
    | nil => exact fun seen os h _ _ _ => ⟨trivial, by simpa using h⟩
    | cons m msgs ih =>
        intro seen os h hdesc hunique hboth
        obtain ⟨hnames, hrest⟩ := hboth
        have hgood : Good seen m := by
          refine ⟨fun ref hintro href => ?_, fun ref htarget => ?_⟩
          · rw [List.filterMap_append, List.filterMap_cons_some hintro] at hunique
            exact (List.nodup_append.mp hunique).2.2 ref href ref List.mem_cons_self rfl
          · obtain ⟨o, ho, href, hover, htaken⟩ := h.live hdesc hnames ref htarget
            exact ⟨o, ho, href, htaken, fun _ => hover⟩
        obtain ⟨hgoods, hcoherent⟩ := ih (seen ++ [m]) _ (h.concat hdesc hnames hgood)
          (hdesc.concat h.toRooted hgood rfl) (by simpa using hunique) (hrest _ rfl)
        refine ⟨⟨hgood, ?_⟩, by simpa using hcoherent⟩
        intro _ heq
        cases heq
        exact hgoods
  simpa using hrun msgs [] _ coherent_nil describes_nil h.unique h.names

/-- In whatever order the messages of a valid history come, each may come next if it stands behind
the introduction of the reference it names. -/
theorem Coherent.good (h : Coherent msgs) (hcausal : Causal msgs) : Along record Good [] msgs := by
  have hrun : ∀ (msgs seen : List Message), Rooted seen → Coherent (seen ++ msgs) →
      Along record (fun seen m => ∀ ref ∈ m.target, ref ∈ seen.filterMap Message.introduced) seen
        msgs → Along record Good seen msgs := by
    intro msgs
    induction msgs with
    | nil => exact fun _ _ _ _ => trivial
    | cons m msgs ih =>
        intro seen hseen h hgiven
        obtain ⟨hknown, hrest⟩ := hgiven
        have hsub : ∀ m' ∈ seen, m' ∈ seen ++ m :: msgs := fun m' hm' => List.mem_append_left _ hm'
        have hgood : Good seen m := by
          refine ⟨fun ref hintro href => ?_, fun ref htarget => ?_⟩
          · have hunique := h.unique
            rw [List.filterMap_append, List.filterMap_cons_some hintro] at hunique
            exact (List.nodup_append.mp hunique).2.2 ref href ref List.mem_cons_self rfl
          · obtain ⟨m₀, hm₀, hintro⟩ := List.mem_filterMap.mp (hknown ref htarget)
            obtain ⟨locate, o, ho, href⟩ := hseen.exists_introduced hm₀ hintro
            obtain ⟨o₁, ho₁, href₁⟩ := h.routed m (by simp) ref htarget
            obtain ⟨rfl, rfl⟩ := (ho.mono hsub).unique h.unique ho₁ (href.trans href₁.symm)
            refine ⟨o, ho, href, fun qty hqty => ?_, fun hintro hover => ?_⟩
            · have hle := h.within _ o ref ho₁ href
              rw [List.append_cons, taken_from_append, taken_from_concat htarget hqty] at hle
              omega
            · exact h.replaced m (seen ++ msgs) List.perm_middle hintro ref htarget _ o ho₁ href
                hover.append_left
        refine ⟨hgood, ?_⟩
        intro _ heq
        cases heq
        exact ih (seen ++ [m]) (hseen.concat hgood) (by simpa using h) (hrest _ rfl)
  exact hrun msgs [] rooted_nil h hcausal

end Closed

end FeedHandler.Book
