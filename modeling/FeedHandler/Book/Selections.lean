import FeedHandler.Book.History
import Mathlib.Algebra.Order.BigOperators.Group.List
import Mathlib.Data.List.Perm.Subperm

/-!
# Selections of a valid history

What a lossy network leaves of a valid history: some of its messages, in any order. A message may
then name an order whose introduction is lost or late, and is ignored. `Selected` relates the orders
of the books to the whole history: every order has a source in it, and has at least the shares of
its source but for what the selection has taken. So no message of a selection takes more than
remains (`Selected.within`), and references stay in their books (`Selected.own`).
-/

namespace FeedHandler.Book

open Itch Runs

/-- The orders of all books after a selection of the messages of a history. -/
structure Selected (msgs seen : List Message) (os : Nat → Orders) : Prop where
  part : seen.Subperm msgs
  source : ∀ locate, ∀ o ∈ os locate, ∀ ref, o.ref = some ref →
    ref ∈ seen.filterMap Message.introduced ∧ ∃ o₀, Introduced msgs locate o₀ ∧
      o₀.ref = some ref ∧ o₀.shares ≤ o.shares + takenFrom seen ref

section Apply

variable {os : Orders} {o : Order} {ref newRef qty : Nat} {m : Message}

theorem mem_forget (h : o ∈ os.forget newRef) (href : o.ref = some ref) :
    ∃ o' ∈ os, o'.ref = some ref ∧ o'.shares = o.shares := by
  obtain ⟨o', ho', rfl⟩ := List.mem_map.mp h
  exact ⟨o', ho', ((Order.forget_ref_iff _ _ _).mp href).1, (Order.forget_shares _ _).symm⟩

theorem mem_reduce (h : o ∈ os.reduce newRef qty) (href : o.ref = some ref) :
    ∃ o' ∈ os, o'.ref = some ref ∧
      o'.shares ≤ o.shares + if newRef = ref then qty else 0 := by
  have hsame : o ∈ os → ∃ o' ∈ os, o'.ref = some ref ∧
      o'.shares ≤ o.shares + if newRef = ref then qty else 0 := fun ho =>
    ⟨o, ho, href, Nat.le_add_right _ _⟩
  unfold Orders.reduce at h
  split at h
  next => exact hsame h
  next o₁ _ =>
    split at h
    next => exact hsame (List.mem_of_mem_filter h)
    next =>
      obtain ⟨o', ho', rfl⟩ := List.mem_map.mp h
      rw [Order.take_ref] at href
      refine ⟨o', ho', href, ?_⟩
      simp only [Order.take_shares, href, Option.some.injEq]
      by_cases heq : ref = newRef
      · rw [if_pos heq, if_pos heq.symm]
        omega
      · rw [if_neg heq]
        omega

/-- An order after a message was there before, with no more shares than now and taken, or is the one
the message creates. -/
theorem mem_apply (h : o ∈ os.apply m) (href : o.ref = some ref) :
    (∃ o' ∈ os, o'.ref = some ref ∧ o'.shares ≤ o.shares + takenFrom [m] ref) ∨
      Creates (fun _ o => o ∈ os) m m.stockLocate o := by
  have hkeep : (∃ o' ∈ os, o'.ref = some ref ∧ o'.shares = o.shares) →
      ∃ o' ∈ os, o'.ref = some ref ∧ o'.shares ≤ o.shares + takenFrom [m] ref := by
    intro hgiven
    obtain ⟨o', ho', href', hshares⟩ := hgiven
    exact ⟨o', ho', href', hshares.trans_le (Nat.le_add_right _ _)⟩
  have hreduce : ∀ target qty, m.target = some target → m.taken = some qty →
      o ∈ os.reduce target qty →
      ∃ o' ∈ os, o'.ref = some ref ∧ o'.shares ≤ o.shares + takenFrom [m] ref := by
    intro target qty htarget hqty ho
    obtain ⟨o', ho', href', hshares⟩ := mem_reduce ho href
    refine ⟨o', ho', href', hshares.trans_eq ?_⟩
    by_cases heq : target = ref <;> simp [takenFrom, htarget, hqty, heq]
  cases m with
  | addOrder a =>
      rcases List.mem_append.mp h with hold | hnew
      · exact .inl (hkeep (mem_forget hold href))
      · exact .inr ⟨rfl, List.mem_singleton.mp hnew⟩
  | orderExecuted a => exact .inl (hreduce _ _ rfl rfl h)
  | orderCancel a => exact .inl (hreduce _ _ rfl rfl h)
  | orderDelete a => exact .inl (hkeep ⟨o, List.mem_of_mem_filter h, href, rfl⟩)
  | orderReplace a =>
      simp only [Orders.apply, Orders.replace] at h
      split at h
      next => exact .inl (hkeep ⟨o, h, href, rfl⟩)
      next o₁ hname =>
        obtain ⟨ho₁, href₁⟩ := named_mem hname
        rcases List.mem_append.mp h with hold | hnew
        · obtain ⟨o', ho', href', hshares⟩ := mem_forget hold href
          exact .inl (hkeep ⟨o', List.mem_of_mem_filter ho', href', hshares⟩)
        · exact .inr ⟨rfl, o₁, ho₁, href₁, List.mem_singleton.mp hnew⟩

end Apply

section Selected

variable {msgs seen : List Message} {os os' : Nat → Orders} {m : Message} {ref : Nat}

/-- A part of the messages takes no more than all. -/
theorem taken_from_le (h : seen.Subperm msgs) (ref : Nat) :
    takenFrom seen ref ≤ takenFrom msgs ref := by
  obtain ⟨l, hperm, hsub⟩ := h
  rw [← taken_from_perm hperm]
  exact ((hsub.filter _).filterMap _).sum_le_sum fun _ _ => Nat.zero_le _

/-- A part of the messages introduces no reference twice. -/
theorem introduced_nodup (hmsgs : Rooted msgs) (h : seen.Subperm msgs) :
    (seen.filterMap Message.introduced).Nodup := by
  obtain ⟨l, hperm, hsub⟩ := h
  exact (hperm.filterMap _).nodup_iff.mp (hmsgs.unique.sublist (hsub.filterMap _))

theorem selected_nil (msgs : List Message) : Selected msgs [] fun _ => [] where
  part := List.nil_subperm
  source _ _ ho := nomatch ho

/-- The next message is one of the history. -/
theorem mem_of_part (hpart : (seen ++ [m]).Subperm msgs) : m ∈ msgs :=
  hpart.subset (List.mem_append_right _ List.mem_cons_self)

/-- A message takes no more than remains. -/
theorem Selected.within (h : Selected msgs seen os) (hmsgs : Coherent msgs)
    (hpart : (seen ++ [m]).Subperm msgs) : (os m.stockLocate).Within m := by
  intro ref qty o htarget hqty hname
  obtain ⟨ho, href⟩ := named_mem hname
  obtain ⟨_, o₀, ho₀, href₀, hshares⟩ := h.source _ o ho ref href
  have htaken := (taken_from_le hpart ref).trans (hmsgs.within _ o₀ ref ho₀ href₀)
  rw [taken_from_concat htarget hqty] at htaken
  omega

/-- An order of a reference that a message introduces is not there yet. -/
theorem Selected.fresh (h : Selected msgs seen os) (hmsgs : Coherent msgs)
    (hpart : (seen ++ [m]).Subperm msgs) (hintro : m.introduced = some ref) (locate : Nat) :
    ∀ o ∈ os locate, o.ref ≠ some ref := by
  intro o ho href
  have hnodup := introduced_nodup hmsgs.toRooted hpart
  rw [List.filterMap_append, List.filterMap_cons_some hintro] at hnodup
  exact (List.nodup_append.mp hnodup).2.2 ref (h.source locate o ho ref href).1 ref
    List.mem_cons_self rfl

/-- The order a message names is in the book of the message. -/
theorem Selected.own (h : Selected msgs seen os) (hmsgs : Coherent msgs)
    (hpart : (seen ++ [m]).Subperm msgs) (href : ref ∈ m.refs) {locate : Nat} {o : Order}
    (ho : o ∈ os locate) (hoRef : o.ref = some ref) : locate = m.stockLocate := by
  rcases Message.mem_refs_iff.mp href with htarget | hintro
  · obtain ⟨_, o₀, ho₀, href₀, _⟩ := h.source locate o ho ref hoRef
    obtain ⟨o₁, ho₁, href₁⟩ := hmsgs.routed m (mem_of_part hpart) ref htarget
    exact (ho₀.unique hmsgs.unique ho₁ (href₀.trans href₁.symm)).1
  · exact absurd hoRef (h.fresh hmsgs hpart hintro locate o ho)

/-- One more message. -/
theorem Selected.concat (h : Selected msgs seen os) (hpart : (seen ++ [m]).Subperm msgs)
    (hos' : dispatch os m = some os') : Selected msgs (seen ++ [m]) os' where
  part := hpart
  source locate o ho ref href := by
    cases hos'
    -- an order that was there keeps its source, and one share taken is counted once
    have hkeep : ∀ o' ∈ os locate, o'.ref = some ref →
        o'.shares ≤ o.shares + takenFrom [m] ref →
        ref ∈ (seen ++ [m]).filterMap Message.introduced ∧ ∃ o₀, Introduced msgs locate o₀ ∧
          o₀.ref = some ref ∧ o₀.shares ≤ o.shares + takenFrom (seen ++ [m]) ref := by
      intro o' ho' href' hshares
      obtain ⟨hseen, o₀, ho₀, href₀, hle⟩ := h.source locate o' ho' ref href'
      rw [List.filterMap_append, taken_from_append]
      exact ⟨List.mem_append_left _ hseen, o₀, ho₀, href₀, by omega⟩
    by_cases hl : locate = m.stockLocate
    · subst hl
      rw [Function.update_self] at ho
      rcases mem_apply ho href with ⟨o', ho', href', hshares⟩ | hcreates
      · exact hkeep o' ho' href' hshares
      · obtain ⟨_, ref', hintro, href'⟩ := creates_ref hcreates
        obtain rfl := Option.some.inj (href.symm.trans href')
        refine ⟨?_, ?_⟩
        · rw [List.filterMap_append, List.filterMap_cons_some hintro]
          exact List.mem_append_right _ List.mem_cons_self
        · have hm := mem_of_part hpart
          cases m with
          | addOrder a =>
              obtain ⟨_, rfl⟩ := hcreates
              exact ⟨_, .add hm, href, Nat.le_add_right _ _⟩
          | orderReplace a =>
              obtain ⟨_, o₁, ho₁, href₁, rfl⟩ := hcreates
              obtain ⟨_, o₀, ho₀, href₀, _⟩ := h.source _ o₁ ho₁ _ href₁
              exact ⟨_, .replace hm ho₀ href₀, href, Nat.le_add_right _ _⟩
          | orderExecuted a => cases hcreates
          | orderCancel a => cases hcreates
          | orderDelete a => cases hcreates
    · rw [Function.update_of_ne hl] at ho
      exact hkeep o ho href (Nat.le_add_right _ _)

end Selected

end FeedHandler.Book
