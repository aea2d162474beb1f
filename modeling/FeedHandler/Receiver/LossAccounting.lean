import FeedHandler.Receiver.NoDuplicates
import Mathlib.Algebra.Ring.Nat
import Mathlib.Order.Interval.Finset.Nat
import Mathlib.Data.Finset.Card

/-!
# Loss accounting

What the v2/v3 tracking loses count of. `run_ledger` is the conservation law of a run: the
high-water mark advances by the accepted counts, by the growth of the stored gaps, and by what the
16-bit gap lengths cut off. `loss_accounted_iff` concludes that the accounting is exact
exactly for the runs without a jump of 65536 or more.
-/

namespace FeedHandler.Receiver.Tracker

open Intervals

/-- The number of messages in a list of packets. -/
def messages (ps : List Packet) : Nat := (ps.map Packet.count).sum

@[simp] theorem messages_nil : messages [] = 0 := rfl

@[simp] theorem messages_cons (p : Packet) (ps : List Packet) :
    messages (p :: ps) = p.count + messages ps := rfl

/-- How far a packet is ahead of the mark it is compared with. -/
def jump (t : Tracker) (p : Packet) : Nat := p.seq - (t.sync p).highSeq

/-- What the 16-bit length of the gap before a packet cuts off. -/
def shortfall (t : Tracker) (p : Packet) : Nat := t.jump p - narrow16 (t.jump p)

/-- What the 16-bit gap lengths cut off in a run. -/
def shortfalls (t : Tracker) : List Packet → Nat
  | [] => 0
  | p :: ps => t.shortfall p + shortfalls (t.receive p).1 ps

theorem shortfall_eq_zero_iff {t : Tracker} {p : Packet} :
    t.shortfall p = 0 ↔ t.jump p < 2 ^ 16 := by
  unfold shortfall narrow16
  omega

/-- No packet of a sequence is 65536 or more ahead of the mark it is compared with. -/
def NoLongJump (ps : List Packet) : Prop :=
  ∀ before p after, ps = before ++ p :: after → (initial.run before).jump p < 2 ^ 16

/-- Small sequence numbers make no long jump. -/
theorem no_long_jump_of_lt {ps : List Packet} (h : ∀ p ∈ ps, p.seq < 2 ^ 16) : NoLongJump ps := by
  intro before p after heq
  subst heq
  have hp := h p (by simp)
  exact Nat.lt_of_le_of_lt (Nat.sub_le _ _) hp

/-- The sequence numbers from the first one up to the mark that no accepted packet covers. -/
def uncovered (first high : Nat) (done : List Packet) : Finset Nat :=
  (Finset.Ico first high).filter fun x => ∀ p ∈ done, ¬ p.Covers x

/-! ## The conservation law -/

/-- The ledger of one packet. -/
theorem receive_ledger {t : Tracker} {p : Packet} (h : t.WF) (hp : p.seq + p.count < 2 ^ 64) :
    (t.receive p).1.highSeq + size t.pendingGaps =
      (t.sync p).highSeq + (if (t.receive p).2 then p.count else 0) +
        size (t.receive p).1.pendingGaps + t.shortfall p := by
  have hbelow : Below t.pendingGaps (t.sync p).highSeq := h.below.mono le_sync_high
  have hnarrow := narrow16_le (p.seq - (t.sync p).highSeq)
  unfold shortfall jump
  rcases receive_cases h hp with ⟨heq, hrec⟩ | ⟨hgt, hrec⟩ |
      ⟨start, len, hfind, hstart, hend, hlt, hrec⟩ | ⟨_, hlt, hrec⟩ <;>
    rw [hrec]
  · simp [heq, narrow16]
  · simp only [if_true, size_append hbelow]
    omega
  · have hcarve := size_carve hfind hstart (by omega) hend h.spaced
    have hzero : p.seq - (t.sync p).highSeq = 0 := by omega
    simp only [if_true, hzero]
    omega
  · have hzero : p.seq - (t.sync p).highSeq = 0 := by omega
    simp [hzero]

/-- After the first packet the mark stays positive. -/
theorem receive_high_pos {t : Tracker} {p : Packet} (h : t.WF) (hp : p.seq + p.count < 2 ^ 64)
    (hseq : 1 ≤ p.seq) : 0 < (t.receive p).1.highSeq := by
  rcases receive_cases h hp with ⟨heq, hrec⟩ | ⟨hgt, hrec⟩ |
      ⟨start, len, hfind, hstart, hend, hlt, hrec⟩ | ⟨_, hlt, hrec⟩ <;>
    rw [hrec]
  · exact Nat.lt_of_lt_of_le hseq (Nat.le_add_right _ _)
  · exact Nat.lt_of_lt_of_le hseq (Nat.le_add_right _ _)
  · exact Nat.zero_lt_of_lt hlt
  · exact Nat.zero_lt_of_lt hlt

/-- The ledger of a run that has seen its first packet. -/
theorem run_ledger {t : Tracker} (h : t.WF) (hpos : 0 < t.highSeq) {ps : List Packet}
    (hps : ∀ p ∈ ps, 1 ≤ p.seq ∧ p.seq + p.count < 2 ^ 64) :
    (t.run ps).highSeq + size t.pendingGaps =
      t.highSeq + messages (t.accepted ps) + size (t.run ps).pendingGaps + t.shortfalls ps := by
  induction ps generalizing t with
  | nil => simp [accepted, shortfalls]
  | cons p ps ih =>
      obtain ⟨hseq, hp⟩ := hps p List.mem_cons_self
      have hstep := receive_ledger h hp
      have hrest := ih (h.receive hp) (receive_high_pos h hp hseq) fun q hq => hps q (.tail _ hq)
      rw [sync_of_pos hpos] at hstep
      simp only [run_cons, accepted, shortfalls]
      split
      next hacc =>
        rw [if_pos hacc] at hstep
        rw [messages_cons]
        omega
      next hacc =>
        rw [if_neg hacc] at hstep
        omega

/-- The first packet of a receiver is accepted and opens no gap. -/
theorem receive_first {p : Packet} (hp : p.seq + p.count < 2 ^ 64) :
    initial.receive p = ({ initial with highSeq := p.seq + p.count }, true) := by
  have hsync : initial.sync p = { initial with highSeq := p.seq } := rfl
  simp only [receive, hsync, if_true, add64_eq hp]

/-- The ledger of a receiver from its first packet. -/
theorem ledger {p : Packet} {ps : List Packet} (hseq : ∀ q ∈ p :: ps, 1 ≤ q.seq)
    (hps : ∀ q ∈ p :: ps, q.seq + q.count < 2 ^ 64) :
    (initial.run (p :: ps)).highSeq =
      p.seq + messages (initial.accepted (p :: ps)) + size (initial.run (p :: ps)).pendingGaps +
        initial.shortfalls (p :: ps) := by
  have hp := hps p List.mem_cons_self
  have hfirst := receive_first hp
  have hpos := receive_high_pos wf_initial hp (hseq p List.mem_cons_self)
  have htail : ∀ q ∈ ps, 1 ≤ q.seq ∧ q.seq + q.count < 2 ^ 64 := fun q hq =>
    ⟨hseq q (.tail _ hq), hps q (.tail _ hq)⟩
  have hrest := run_ledger (wf_initial.receive hp) hpos htail
  have hzero : initial.shortfall p = 0 := by
    simp [shortfall, jump, sync, initial, narrow16]
  simp only [run_cons, accepted, shortfalls, hfirst, if_true, hzero, messages_cons] at hrest ⊢
  simp only [initial, size_empty] at hrest ⊢
  omega

/-! ## The numbers no accepted packet covers -/

/-- Everything the tracking variables know starts at or after the first sequence number. -/
structure From (first : Nat) (t : Tracker) (done : List Packet) : Prop where
  high : first ≤ t.highSeq
  gaps : ∀ start len, t.pendingGaps.find? start = some len → first ≤ start
  done : ∀ p ∈ done, first ≤ p.seq

theorem From.receive {first : Nat} {t : Tracker} {p : Packet} {done : List Packet}
    (h : From first t done) (hpos : 0 < t.highSeq) (hwf : t.WF)
    (hp : p.seq + p.count < 2 ^ 64) :
    From first (t.receive p).1 (done ++ if (t.receive p).2 then [p] else []) := by
  have haccept : ∀ {q : Packet}, first ≤ p.seq → q ∈ done ++ [p] → first ≤ q.seq := by
    intro q hle hq
    rcases List.mem_append.mp hq with hq | hq
    · exact h.done q hq
    · rwa [List.mem_singleton.mp hq]
  have hhigh := h.high
  have hbelow := hwf.below
  have hrec := receive_cases hwf hp
  rw [sync_of_pos hpos] at hrec
  rcases hrec with ⟨heq, hrec⟩ | ⟨hgt, hrec⟩ | ⟨start, len, hfind, hstart, hend, hlt, hrec⟩ |
      ⟨_, _, hrec⟩ <;> rw [hrec]
  · exact ⟨show first ≤ p.seq + p.count by omega, h.gaps, fun q hq => haccept (by omega) hq⟩
  · refine ⟨show first ≤ p.seq + p.count by omega, ?_, fun q hq => haccept (by omega) hq⟩
    intro s l hs
    rw [OrderedMap.find_assign] at hs
    split at hs
    · omega
    · exact h.gaps s l hs
  · have hfrom := h.gaps start len hfind
    refine ⟨hhigh, ?_, fun q hq => haccept (by omega) hq⟩
    intro s l hs
    rcases carve_cases hfind hstart (by omega) hend hwf.spaced hs with h' | h' | ⟨_, h', _⟩
    · omega
    · omega
    · exact h.gaps s l h'
  · rw [if_neg (by simp), List.append_nil]
    exact ⟨hhigh, h.gaps, h.done⟩

theorem From.run {first : Nat} {t : Tracker} {done : List Packet} (h : From first t done)
    (hpos : 0 < t.highSeq) (hwf : t.WF) {ps : List Packet}
    (hps : ∀ p ∈ ps, 1 ≤ p.seq ∧ p.seq + p.count < 2 ^ 64) :
    From first (t.run ps) (done ++ t.accepted ps) := by
  induction ps generalizing t done with
  | nil => simpa [accepted] using h
  | cons p ps ih =>
      obtain ⟨hseq, hp⟩ := hps p List.mem_cons_self
      have hrest := ih (h.receive hpos hwf hp) (receive_high_pos hwf hp hseq) (hwf.receive hp)
        fun q hq => hps q (.tail _ hq)
      rw [run_cons]
      unfold accepted
      split
      next hacc => simpa [hacc] using hrest
      next hacc => simpa [hacc] using hrest

/-- Nothing before the first packet's sequence number is ever accepted or missed. -/
theorem from_first {p : Packet} {ps : List Packet} (hseq : ∀ q ∈ p :: ps, 1 ≤ q.seq)
    (hps : ∀ q ∈ p :: ps, q.seq + q.count < 2 ^ 64) :
    From p.seq (initial.run (p :: ps)) (initial.accepted (p :: ps)) := by
  have hp := hps p List.mem_cons_self
  have hfirst := receive_first hp
  have hstart : From p.seq (initial.receive p).1 [p] := by
    rw [hfirst]
    refine ⟨by simp, ?_, by simp⟩
    intro start len h
    cases h
  have htail : ∀ q ∈ ps, 1 ≤ q.seq ∧ q.seq + q.count < 2 ^ 64 := fun q hq =>
    ⟨hseq q (.tail _ hq), hps q (.tail _ hq)⟩
  have hrest := hstart.run (receive_high_pos wf_initial hp (hseq p List.mem_cons_self))
    (wf_initial.receive hp) htail
  simpa [accepted, hfirst] using hrest

/-- Disjoint packets inside a range cover as many of its numbers as they count. -/
theorem card_uncovered {first high : Nat} {done : List Packet}
    (hin : ∀ p ∈ done, first ≤ p.seq ∧ p.seq + p.count ≤ high)
    (hapart : done.Pairwise fun p q => ∀ x, ¬ (p.Covers x ∧ q.Covers x)) :
    (uncovered first high done).card + messages done = high - first := by
  induction done with
  | nil => simp [uncovered]
  | cons p done ih =>
      obtain ⟨hhead, htail⟩ := List.pairwise_cons.mp hapart
      obtain ⟨hlo, hhi⟩ := hin p List.mem_cons_self
      have hrest := ih (fun q hq => hin q (.tail _ hq)) htail
      have hsplit : uncovered first high done =
          uncovered first high (p :: done) ∪ Finset.Ico p.seq (p.seq + p.count) := by
        ext x
        simp only [uncovered, Finset.mem_union, Finset.mem_filter, Finset.mem_Ico,
          List.mem_cons, forall_eq_or_imp]
        constructor
        · intro h
          obtain ⟨hx, hnot⟩ := h
          by_cases hpx : p.Covers x
          · exact .inr hpx
          · exact .inl ⟨hx, hpx, hnot⟩
        · intro hor
          rcases hor with ⟨hx, _, hnot⟩ | hpx
          · exact ⟨hx, hnot⟩
          · exact ⟨by omega, fun q hq hqx => hhead q hq x ⟨hpx, hqx⟩⟩
      have hdisjoint : Disjoint (uncovered first high (p :: done))
          (Finset.Ico p.seq (p.seq + p.count)) := by
        rw [Finset.disjoint_left]
        intro x hx hpx
        simp only [uncovered, Finset.mem_filter, List.mem_cons, forall_eq_or_imp] at hx
        exact hx.2.1 (Finset.mem_Ico.mp hpx)
      have hcard := Finset.card_union_of_disjoint hdisjoint
      rw [← hsplit, Nat.card_Ico] at hcard
      rw [messages_cons]
      omega

/-! ## Exactness -/

/-- The accounting of a run is exact: after every packet the mark minus the first sequence number
is the number of accepted messages plus the stored gap lengths, and `truly_lost` is the number of
sequence numbers that no accepted packet covers. -/
def LossAccounted (p : Packet) (ps : List Packet) : Prop :=
  ∀ qs, qs <+: ps →
    (initial.run (p :: qs)).highSeq - p.seq =
      messages (initial.accepted (p :: qs)) + size (initial.run (p :: qs)).pendingGaps ∧
    (initial.run (p :: qs)).trulyLost =
      (uncovered p.seq (initial.run (p :: qs)).highSeq (initial.accepted (p :: qs))).card

/-- The shortfalls of two runs in a row. -/
theorem shortfalls_append (t : Tracker) (ps qs : List Packet) :
    t.shortfalls (ps ++ qs) = t.shortfalls ps + (t.run ps).shortfalls qs := by
  induction ps generalizing t with
  | nil => simp [shortfalls]
  | cons p ps ih => simp only [List.cons_append, shortfalls, run_cons, ih, Nat.add_assoc]

/-- Nothing is cut off exactly when there is no long jump. -/
theorem shortfalls_eq_zero_iff (ps : List Packet) :
    initial.shortfalls ps = 0 ↔ NoLongJump ps := by
  constructor
  · intro hzero before p after heq
    subst heq
    rw [shortfalls_append, shortfalls] at hzero
    exact shortfall_eq_zero_iff.mp (by omega)
  · intro hshort
    induction ps using List.reverseRecOn with
    | nil => rfl
    | append_singleton ps p ih =>
        have hps : NoLongJump ps := by
          intro before q after heq
          subst heq
          exact hshort before q (after ++ [p]) (by simp)
        have hlast := shortfall_eq_zero_iff.mpr (hshort ps p [] rfl)
        rw [shortfalls_append, ih hps]
        simp [shortfalls, hlast]

/-- The accounting is exact exactly for the runs without a jump of 65536 or more. -/
theorem loss_accounted_iff (p : Packet) (ps : List Packet) (hseq : ∀ q ∈ p :: ps, 1 ≤ q.seq)
    (hps : ∀ q ∈ p :: ps, q.seq + q.count < 2 ^ 64) :
    LossAccounted p ps ↔ NoLongJump (p :: ps) := by
  rw [← shortfalls_eq_zero_iff]
  constructor
  · intro hexact
    have hledger := ledger hseq hps
    have := (hexact ps (List.prefix_refl ps)).1
    omega
  · intro hzero qs h
    obtain ⟨rest, rfl⟩ := h
    have hseq' : ∀ q ∈ p :: qs, 1 ≤ q.seq := fun q hq => hseq q (by
      rcases List.mem_cons.mp hq with rfl | hq <;> simp_all)
    have hps' : ∀ q ∈ p :: qs, q.seq + q.count < 2 ^ 64 := fun q hq => hps q (by
      rcases List.mem_cons.mp hq with rfl | hq <;> simp_all)
    have hledger := ledger hseq' hps'
    have hsafe := safe_run hps'
    have hfrom := from_first hseq' hps'
    have hcut : initial.shortfalls (p :: qs) = 0 := by
      rw [← List.cons_append, shortfalls_append] at hzero
      omega
    have hcard := card_uncovered
      (fun q hq => ⟨hfrom.done q hq, hsafe.done_below q hq⟩) hsafe.done_apart
    have hhigh := hsafe.wf.high_lt
    refine ⟨by omega, ?_⟩
    rw [trulyLost, Nat.mod_eq_of_lt (by change size _ < _; omega)]
    change size _ = _
    omega

/-- A run in which three of five messages are recovered: the accounting is exact. -/
theorem loss_accounted_recovered :
    LossAccounted ⟨1, 2⟩ [⟨8, 1⟩, ⟨4, 3⟩] ↔ NoLongJump [⟨1, 2⟩, ⟨8, 1⟩, ⟨4, 3⟩] :=
  loss_accounted_iff _ _ (by decide) (by decide)

/-- Losing 65536 messages in a row leaves a gap of length zero: nothing is reported lost. -/
theorem loss_not_accounted : ¬ LossAccounted ⟨1, 1⟩ [⟨65538, 1⟩] := by
  intro h
  have := (h _ (List.prefix_refl _)).1
  revert this
  decide

end FeedHandler.Receiver.Tracker
