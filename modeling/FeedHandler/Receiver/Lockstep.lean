import FeedHandler.Receiver.LossAccounting
import FeedHandler.Receiver.V1Tracker

/-!
# The trackers of v1 and v2 in lockstep

The v1 tracking block and that of v2 and v3 over the same packets. `Lockstep` is what relates their
variables: the same next sequence number and the same number of gaps, duplicates that differ by the
late packets v2 accepts, and a v1 loss that v2 splits into what was recovered, what is still
pending, and what its 16-bit lengths cut off. `trackers_agree` draws the conclusions after every
packet.
-/

namespace FeedHandler.Receiver

open Intervals

namespace V1Tracker

/-- The variables after a sequence of packets. -/
def run (t : V1Tracker) (ps : List Packet) : V1Tracker := ps.foldl (fun t p => (t.receive p).1) t

@[simp] theorem run_nil (t : V1Tracker) : t.run [] = t := rfl

@[simp] theorem run_cons (t : V1Tracker) (p : Packet) (ps : List Packet) :
    t.run (p :: ps) = (t.receive p).1.run ps := rfl

end V1Tracker

namespace Tracker

/-- The packet is accepted although it starts below the high-water mark. -/
def acceptsLate (t : Tracker) (p : Packet) : Bool := (t.receive p).2 && decide (p.seq < t.highSeq)

/-- The number of packets accepted below the high-water mark. -/
def lateAccepted (t : Tracker) : List Packet → Nat
  | [] => 0
  | p :: ps => (t.acceptsLate p).toNat + lateAccepted (t.receive p).1 ps

end Tracker

open Tracker

/-- The variables of the two trackers after the same packets, of which v2 accepted `late` below its
mark and whose gaps were cut off by `cut`. -/
structure Lockstep (s : V1Tracker) (t : Tracker) (late cut : Nat) : Prop where
  wf : t.WF
  expected : s.expectedSeq = t.highSeq
  gaps : s.gaps = t.gaps
  dups : s.dups = t.dups + late
  lost : s.lost = t.recovered + size t.pendingGaps + cut
  lost_le : s.lost ≤ s.expectedSeq

theorem lockstep_initial : Lockstep .initial .initial 0 0 :=
  ⟨wf_initial, rfl, rfl, rfl, rfl, le_rfl⟩

section Step

variable {s : V1Tracker} {t : Tracker} {p : Packet} {late cut : Nat}

/-- Both trackers take the first sequence number from the same packet. -/
theorem Lockstep.sync (h : Lockstep s t late cut) (hp : p.seq < 2 ^ 64) :
    Lockstep (s.sync p) (t.sync p) late cut := by
  have hwf := h.wf.sync hp
  have hlost := h.lost_le
  by_cases hzero : t.highSeq = 0
  · have hs : s.sync p = { s with expectedSeq := p.seq } := by
      rw [V1Tracker.sync, if_pos (h.expected.trans hzero)]
    have ht : t.sync p = { t with highSeq := p.seq } := by rw [Tracker.sync, if_pos hzero]
    rw [ht] at hwf
    rw [hs, ht]
    rw [h.expected, hzero] at hlost
    exact ⟨hwf, rfl, h.gaps, h.dups, h.lost, hlost.trans (Nat.zero_le _)⟩
  · have hs : s.sync p = s := by rw [V1Tracker.sync, if_neg (h.expected ▸ hzero)]
    have ht : t.sync p = t := by rw [Tracker.sync, if_neg hzero]
    rwa [hs, ht]

/-- Below the mark after the first packet is below the mark. -/
theorem lt_high_of_lt_sync (h : p.seq < (t.sync p).highSeq) : p.seq < t.highSeq := by
  unfold Tracker.sync at h
  split at h
  · exact absurd h (lt_irrefl _)
  · exact h

/-- Nothing is cut off a gap without a jump. -/
theorem shortfall_of_le (h : p.seq ≤ (t.sync p).highSeq) : t.shortfall p = 0 := by
  rw [shortfall_eq_zero_iff, jump]
  omega

/-- A packet at or past the mark is not late. -/
theorem accepts_late_of_le (h : t.highSeq ≤ p.seq) : t.acceptsLate p = false := by
  have hnot : ¬ p.seq < t.highSeq := Nat.not_lt.mpr h
  simp only [acceptsLate, hnot, decide_false, Bool.and_false]

/-- One packet keeps the relation, and v2 accepts it if v1 processes it. -/
theorem Lockstep.receive (h : Lockstep s t late cut) (hp : p.seq + p.count < 2 ^ 64) :
    Lockstep (s.receive p).1 (t.receive p).1 (late + (t.acceptsLate p).toNat)
        (cut + t.shortfall p) ∧
      ((s.receive p).2 = true → (t.receive p).2 = true) := by
  have hwf := h.wf.receive hp
  have hsync := h.sync (by omega : p.seq < 2 ^ 64)
  have hexpected := hsync.expected
  have hgaps := hsync.gaps
  have hdups := hsync.dups
  have hlost := hsync.lost
  have hlostle := hsync.lost_le
  have hmark : t.highSeq ≤ (t.sync p).highSeq := le_sync_high
  have hbelow : Below t.pendingGaps (t.sync p).highSeq := h.wf.below.mono hmark
  rw [sync_pending_gaps] at hlost
  rcases receive_cases h.wf hp with ⟨heq, hrec⟩ | ⟨hgt, hrec⟩ |
      ⟨start, len, hfind, hstart, hend, hlt, hrec⟩ | ⟨_, hlt, hrec⟩ <;>
    rw [hrec] at hwf
  · -- both follow the mark
    have hs : s.receive p = ({ s.sync p with expectedSeq := p.seq + p.count }, true) := by
      simp only [V1Tracker.receive, hexpected, heq, gt_iff_lt, lt_self_iff_false, if_false]
      rw [← heq, add64_eq hp]
    have hlate : t.acceptsLate p = false := accepts_late_of_le (hmark.trans heq.ge)
    have hcut : t.shortfall p = 0 := shortfall_of_le heq.le
    rw [hs, hrec, hlate, hcut]
    exact ⟨⟨hwf, rfl, hgaps, hdups, by simpa using hlost,
      show (s.sync p).lost ≤ p.seq + p.count by omega⟩, fun _ => rfl⟩
  · -- both count a gap: v1 as lost, v2 as pending
    have hjump : sub64 p.seq (t.sync p).highSeq = t.jump p := sub64_eq hgt.le (by omega)
    have hsum : add64 (s.sync p).lost (t.jump p) = (s.sync p).lost + t.jump p :=
      add64_eq (by simp only [jump]; omega)
    have hs : s.receive p = ({ s.sync p with
        gaps := (s.sync p).gaps + 1
        lost := (s.sync p).lost + t.jump p
        expectedSeq := p.seq + p.count }, true) := by
      simp only [V1Tracker.receive, hexpected, gt_iff_lt, if_pos hgt, hjump, hsum, add64_eq hp]
    have hlate : t.acceptsLate p = false := accepts_late_of_le (hmark.trans hgt.le)
    have hnarrow := narrow16_le (t.jump p)
    rw [hs, hrec, hlate]
    refine ⟨⟨hwf, rfl, show (s.sync p).gaps + 1 = (t.sync p).gaps + 1 by omega, hdups, ?_, ?_⟩,
      fun _ => rfl⟩
    · rw [size_append hbelow]
      simp only [shortfall]
      simp only [jump] at hnarrow ⊢
      omega
    · simp only [jump]
      omega
  · -- v1 drops what v2 recovers
    have hs : s.receive p = ({ s.sync p with dups := (s.sync p).dups + 1 }, false) := by
      simp only [V1Tracker.receive, hexpected, gt_iff_lt, if_neg hlt.asymm, if_pos hlt]
    have hlate : t.acceptsLate p = true := by
      simp only [acceptsLate, hrec, Bool.true_and, decide_eq_true_eq]
      exact lt_high_of_lt_sync hlt
    have hcut : t.shortfall p = 0 := shortfall_of_le hlt.le
    have hcarve := size_carve hfind hstart (by omega) hend h.wf.spaced
    rw [hs, hrec, hlate, hcut]
    refine ⟨⟨hwf, hexpected, hgaps, ?_, ?_, hlostle⟩, fun h => absurd h Bool.false_ne_true⟩
    · simp only [Bool.toNat_true]
      omega
    · show (s.sync p).lost = (t.sync p).recovered + p.count +
        size (carve t.pendingGaps start len p.seq (p.seq + p.count)) + (cut + 0)
      omega
  · -- both drop the packet
    have hs : s.receive p = ({ s.sync p with dups := (s.sync p).dups + 1 }, false) := by
      simp only [V1Tracker.receive, hexpected, gt_iff_lt, if_neg hlt.asymm, if_pos hlt]
    have hlate : t.acceptsLate p = false := by simp only [acceptsLate, hrec, Bool.false_and]
    have hcut : t.shortfall p = 0 := shortfall_of_le hlt.le
    rw [hs, hrec, hlate, hcut]
    refine ⟨⟨hwf, hexpected, hgaps, ?_, by simpa using hlost, hlostle⟩,
      fun h => absurd h Bool.false_ne_true⟩
    simp only [Bool.toNat_false]
    omega

end Step

/-- The relation after a sequence of packets. -/
theorem Lockstep.run {s : V1Tracker} {t : Tracker} {late cut : Nat} (h : Lockstep s t late cut)
    {ps : List Packet} (hps : ∀ p ∈ ps, p.seq + p.count < 2 ^ 64) :
    Lockstep (s.run ps) (t.run ps) (late + t.lateAccepted ps) (cut + t.shortfalls ps) := by
  induction ps generalizing s t late cut with
  | nil => exact h
  | cons p ps ih =>
      have hstep := (h.receive (hps p List.mem_cons_self)).1
      have hrest := ih hstep fun q hq => hps q (.tail _ hq)
      rw [Nat.add_assoc, Nat.add_assoc] at hrest
      exact hrest

/-- After any packets the v1 and the v2 tracking blocks expect the same number and have counted the
same gaps, every packet that v1 processes next is accepted by v2, the duplicates differ by the
packets v2 accepted late, and without a jump of 65536 the v1 loss is what v2 recovered or still has
pending. -/
theorem trackers_agree (ps : List Packet) (hps : ∀ p ∈ ps, p.seq + p.count < 2 ^ 64) :
    (V1Tracker.initial.run ps).expectedSeq = (Tracker.initial.run ps).highSeq ∧
    (V1Tracker.initial.run ps).gaps = (Tracker.initial.run ps).gaps ∧
    (∀ before p after, ps = before ++ p :: after →
      ((V1Tracker.initial.run before).receive p).2 = true →
        ((Tracker.initial.run before).receive p).2 = true) ∧
    (V1Tracker.initial.run ps).dups =
      (Tracker.initial.run ps).dups + Tracker.initial.lateAccepted ps ∧
    (NoLongJump ps → (V1Tracker.initial.run ps).lost =
      (Tracker.initial.run ps).recovered + size (Tracker.initial.run ps).pendingGaps) := by
  have h := lockstep_initial.run hps
  refine ⟨h.expected, h.gaps, ?_, by simpa using h.dups, ?_⟩
  · intro before p after heq
    have hin : ∀ q ∈ before ++ p :: after, q.seq + q.count < 2 ^ 64 := heq ▸ hps
    have hbefore : Lockstep (V1Tracker.initial.run before) (Tracker.initial.run before) _ _ :=
      lockstep_initial.run fun q hq => hin q (by simp [hq])
    exact (hbefore.receive (hin p (by simp))).2
  · intro hshort
    rw [h.lost, (shortfalls_eq_zero_iff ps).mpr hshort]
    simp

/-- A jump, a late packet that v2 recovers, and one that both drop. -/
theorem trackers_agree_recovery :
    (V1Tracker.initial.run [⟨1, 2⟩, ⟨8, 1⟩, ⟨4, 3⟩, ⟨1, 2⟩]).dups =
      (Tracker.initial.run [⟨1, 2⟩, ⟨8, 1⟩, ⟨4, 3⟩, ⟨1, 2⟩]).dups +
        Tracker.initial.lateAccepted [⟨1, 2⟩, ⟨8, 1⟩, ⟨4, 3⟩, ⟨1, 2⟩] :=
  (trackers_agree _ (by decide)).2.2.2.1

end FeedHandler.Receiver
