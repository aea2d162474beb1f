import FeedHandler.Receiver.Tracker

/-!
# No sequence number is processed twice

Safety of the v2/v3 sequence tracking for arbitrary packets: overlapping, empty, late and far
ahead. `Safe` relates the tracking variables to the packets accepted so far, `Safe.receive` keeps
it over one packet, and `no_sequence_number_twice` states it after any sequence of packets.
-/

namespace FeedHandler.Receiver.Tracker

open Intervals

/-- The accepted packets lie below the high-water mark, no gap contains a number of one of them,
and no number belongs to two of them. -/
structure Safe (t : Tracker) (done : List Packet) : Prop where
  wf : t.WF
  done_below : ∀ p ∈ done, p.seq + p.count ≤ t.highSeq
  gaps_apart : ∀ p ∈ done, ∀ x, p.Covers x → ¬ Covers t.pendingGaps x
  done_apart : done.Pairwise fun p q => ∀ x, ¬ (p.Covers x ∧ q.Covers x)

theorem safe_initial : Safe initial [] where
  wf := wf_initial
  done_below := by simp
  gaps_apart := by simp
  done_apart := List.Pairwise.nil

/-- Accepting a packet that no accepted packet overlaps, with gaps that avoid it, is safe. -/
theorem Safe.accept {t t' : Tracker} {p : Packet} {done : List Packet} (h : Safe t done)
    (hwf : t'.WF) (hhigh : t.highSeq ≤ t'.highSeq) (hp : p.seq + p.count ≤ t'.highSeq)
    (hgaps : ∀ x, Covers t'.pendingGaps x → ¬ p.Covers x ∧ ∀ q ∈ done, ¬ q.Covers x)
    (hfresh : ∀ q ∈ done, ∀ x, ¬ (q.Covers x ∧ p.Covers x)) : Safe t' (done ++ [p]) where
  wf := hwf
  done_below := by
    intro q hq
    rcases List.mem_append.mp hq with hq | hq
    · have := h.done_below q hq
      omega
    · obtain rfl := List.mem_singleton.mp hq
      exact hp
  gaps_apart := by
    intro q hq x hx hgap
    rcases List.mem_append.mp hq with hq | hq
    · exact (hgaps x hgap).2 q hq hx
    · obtain rfl := List.mem_singleton.mp hq
      exact (hgaps x hgap).1 hx
  done_apart := by
    refine List.pairwise_append.mpr ⟨h.done_apart, List.pairwise_singleton _ _, ?_⟩
    intro q hq r hr
    obtain rfl := List.mem_singleton.mp hr
    exact hfresh q hq

/-- One packet keeps the invariant. -/
theorem Safe.receive {t : Tracker} {p : Packet} {done : List Packet} (h : Safe t done)
    (hp : p.seq + p.count < 2 ^ 64) :
    Safe (t.receive p).1 (done ++ if (t.receive p).2 then [p] else []) := by
  have hwf := h.wf.receive hp
  have hmark : t.highSeq ≤ (t.sync p).highSeq := le_sync_high
  have hbelow : Below t.pendingGaps (t.sync p).highSeq := h.wf.below.mono hmark
  have hdone : ∀ q ∈ done, ∀ x, q.Covers x → x < (t.sync p).highSeq := by
    intro q hq x hx
    have := h.done_below q hq
    have := hx.2
    omega
  rcases receive_cases h.wf hp with ⟨heq, hrec⟩ | ⟨hgt, hrec⟩ |
      ⟨start, len, hfind, hstart, hend, hlt, hrec⟩ | ⟨_, _, hrec⟩ <;>
    rw [hrec] at hwf ⊢
  · -- The packet follows the mark: everything known lies below it.
    refine h.accept hwf (show t.highSeq ≤ p.seq + p.count by omega) (by simp) ?_ ?_
    · intro x hx
      simp only [sync_pending_gaps] at hx
      have hxlt := hbelow.lt_of_covers hx
      exact ⟨fun hpx => by have := hpx.1; omega, fun q hq hqx => h.gaps_apart q hq x hqx hx⟩
    · intro q hq x hboth
      obtain ⟨hqx, hpx⟩ := hboth
      have := hdone q hq x hqx
      have := hpx.1
      omega
  · -- The packet jumps ahead: the new gap lies between the mark and the packet.
    have hnarrow := narrow16_le (p.seq - (t.sync p).highSeq)
    refine h.accept hwf (show t.highSeq ≤ p.seq + p.count by omega) (by simp) ?_ ?_
    · intro x hx
      rcases (covers_append hbelow).mp hx with hx | ⟨hle, hlt⟩
      · have hxlt := hbelow.lt_of_covers hx
        exact ⟨fun hpx => by have := hpx.1; omega, fun q hq hqx => h.gaps_apart q hq x hqx hx⟩
      · refine ⟨fun hpx => by have := hpx.1; omega, fun q hq hqx => ?_⟩
        have := hdone q hq x hqx
        omega
    · intro q hq x hgiven
      obtain ⟨hqx, hpx⟩ := hgiven
      have := hdone q hq x hqx
      have := hpx.1
      omega
  · -- The packet is recovered from a gap, which no accepted packet overlaps.
    have hgap := hbelow start len hfind
    refine h.accept hwf hmark (show p.seq + p.count ≤ (t.sync p).highSeq by omega) ?_ ?_
    · intro x hx
      obtain ⟨hold, hout⟩ :=
        (covers_carve hfind hstart (by omega) hend h.wf.spaced).mp hx
      exact ⟨hout, fun q hq hqx => h.gaps_apart q hq x hqx hold⟩
    · intro q hq x hgiven
      obtain ⟨hqx, hpx⟩ := hgiven
      refine h.gaps_apart q hq x hqx ⟨start, len, hfind, ?_, ?_⟩
      · have := hpx.1
        omega
      · have := hpx.2
        omega
  · rw [if_neg (by simp), List.append_nil]
    refine ⟨hwf, fun q hq => ?_, ?_, h.done_apart⟩
    · have := h.done_below q hq
      show q.seq + q.count ≤ (t.sync p).highSeq
      omega
    · simpa using h.gaps_apart

/-- The invariant after a sequence of packets. -/
theorem Safe.run {t : Tracker} {done : List Packet} (h : Safe t done) {ps : List Packet}
    (hps : ∀ p ∈ ps, p.seq + p.count < 2 ^ 64) : Safe (t.run ps) (done ++ t.accepted ps) := by
  induction ps generalizing t done with
  | nil => simpa [accepted] using h
  | cons p ps ih =>
      have hstep := h.receive (hps p List.mem_cons_self)
      have hrest := ih hstep fun q hq => hps q (.tail _ hq)
      rw [run_cons]
      unfold accepted
      split
      next hacc => simpa [hacc] using hrest
      next hacc => simpa [hacc] using hrest

/-- The invariant from the start of a receiver. -/
theorem safe_run {ps : List Packet} (hps : ∀ p ∈ ps, p.seq + p.count < 2 ^ 64) :
    Safe (initial.run ps) (initial.accepted ps) := by
  simpa using safe_initial.run hps

/-- After any packets the stored intervals are pairwise disjoint, start below the high-water mark
and end at most there, contain no number of an accepted packet, and no two accepted packets share a
number. -/
theorem no_sequence_number_twice (ps : List Packet)
    (hps : ∀ p ∈ ps, p.seq + p.count < 2 ^ 64) :
    (∀ start len start' len', (initial.run ps).pendingGaps.find? start = some len →
      (initial.run ps).pendingGaps.find? start' = some len' → start ≠ start' →
      ∀ x, ¬ ((start ≤ x ∧ x < start + len) ∧ (start' ≤ x ∧ x < start' + len'))) ∧
    (∀ start len, (initial.run ps).pendingGaps.find? start = some len →
      start < (initial.run ps).highSeq ∧ start + len ≤ (initial.run ps).highSeq) ∧
    (∀ p ∈ initial.accepted ps, ∀ x, p.Covers x → ¬ Covers (initial.run ps).pendingGaps x) ∧
    (initial.accepted ps).Pairwise (fun p q => ∀ x, ¬ (p.Covers x ∧ q.Covers x)) := by
  have h := safe_run hps
  refine ⟨?_, h.wf.below, h.gaps_apart, h.done_apart⟩
  intro start len start' len' hfind hfind' hne x hx
  rcases Nat.lt_or_gt_of_ne hne with hlt | hgt
  · have := h.wf.spaced start len start' len' hfind hfind' hlt
    omega
  · have := h.wf.spaced start' len' start len hfind' hfind hgt
    omega

/-- A run with an empty packet, two jumps, a late packet out of the middle of a gap and one that
straddles its edge. -/
theorem no_sequence_number_twice_straddling :
    (initial.accepted [⟨1, 2⟩, ⟨10, 0⟩, ⟨14, 3⟩, ⟨5, 2⟩, ⟨6, 9⟩]).Pairwise
      (fun p q => ∀ x, ¬ (p.Covers x ∧ q.Covers x)) :=
  (no_sequence_number_twice _ (by decide)).2.2.2

end FeedHandler.Receiver.Tracker
