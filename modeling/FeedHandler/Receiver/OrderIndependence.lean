import FeedHandler.Receiver.ExactlyOnce

/-!
# What the tracking variables say about a delivery

`pending_gaps_exact` reads the tracking variables back after any delivery of a sender's packets:
the mark is the end of the last packet, and `pending_gaps` holds the maximal runs of sequence
numbers that no delivered packet brought. So the variables depend on which packets were delivered,
and not on the order or the repetitions (`order_independent`).
-/

namespace FeedHandler.Receiver

open Intervals

/-- Every number in the range of a partition belongs to a packet. -/
theorem Partition.exists_covers {ps : List Packet} {lo hi x : Nat} (h : Partition ps lo hi)
    (hlo : lo ≤ x) (hhi : x < hi) : ∃ q ∈ ps, q.Covers x := by
  induction ps generalizing lo with
  | nil =>
      have heq : lo = hi := h
      omega
  | cons p ps ih =>
      obtain ⟨rfl, _, hrest⟩ := h
      rcases Nat.lt_or_ge x (p.seq + p.count) with hlt | hge
      · exact ⟨p, List.mem_cons_self, hlo, hlt⟩
      · obtain ⟨q, hq, hx⟩ := ih hrest hge
        exact ⟨q, .tail _ hq, hx⟩

namespace Tracker

/-- A sequence number between the first packet and the mark that no delivered packet brought. -/
def Missing (delivered : List Packet) (first high x : Nat) : Prop :=
  first ≤ x ∧ x < high ∧ ∀ q ∈ delivered, ¬ q.Covers x

/-- The gaps cannot be extended, and the mark is the end of a delivered packet. -/
structure Settled (first : Nat) (t : Tracker) (delivered : List Packet) : Prop where
  maximal : Maximal t.pendingGaps
  apart : ∀ start len, t.pendingGaps.find? start = some len → start + len < t.highSeq
  top : ∃ q ∈ delivered, first ≤ q.seq ∧ q.seq + q.count = t.highSeq

section Step

variable {sent : List Packet} {lo hi first : Nat} {t : Tracker} {delivered : List Packet}
  {p : Packet}

/-- The first delivered packet. -/
theorem settled_first (hp : p.seq + p.count < 2 ^ 64) :
    Settled p.seq (initial.receive p).1 [p] := by
  rw [receive_first hp]
  refine ⟨maximal_empty, fun start len h => ?_, p, List.mem_cons_self, le_rfl, rfl⟩
  cases h

/-- A packet that moves the mark to its end is the last one. -/
theorem Settled.top_self (hle : first ≤ p.seq) :
    ∃ q ∈ delivered ++ [p], first ≤ q.seq ∧ q.seq + q.count = p.seq + p.count :=
  ⟨p, List.mem_append_right _ List.mem_cons_self, hle, rfl⟩

/-- Otherwise the last packet stays the last one. -/
theorem Settled.top_keep (h : Settled first t delivered) :
    ∃ q ∈ delivered ++ [p], first ≤ q.seq ∧ q.seq + q.count = t.highSeq := by
  obtain ⟨q, hq, htop⟩ := h.top
  exact ⟨q, List.mem_append_left _ hq, htop⟩

/-- One packet. -/
theorem Settled.receive (h : Settled first t delivered) (htracks : Tracks sent first t delivered)
    (hcount : 1 ≤ p.count) (hend : p.seq + p.count < 2 ^ 64) (hshort : t.jump p < 2 ^ 16) :
    Settled first (t.receive p).1 (delivered ++ [p]) := by
  have hcases := receive_cases htracks.wf hend
  have hfirst := htracks.first_le
  unfold jump at hshort
  rw [sync_of_pos htracks.pos] at hcases hshort
  rcases hcases with ⟨heq, hrec⟩ | ⟨hgt, hrec⟩ | ⟨start, len, hfind, hstart, hin, _, hrec⟩ |
      ⟨_, _, hrec⟩ <;> rw [hrec]
  · refine ⟨h.maximal, fun s l hs => ?_, Settled.top_self (by omega)⟩
    have hlt := h.apart s l hs
    show s + l < p.seq + p.count
    omega
  · rw [narrow16_eq hshort]
    refine ⟨maximal_append h.maximal (by omega) h.apart, fun s l hs => ?_,
      Settled.top_self (by omega)⟩
    show s + l < p.seq + p.count
    rw [OrderedMap.find_assign] at hs
    split at hs
    next heq =>
      cases hs
      omega
    next =>
      have hlt := h.apart s l hs
      omega
  · refine ⟨maximal_carve h.maximal hfind hstart (by omega) hin, fun s l hs => ?_, h.top_keep⟩
    have hlt := h.apart start len hfind
    show s + l < t.highSeq
    -- A part of the gap ends where the gap ends, or before.
    rcases carve_cases hfind hstart (by omega) hin htracks.wf.spaced hs with h' | h' | ⟨_, h', _⟩
    · omega
    · omega
    · exact h.apart s l h'
  · exact ⟨h.maximal, h.apart, h.top_keep⟩

/-- Any deliveries. -/
theorem Settled.run {more : List Packet} (h : Settled first t delivered)
    (htracks : Tracks sent first t delivered) (hsent : Partition sent lo hi) (hhi : hi < 2 ^ 64)
    (hmore : ∀ q ∈ more, q ∈ sent)
    (hshort : ∀ before q after, more = before ++ q :: after → (t.run before).jump q < 2 ^ 16) :
    Settled first (t.run more) (delivered ++ more) := by
  induction more generalizing t delivered with
  | nil => simpa using h
  | cons p more ih =>
      have hp := hmore p List.mem_cons_self
      have hjump := hshort [] p more rfl
      obtain ⟨_, hcount, hend⟩ := hsent.bounds.2 p hp
      have hstep := h.receive htracks hcount (by omega) hjump
      have hrest := ih hstep (htracks.receive hsent hhi hp hjump).1
        (fun q hq => hmore q (.tail _ hq)) fun before q after heq =>
          hshort (p :: before) q after (by rw [heq, List.cons_append])
      simpa using hrest

/-- The gaps cover the numbers that no delivered packet brought. -/
theorem Tracks.covers_iff (h : Tracks sent first t delivered) (hsent : Partition sent lo hi)
    (hdelivered : ∀ q ∈ delivered, q ∈ sent) (hfirst : ∃ p₀ ∈ sent, p₀.seq = first)
    (hhigh : t.highSeq ≤ hi) (x : Nat) :
    Covers t.pendingGaps x ↔ Missing delivered first t.highSeq x := by
  obtain ⟨p₀, hp₀, rfl⟩ := hfirst
  have hlo := (hsent.bounds.2 p₀ hp₀).1
  constructor
  · intro hx
    have hlt := h.wf.below.lt_of_covers hx
    obtain ⟨start, len, hfind, hle, hend⟩ := hx
    obtain ⟨hstart, hedge⟩ := h.gap_edge start len hfind
    refine ⟨by omega, hlt, fun q hq hqx => ?_⟩
    -- A packet that shares a number with the gap lies in it, so it was not delivered.
    have hqs := hdelivered q hq
    obtain ⟨hqle, hqlt⟩ := hqx
    have hin := hedge q hqs
    have hgap := (h.wf.below start len hfind).2
    refine (h.missing q hqs (by omega) (by omega)).mpr ⟨start, len, hfind, ?_, ?_⟩ hq
    · omega
    · omega
  · intro hgiven
    obtain ⟨hle, hlt, hnone⟩ := hgiven
    obtain ⟨q, hq, hqx⟩ := hsent.exists_covers (by omega) (by omega : x < hi)
    have hqx' := hqx
    obtain ⟨hqle, hqlt⟩ := hqx'
    have hqend := h.high_edge q hq
    have hqfirst : p₀.seq ≤ q.seq := by
      rcases hsent.apart hp₀ hq with hsame | hpq | hqp
      · rw [hsame]
      · omega
      · omega
    obtain ⟨start, len, hfind, hsq, hqs⟩ :=
      (h.missing q hq hqfirst (by omega)).mp fun hdel => hnone q hdel hqx
    have hin := (h.gap_edge start len hfind).2 q hq
    exact ⟨start, len, hfind, by omega, by omega⟩

end Step

section Delivery

variable {sent : List Packet} {lo hi : Nat} {p : Packet} {ps : List Packet}

/-- The description of the tracking variables after a delivery, from its first packet on. -/
theorem delivery_spec (hsent : Partition sent lo hi) (hlo : 1 ≤ lo) (hhi : hi < 2 ^ 64)
    (hdel : ∀ q ∈ p :: ps, q ∈ sent) (hshort : NoLongJump (p :: ps)) :
    Tracks sent p.seq (initial.run (p :: ps)) (p :: ps) ∧
      Settled p.seq (initial.run (p :: ps)) (p :: ps) := by
  have hp := hdel p List.mem_cons_self
  have hmore : ∀ q ∈ ps, q ∈ sent := fun q hq => hdel q (.tail _ hq)
  have hjumps : ∀ before q after, ps = before ++ q :: after →
      ((initial.receive p).1.run before).jump q < 2 ^ 16 := fun before q after heq =>
    hshort (p :: before) q after (by rw [heq, List.cons_append])
  have hstart := tracks_first hsent hlo hhi hp
  have hend := (hsent.bounds.2 p hp).2.2
  exact ⟨hstart.run hsent hhi hmore hjumps,
    (settled_first (by omega)).run hstart hsent hhi hmore hjumps⟩

/-- The gaps of a delivery cover what it did not bring. -/
theorem delivery_covers_iff (hsent : Partition sent lo hi) (hlo : 1 ≤ lo) (hhi : hi < 2 ^ 64)
    (hdel : ∀ q ∈ p :: ps, q ∈ sent) (hshort : NoLongJump (p :: ps)) (x : Nat) :
    Covers (initial.run (p :: ps)).pendingGaps x ↔
      Missing (p :: ps) p.seq (initial.run (p :: ps)).highSeq x := by
  obtain ⟨htracks, hsettled⟩ := delivery_spec hsent hlo hhi hdel hshort
  obtain ⟨q, hq, _, htop⟩ := hsettled.top
  have hend := (hsent.bounds.2 q (hdel q hq)).2.2
  exact htracks.covers_iff hsent hdel ⟨p, hdel p List.mem_cons_self, rfl⟩ (by omega) x

/-- No delivered packet ends behind the mark. -/
theorem delivery_end_le (hsent : Partition sent lo hi) (hlo : 1 ≤ lo) (hhi : hi < 2 ^ 64)
    (hdel : ∀ q ∈ p :: ps, q ∈ sent) (hshort : NoLongJump (p :: ps)) {q : Packet}
    (hq : q ∈ p :: ps) : q.seq + q.count ≤ (initial.run (p :: ps)).highSeq := by
  obtain ⟨htracks, _⟩ := delivery_spec hsent hlo hhi hdel hshort
  rcases Nat.lt_or_ge q.seq p.seq with hlt | hge
  · -- A packet from before the first one ends before it.
    have hle := htracks.first_le
    rcases hsent.apart (hdel p List.mem_cons_self) (hdel q hq) with hsame | hpq | hqp
    · rw [hsame] at hlt
      omega
    · omega
    · omega
  · exact htracks.delivered_below q hq hge

/-- After any delivery of a sender's packets, in any order, with any repetitions and losses but
without a long jump, the mark is the greatest end of a delivered packet, and the entries of
`pending_gaps` are exactly the maximal runs of the sequence numbers between the first packet and the
mark that no delivered packet brought. -/
theorem pending_gaps_exact (hsent : Partition sent lo hi) (hlo : 1 ≤ lo) (hhi : hi < 2 ^ 64)
    (hdel : ∀ q ∈ p :: ps, q ∈ sent) (hshort : NoLongJump (p :: ps)) :
    ((∃ q ∈ p :: ps, q.seq + q.count = (initial.run (p :: ps)).highSeq) ∧
      ∀ q ∈ p :: ps, q.seq + q.count ≤ (initial.run (p :: ps)).highSeq) ∧
    ∀ start len, (initial.run (p :: ps)).pendingGaps.find? start = some len ↔
      Run (Missing (p :: ps) p.seq (initial.run (p :: ps)).highSeq) start len := by
  obtain ⟨_, hsettled⟩ := delivery_spec hsent hlo hhi hdel hshort
  obtain ⟨q, hq, _, htop⟩ := hsettled.top
  refine ⟨⟨⟨q, hq, htop⟩, fun q hq => delivery_end_le hsent hlo hhi hdel hshort hq⟩, ?_⟩
  intro start len
  rw [hsettled.maximal.find_iff]
  have hcovers := delivery_covers_iff hsent hlo hhi hdel hshort
  exact ⟨fun hr => hr.congr hcovers, fun hr => hr.congr fun x => (hcovers x).symm⟩

/-- Two lost packets next to each other are one gap, and a recovered one in the middle of three
leaves two. -/
theorem pending_gaps_exact_split :
    (initial.run [⟨1, 2⟩, ⟨9, 1⟩, ⟨5, 2⟩]).pendingGaps.find? 3 = some 2 ↔
      Run (Missing [⟨1, 2⟩, ⟨9, 1⟩, ⟨5, 2⟩] 1
        (initial.run [⟨1, 2⟩, ⟨9, 1⟩, ⟨5, 2⟩]).highSeq) 3 2 :=
  (pending_gaps_exact (show Partition [⟨1, 2⟩, ⟨3, 2⟩, ⟨5, 2⟩, ⟨7, 2⟩, ⟨9, 1⟩] 1 10 by decide)
    (by decide) (by decide) (by decide) (no_long_jump_of_lt (by decide))).2 3 2

/-- Two deliveries without a long jump that begin with the same packet and bring the same packets,
in whatever orders and with whatever repetitions, leave the same mark and the same gaps, report the
same loss and have accepted equally many messages. -/
theorem order_independent (hsent : Partition sent lo hi) (hlo : 1 ≤ lo) (hhi : hi < 2 ^ 64)
    {ds ds' : List Packet} (hdel : ∀ q ∈ ds, q ∈ sent) (hhead : ds.head? = ds'.head?)
    (hmem : ∀ q, q ∈ ds ↔ q ∈ ds') (hshort : NoLongJump ds) (hshort' : NoLongJump ds') :
    (initial.run ds).highSeq = (initial.run ds').highSeq ∧
      (initial.run ds).pendingGaps = (initial.run ds').pendingGaps ∧
      (initial.run ds).trulyLost = (initial.run ds').trulyLost ∧
      messages (initial.accepted ds) = messages (initial.accepted ds') := by
  cases ds with
  | nil =>
      obtain rfl : ds' = [] := List.head?_eq_none_iff.mp hhead.symm
      exact ⟨rfl, rfl, rfl, rfl⟩
  | cons p ps =>
  cases ds' with
  | nil => cases hhead
  | cons p' ps' =>
  obtain rfl : p = p' := Option.some.inj hhead
  have hdel' : ∀ q ∈ p :: ps', q ∈ sent := fun q hq => hdel q ((hmem q).mpr hq)
  obtain ⟨_, hsettled⟩ := delivery_spec hsent hlo hhi hdel hshort
  obtain ⟨_, hsettled'⟩ := delivery_spec hsent hlo hhi hdel' hshort'
  have hhigh : (initial.run (p :: ps)).highSeq = (initial.run (p :: ps')).highSeq := by
    obtain ⟨q, hq, _, htop⟩ := hsettled.top
    obtain ⟨q', hq', _, htop'⟩ := hsettled'.top
    have hle := delivery_end_le hsent hlo hhi hdel' hshort' ((hmem q).mp hq)
    have hge := delivery_end_le hsent hlo hhi hdel hshort ((hmem q').mpr hq')
    omega
  have hgaps : (initial.run (p :: ps)).pendingGaps = (initial.run (p :: ps')).pendingGaps := by
    refine hsettled.maximal.ext hsettled'.maximal fun x => ?_
    rw [delivery_covers_iff hsent hlo hhi hdel hshort,
      delivery_covers_iff hsent hlo hhi hdel' hshort', hhigh]
    simp only [Missing, hmem]
  refine ⟨hhigh, hgaps, by rw [trulyLost, hgaps, trulyLost], ?_⟩
  -- What was not lost was accepted.
  have hbounds : ∀ {qs : List Packet}, (∀ q ∈ qs, q ∈ sent) →
      (∀ q ∈ qs, 1 ≤ q.seq) ∧ ∀ q ∈ qs, q.seq + q.count < 2 ^ 64 := by
    intro qs hqs
    refine ⟨fun q hq => ?_, fun q hq => ?_⟩
    · have := (hsent.bounds.2 q (hqs q hq)).1
      omega
    · have := (hsent.bounds.2 q (hqs q hq)).2.2
      omega
  have hledger := ledger (hbounds hdel).1 (hbounds hdel).2
  have hledger' := ledger (hbounds hdel').1 (hbounds hdel').2
  rw [(shortfalls_eq_zero_iff _).mpr hshort] at hledger
  rw [(shortfalls_eq_zero_iff _).mpr hshort', ← hgaps, ← hhigh] at hledger'
  omega

/-- Three packets in two orders, one of them twice. -/
theorem order_independent_repeated :
    (initial.run [⟨1, 2⟩, ⟨9, 1⟩, ⟨5, 2⟩]).pendingGaps =
      (initial.run [⟨1, 2⟩, ⟨5, 2⟩, ⟨9, 1⟩, ⟨5, 2⟩]).pendingGaps :=
  (order_independent (show Partition [⟨1, 2⟩, ⟨3, 2⟩, ⟨5, 2⟩, ⟨7, 2⟩, ⟨9, 1⟩] 1 10 by decide)
    (by decide) (by decide) (by decide) rfl (by simp) (no_long_jump_of_lt (by decide))
    (no_long_jump_of_lt (by decide))).2.1

end Delivery

end Tracker

end FeedHandler.Receiver
