import FeedHandler.Receiver.Tracker

/-!
# Sequence tracking in the v1 receiver

The counters of `src/v1/receiver.cpp`: the next sequence number expected, and no memory of what was
missed. The source advances `expected_seq` after its message loop, which does not read it.
-/

namespace FeedHandler.Receiver

/-- The variables of the v1 tracking block. `gaps` and `dups` are left unbounded: they grow by at
most one with a packet, so that those of the source do not wrap in fewer than `2 ^ 64` packets. -/
structure V1Tracker where
  expectedSeq : Nat
  gaps : Nat
  lost : Nat
  dups : Nat

namespace V1Tracker

/-- The variables before the first packet. -/
def initial : V1Tracker := ⟨0, 0, 0, 0⟩

/-- The first packet sets the expected number. -/
def sync (t : V1Tracker) (p : Packet) : V1Tracker :=
  if t.expectedSeq = 0 then { t with expectedSeq := p.seq } else t

/-- One packet: the variables after it, and whether the message loop runs. -/
def receive (t : V1Tracker) (p : Packet) : V1Tracker × Bool :=
  let t := t.sync p
  if p.seq > t.expectedSeq then
    ({ t with
        gaps := t.gaps + 1
        lost := add64 t.lost (sub64 p.seq t.expectedSeq)
        expectedSeq := add64 p.seq p.count }, true)
  else if p.seq < t.expectedSeq then
    ({ t with dups := t.dups + 1 }, false)
  else
    ({ t with expectedSeq := add64 p.seq p.count }, true)

/-- A packet that follows the ones before it is processed and moves the expected number to its
end. -/
theorem receive_in_order {t : V1Tracker} {p : Packet}
    (hnext : t.expectedSeq = 0 ∨ t.expectedSeq = p.seq) (hp : p.seq + p.count < 2 ^ 64) :
    t.receive p = ({ t with expectedSeq := p.seq + p.count }, true) := by
  have hsync : t.sync p = { t with expectedSeq := p.seq } := by
    cases t
    rcases hnext with hzero | heq <;> simp_all [sync]
  simp only [receive, hsync, gt_iff_lt, lt_self_iff_false, if_false, Tracker.add64_eq hp]

end V1Tracker

/-- A packet that follows the ones before it is accepted and moves the mark to its end. -/
theorem Tracker.receive_in_order {t : Tracker} {p : Packet}
    (hnext : t.highSeq = 0 ∨ t.highSeq = p.seq) (hp : p.seq + p.count < 2 ^ 64) :
    t.receive p = ({ t with highSeq := p.seq + p.count }, true) := by
  have hsync : t.sync p = { t with highSeq := p.seq } := by
    cases t
    rcases hnext with hzero | heq <;> simp_all [sync]
  simp only [receive, hsync, if_true, add64_eq hp]

end FeedHandler.Receiver
