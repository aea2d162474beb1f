import FeedHandler.Foundations.Intervals

/-!
# Sequence tracking in the v2 and v3 receivers

The block of `src/v2/receiver.cpp` and `src/v3/receiver.cpp` between the header decode and the
message loop: a high-water mark and a map of the gaps below it. `receive` is one packet, `run` and
`accepted` are a sequence of packets. `receive_cases` says once what a packet can do, and every
invariant is derived from it.
-/

namespace FeedHandler.Receiver

open Intervals

/-- 64-bit addition. -/
def add64 (a b : Nat) : Nat := (a + b) % 2 ^ 64

/-- 64-bit subtraction. -/
def sub64 (a b : Nat) : Nat := (2 ^ 64 + a - b) % 2 ^ 64

/-- `static_cast<uint16_t>`. -/
def narrow16 (x : Nat) : Nat := x % 2 ^ 16

/-- The header of a packet: its first sequence number and its message count. -/
structure Packet where
  seq : Nat
  count : Nat
  deriving DecidableEq, Repr

/-- A sequence number belongs to a packet. -/
def Packet.Covers (p : Packet) (x : Nat) : Prop := p.seq ≤ x ∧ x < p.seq + p.count

instance (p : Packet) (x : Nat) : Decidable (p.Covers x) := inferInstanceAs (Decidable (_ ∧ _))

/-- The variables of the tracking block. The counters are left unbounded: with a packet `gaps` and
`dups` grow by at most one and `recovered` by less than `2 ^ 16`, so that the counters of the source
do not wrap in fewer than `2 ^ 48` packets. -/
structure Tracker where
  highSeq : Nat
  pendingGaps : OrderedMap Nat Nat
  gaps : Nat
  dups : Nat
  recovered : Nat

namespace Tracker

/-- The variables before the first packet. -/
def initial : Tracker := ⟨0, ∅, 0, 0, 0⟩

/-- The update of `pending_gaps` for a late packet inside the gap of length `gapLen` at
`gapStart`: the whole gap, its front, its back or its middle is recovered. -/
def recoverGap (m : OrderedMap Nat Nat) (gapStart gapLen seq count : Nat) : OrderedMap Nat Nat :=
  if seq = gapStart ∧ count = gapLen then m.erase gapStart
  else if seq = gapStart then
    (m.erase gapStart).assign (add64 seq count) (narrow16 (sub64 gapLen count))
  else if add64 seq count = add64 gapStart gapLen then
    m.assign gapStart (narrow16 (sub64 seq gapStart))
  else
    ((m.erase gapStart).assign gapStart (narrow16 (sub64 seq gapStart))).assign (add64 seq count)
      (narrow16 (sub64 (add64 gapStart gapLen) (add64 seq count)))

/-- The packet is counted as a duplicate. -/
def drop (t : Tracker) : Tracker × Bool := ({ t with dups := t.dups + 1 }, false)

/-- The first packet sets the high-water mark. -/
def sync (t : Tracker) (p : Packet) : Tracker :=
  if t.highSeq = 0 then { t with highSeq := p.seq } else t

/-- One packet: the variables after it and the value of `accept`. -/
def receive (t : Tracker) (p : Packet) : Tracker × Bool :=
  let t := t.sync p
  if p.seq = t.highSeq then
    ({ t with highSeq := add64 t.highSeq p.count }, true)
  else if p.seq > t.highSeq then
    ({ t with
        gaps := t.gaps + 1
        pendingGaps := t.pendingGaps.assign t.highSeq (narrow16 (sub64 p.seq t.highSeq))
        highSeq := add64 p.seq p.count }, true)
  else
    match t.pendingGaps.floor? p.seq with
    | none => t.drop
    | some (gapStart, gapLen) =>
        if p.seq ≥ gapStart ∧ add64 p.seq p.count ≤ add64 gapStart gapLen then
          ({ t with
              recovered := t.recovered + p.count
              pendingGaps := recoverGap t.pendingGaps gapStart gapLen p.seq p.count }, true)
        else t.drop

/-- The variables after a sequence of packets. -/
def run (t : Tracker) (ps : List Packet) : Tracker := ps.foldl (fun t p => (t.receive p).1) t

/-- The packets of a sequence for which `accept` is set, in order of delivery. -/
def accepted (t : Tracker) : List Packet → List Packet
  | [] => []
  | p :: ps =>
      if (t.receive p).2 then p :: accepted (t.receive p).1 ps
      else accepted (t.receive p).1 ps

/-- `truly_lost`: the sum over `pending_gaps` at the end of the run. -/
def trulyLost (t : Tracker) : Nat := t.pendingGaps.total id % 2 ^ 64

@[simp] theorem run_nil (t : Tracker) : t.run [] = t := rfl

@[simp] theorem run_cons (t : Tracker) (p : Packet) (ps : List Packet) :
    t.run (p :: ps) = (t.receive p).1.run ps := rfl

theorem run_append (t : Tracker) (ps qs : List Packet) : t.run (ps ++ qs) = (t.run ps).run qs :=
  List.foldl_append

theorem accepted_sublist (t : Tracker) (ps : List Packet) : (t.accepted ps).Sublist ps := by
  induction ps generalizing t with
  | nil => exact .slnil
  | cons p ps ih =>
      unfold accepted
      split
      · exact (ih _).cons_cons p
      · exact (ih _).cons p

/-! ## Recovery is carving -/

theorem add64_eq {a b : Nat} (h : a + b < 2 ^ 64) : add64 a b = a + b := Nat.mod_eq_of_lt h

theorem sub64_eq {a b : Nat} (hle : b ≤ a) (ha : a < 2 ^ 64) : sub64 a b = a - b := by
  unfold sub64
  omega

theorem narrow16_eq {x : Nat} (h : x < 2 ^ 16) : narrow16 x = x := Nat.mod_eq_of_lt h

theorem narrow16_le (x : Nat) : narrow16 x ≤ x := Nat.mod_le x _

theorem narrow16_lt (x : Nat) : narrow16 x < 2 ^ 16 := Nat.mod_lt x (Nat.two_pow_pos 16)

/-- Every stored length fits in 16 bits. -/
def ShortGaps (m : OrderedMap Nat Nat) : Prop :=
  ∀ start len, m.find? start = some len → len < 2 ^ 16

/-- While the stored lengths fit in 16 bits, recovery carves the packet out of its gap. -/
theorem recover_gap_eq_carve {m : OrderedMap Nat Nat} {gapStart gapLen seq count : Nat}
    (hshort : gapLen < 2 ^ 16) (hend : gapStart + gapLen < 2 ^ 64) (hle : gapStart ≤ seq)
    (hin : seq + count ≤ gapStart + gapLen) :
    recoverGap m gapStart gapLen seq count = carve m gapStart gapLen seq (seq + count) := by
  unfold recoverGap
  rw [add64_eq (by omega), add64_eq hend, sub64_eq hin hend, sub64_eq hle (by omega),
    narrow16_eq (by omega : seq - gapStart < 2 ^ 16)]
  -- The two maps agree at every start: the gap's own, the end of the packet, and the others.
  apply OrderedMap.ext_find
  intro s
  rw [find_carve]
  split
  next hwhole => simp [OrderedMap.find_erase, hwhole]
  next hwhole =>
    split
    next hfront =>
      have hcount : count ≤ gapLen := by omega
      rw [sub64_eq hcount (by omega), narrow16_eq (by omega)]
      simp only [OrderedMap.find_assign, OrderedMap.find_erase, hfront]
      by_cases hs : s = gapStart + count
      · simp only [hs, if_true]
        rw [if_pos ⟨trivial, by omega⟩]
        congr 1
        omega
      · simp [hs]
    next hfront =>
      split
      next hback => simp [OrderedMap.find_assign, hback]
      next hback =>
        rw [narrow16_eq (by omega)]
        simp only [OrderedMap.find_assign, OrderedMap.find_erase]
        by_cases hs : s = gapStart <;> simp [hs, hback]

/-- Carving keeps the lengths short. -/
theorem short_carve {m : OrderedMap Nat Nat} {start len a b : Nat}
    (hfind : m.find? start = some len) (hshort : ShortGaps m) (ha : start ≤ a) (hab : a ≤ b)
    (hb : b ≤ start + len) : ShortGaps (carve m start len a b) := by
  intro s l hs
  have hlen := hshort start len hfind
  rw [find_carve] at hs
  split at hs
  · cases hs
    omega
  · split at hs
    · split at hs
      · cases hs
      · cases hs
        omega
    · exact hshort s l hs

/-! ## What a packet can do -/

/-- The invariant of the tracking variables: the gaps are disjoint intervals below the high-water
mark, and their lengths fit in 16 bits. -/
structure WF (t : Tracker) : Prop where
  spaced : Spaced t.pendingGaps
  below : Below t.pendingGaps t.highSeq
  short : ShortGaps t.pendingGaps
  high_lt : t.highSeq < 2 ^ 64

theorem wf_initial : initial.WF where
  spaced := spaced_empty
  below := below_empty
  short := by
    intro start len h
    cases h
  high_lt := by decide

section Sync

variable {t : Tracker} {p : Packet}

@[simp] theorem sync_pending_gaps : (t.sync p).pendingGaps = t.pendingGaps := by
  unfold sync
  split <;> rfl

theorem le_sync_high : t.highSeq ≤ (t.sync p).highSeq := by
  unfold sync
  split <;> simp_all

/-- After the first packet the mark is no longer set from a packet. -/
theorem sync_of_pos (h : 0 < t.highSeq) : t.sync p = t := by
  rw [sync, if_neg (by omega)]

theorem WF.sync (h : t.WF) (hp : p.seq < 2 ^ 64) : (t.sync p).WF where
  spaced := by simpa using h.spaced
  below := by simpa using h.below.mono le_sync_high
  short := by simpa using h.short
  high_lt := by
    unfold Tracker.sync
    split
    · exact hp
    · exact h.high_lt

end Sync

/-- The four things a packet can do: follow the mark, jump ahead of it, be recovered from a gap, or
be dropped because no gap contains it. -/
theorem receive_cases {t : Tracker} {p : Packet} (h : t.WF) (hp : p.seq + p.count < 2 ^ 64) :
    (p.seq = (t.sync p).highSeq ∧
      t.receive p = ({ t.sync p with highSeq := p.seq + p.count }, true)) ∨
    ((t.sync p).highSeq < p.seq ∧
      t.receive p = ({ t.sync p with
        gaps := (t.sync p).gaps + 1
        pendingGaps := t.pendingGaps.assign (t.sync p).highSeq
          (narrow16 (p.seq - (t.sync p).highSeq))
        highSeq := p.seq + p.count }, true)) ∨
    (∃ start len, t.pendingGaps.find? start = some len ∧ start ≤ p.seq ∧
      p.seq + p.count ≤ start + len ∧ p.seq < (t.sync p).highSeq ∧
      t.receive p = ({ t.sync p with
        recovered := (t.sync p).recovered + p.count
        pendingGaps := carve t.pendingGaps start len p.seq (p.seq + p.count) }, true)) ∨
    ((∀ start len, t.pendingGaps.find? start = some len → start ≤ p.seq → p.seq < start + len →
        ¬ p.seq + p.count ≤ start + len) ∧ p.seq < (t.sync p).highSeq ∧
      t.receive p = ({ t.sync p with dups := (t.sync p).dups + 1 }, false)) := by
  have hwf := h.sync (by omega : p.seq < 2 ^ 64)
  have hhigh := hwf.high_lt
  have hbelow := hwf.below
  rw [sync_pending_gaps] at hbelow
  rcases Nat.lt_trichotomy p.seq (t.sync p).highSeq with hlt | heq | hgt
  · refine .inr (.inr ?_)
    simp only [receive, if_neg hlt.ne, if_neg hlt.asymm, sync_pending_gaps]
    cases hfloor : t.pendingGaps.floor? p.seq with
    | none =>
        -- No gap starts at or before the packet.
        refine .inr ⟨fun start len hfind hstart _ => ?_, hlt, by simp [drop]⟩
        have := t.pendingGaps.floor_eq_none_iff.mp hfloor start len hfind
        omega
    | some gap =>
        obtain ⟨start, len⟩ := gap
        obtain ⟨hfind, hstart, _⟩ := t.pendingGaps.floor_eq_some_iff.mp hfloor
        have hend := hbelow start len hfind
        simp only
        rw [add64_eq hp, add64_eq (by omega : start + len < 2 ^ 64)]
        -- Gaps do not overlap, so only the last one that starts before the packet can hold it.
        by_cases hin : p.seq + p.count ≤ start + len
        · refine .inl ⟨start, len, hfind, hstart, hin, hlt, ?_⟩
          rw [if_pos ⟨hstart, hin⟩,
            recover_gap_eq_carve (h.short start len hfind) (by omega) hstart hin]
        · refine .inr ⟨fun start' len' hfind' hle' hlt' => ?_, hlt, ?_⟩
          · have hsame := h.spaced.floor_of_covers hfind' hle' hlt'
            rw [hfloor] at hsame
            cases hsame
            exact hin
          · rw [if_neg fun hboth => hin hboth.2]
            simp [drop]
  · refine .inl ⟨heq, ?_⟩
    simp only [receive, if_pos heq]
    rw [← heq, add64_eq hp]
  · refine .inr (.inl ⟨hgt, ?_⟩)
    simp only [receive, if_neg hgt.ne', if_pos hgt, sync_pending_gaps]
    rw [sub64_eq hgt.le (by omega), add64_eq hp]

/-- A packet keeps the invariant. -/
theorem WF.receive {t : Tracker} {p : Packet} (h : t.WF) (hp : p.seq + p.count < 2 ^ 64) :
    (t.receive p).1.WF := by
  have hwf := h.sync (by omega : p.seq < 2 ^ 64)
  have hbelow := hwf.below
  simp only [sync_pending_gaps] at hbelow
  rcases receive_cases h hp with ⟨heq, hrec⟩ | ⟨hgt, hrec⟩ |
      ⟨start, len, hfind, hstart, hend, _, hrec⟩ | ⟨_, _, hrec⟩ <;> rw [hrec]
  · exact ⟨hwf.spaced, hwf.below.mono (by simp; omega), hwf.short, hp⟩
  · have hnarrow := narrow16_le (p.seq - (t.sync p).highSeq)
    refine ⟨spaced_append hbelow h.spaced _, below_append hbelow ?_ ?_, ?_, hp⟩
    · show (t.sync p).highSeq < p.seq + p.count
      omega
    · show (t.sync p).highSeq + _ ≤ p.seq + p.count
      omega
    · intro s l hs
      rw [OrderedMap.find_assign] at hs
      split at hs
      · cases hs
        exact narrow16_lt _
      · exact h.short s l hs
  · refine ⟨?_, ?_, ?_, hwf.high_lt⟩
    · exact spaced_carve hfind hstart (by omega) hend h.spaced
    · exact below_carve hfind hstart (by omega) hend h.spaced hbelow
    · exact short_carve hfind h.short hstart (by omega) hend
  · exact ⟨hwf.spaced, hwf.below, hwf.short, hwf.high_lt⟩

/-- The invariant holds after every sequence of packets. -/
theorem WF.run {t : Tracker} (h : t.WF) {ps : List Packet}
    (hps : ∀ p ∈ ps, p.seq + p.count < 2 ^ 64) : (t.run ps).WF := by
  induction ps generalizing t with
  | nil => exact h
  | cons p ps ih =>
      exact ih (h.receive (hps p List.mem_cons_self)) fun q hq => hps q (.tail _ hq)

end Tracker

end FeedHandler.Receiver
