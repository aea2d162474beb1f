import FeedHandler.Receiver.LossAccounting

/-!
# Exactly-once acceptance

Delivery of the packets of one sender: their intervals partition a range of sequence numbers, and
the network may reorder, repeat and lose them. `Tracks` says that the gaps are unions of whole
packets and that a packet past the first delivered sequence number is in a gap exactly while it has
not been delivered. `accept_iff_first_delivery` is the consequence for `accept`.
-/

namespace FeedHandler.Receiver

open Intervals

/-- The packets are consecutive non-empty intervals from `lo` to `hi`. -/
def Partition : List Packet → Nat → Nat → Prop
  | [], lo, hi => lo = hi
  | p :: ps, lo, hi => p.seq = lo ∧ 1 ≤ p.count ∧ Partition ps (p.seq + p.count) hi

instance decidablePartition : (ps : List Packet) → (lo hi : Nat) → Decidable (Partition ps lo hi)
  | [], lo, hi => inferInstanceAs (Decidable (lo = hi))
  | p :: ps, lo, hi =>
      have := decidablePartition ps (p.seq + p.count) hi
      inferInstanceAs (Decidable (p.seq = lo ∧ 1 ≤ p.count ∧ Partition ps (p.seq + p.count) hi))

/-- A packet of a partition lies in its range. -/
theorem Partition.bounds {ps : List Packet} {lo hi : Nat} (h : Partition ps lo hi) :
    lo ≤ hi ∧ ∀ p ∈ ps, lo ≤ p.seq ∧ 1 ≤ p.count ∧ p.seq + p.count ≤ hi := by
  induction ps generalizing lo with
  | nil => exact ⟨h.le, by simp⟩
  | cons p ps ih =>
      obtain ⟨rfl, hcount, hrest⟩ := h
      obtain ⟨hle, hall⟩ := ih hrest
      refine ⟨by omega, fun q hq => ?_⟩
      rcases List.mem_cons.mp hq with rfl | hq
      · omega
      · have := hall q hq
        omega

/-- Two packets of a partition are the same or do not overlap. -/
theorem Partition.apart {ps : List Packet} {lo hi : Nat} (h : Partition ps lo hi) {p q : Packet}
    (hp : p ∈ ps) (hq : q ∈ ps) :
    p = q ∨ p.seq + p.count ≤ q.seq ∨ q.seq + q.count ≤ p.seq := by
  induction ps generalizing lo with
  | nil => cases hp
  | cons r ps ih =>
      obtain ⟨rfl, hcount, hrest⟩ := h
      have hall := hrest.bounds.2
      rcases List.mem_cons.mp hp with hpr | hps <;> rcases List.mem_cons.mp hq with hqr | hqs
      · exact .inl (hpr.trans hqr.symm)
      · rw [hpr]
        exact .inr (.inl (hall q hqs).1)
      · rw [hqr]
        exact .inr (.inr (hall p hps).1)
      · exact ih hrest hps hqs

/-- The end of a packet is a boundary of the partition. -/
theorem Partition.end_edge {ps : List Packet} {lo hi : Nat} (h : Partition ps lo hi) {p q : Packet}
    (hp : p ∈ ps) (hq : q ∈ ps) :
    p.seq + p.count ≤ q.seq ∨ q.seq + q.count ≤ p.seq + p.count := by
  have hcount := (h.bounds.2 p hp).2.1
  rcases h.apart hp hq with hsame | hpq | hqp
  · rw [hsame]
    exact .inr le_rfl
  · exact .inl hpq
  · exact .inr (by omega)

namespace Tracker

/-- The tracking variables after some deliveries out of the packets `sent`, the first of them
starting at `first`. -/
structure Tracks (sent : List Packet) (first : Nat) (t : Tracker) (delivered : List Packet) :
    Prop where
  wf : t.WF
  pos : 0 < t.highSeq
  first_le : first ≤ t.highSeq
  high_edge : ∀ q ∈ sent, t.highSeq ≤ q.seq ∨ q.seq + q.count ≤ t.highSeq
  gap_edge : ∀ start len, t.pendingGaps.find? start = some len → first ≤ start ∧
    ∀ q ∈ sent, (start ≤ q.seq ∧ q.seq + q.count ≤ start + len) ∨
      q.seq + q.count ≤ start ∨ start + len ≤ q.seq
  delivered_below : ∀ q ∈ delivered, first ≤ q.seq → q.seq + q.count ≤ t.highSeq
  missing : ∀ q ∈ sent, first ≤ q.seq → q.seq + q.count ≤ t.highSeq →
    (q ∉ delivered ↔ Covers t.pendingGaps q.seq)

section Step

variable {sent : List Packet} {lo hi first : Nat} {t : Tracker} {delivered : List Packet}
  {p : Packet}

/-- The first delivered packet. -/
theorem tracks_first (hsent : Partition sent lo hi) (hlo : 1 ≤ lo) (hhi : hi < 2 ^ 64)
    (hp : p ∈ sent) : Tracks sent p.seq (initial.receive p).1 [p] := by
  have hbound := hsent.bounds.2
  have hpb := hbound p hp
  have hend : p.seq + p.count < 2 ^ 64 := by omega
  have hfirst := receive_first hend
  have hwf := wf_initial.receive hend
  rw [hfirst] at hwf ⊢
  refine ⟨hwf, ?_, ?_, fun q hq => hsent.end_edge hp hq, ?_, ?_, ?_⟩
  · show 0 < p.seq + p.count
    omega
  · show p.seq ≤ p.seq + p.count
    omega
  · intro start len h
    cases h
  · simp
  · -- Only the packet itself lies between its start and its end.
    intro q hq hle hqend
    have hqb := hbound q hq
    have hqend : q.seq + q.count ≤ p.seq + p.count := hqend
    have hsame : p = q := by
      rcases hsent.apart hp hq with h | h | h
      · exact h
      · omega
      · omega
    subst hsame
    simp [initial]

/-- A packet at or past the mark has not been delivered. -/
theorem Tracks.not_delivered (h : Tracks sent first t delivered) (hsent : Partition sent lo hi)
    (hp : p ∈ sent) (hle : t.highSeq ≤ p.seq) : p ∉ delivered := by
  intro hmem
  have hcount := (hsent.bounds.2 p hp).2.1
  have hfirst := h.first_le
  have hbelow := h.delivered_below p hmem (by omega)
  omega

/-- No gap reaches the mark. -/
theorem Tracks.not_covered (h : Tracks sent first t delivered) {x : Nat} (hle : t.highSeq ≤ x) :
    ¬ Covers t.pendingGaps x := by
  intro hx
  have hlt := h.wf.below.lt_of_covers hx
  omega

/-- What was delivered stays below a mark that does not move back. -/
theorem Tracks.concat_below (h : Tracks sent first t delivered) {mark : Nat}
    (hmark : t.highSeq ≤ mark) (hend : p.seq + p.count ≤ mark) :
    ∀ q ∈ delivered ++ [p], first ≤ q.seq → q.seq + q.count ≤ mark := by
  intro q hq hfq
  rcases List.mem_append.mp hq with hq | hq
  · exact (h.delivered_below q hq hfq).trans hmark
  · rw [List.mem_singleton.mp hq]
    exact hend

/-- The delivery of `p` settles which gap `p` is in, and only that. -/
theorem missing_concat {m : OrderedMap Nat Nat} {q : Packet} (hp : ¬ Covers m p.seq)
    (hq : q ≠ p → (q ∉ delivered ↔ Covers m q.seq)) :
    q ∉ delivered ++ [p] ↔ Covers m q.seq := by
  by_cases hqp : q = p
  · subst hqp
    simp [hp]
  · simpa [hqp] using hq hqp

/-- A packet at the mark moves the mark to its end. -/
theorem Tracks.follow (h : Tracks sent first t delivered) (hsent : Partition sent lo hi)
    (hp : p ∈ sent) (hseq : p.seq = t.highSeq) (hwf : WF { t with highSeq := p.seq + p.count }) :
    Tracks sent first { t with highSeq := p.seq + p.count } (delivered ++ [p]) where
  wf := hwf
  pos := by
    have hpos := h.pos
    show 0 < p.seq + p.count
    omega
  first_le := by
    have hfirst := h.first_le
    show first ≤ p.seq + p.count
    omega
  high_edge := fun q hq => hsent.end_edge hp hq
  gap_edge := h.gap_edge
  delivered_below := h.concat_below (show t.highSeq ≤ p.seq + p.count by omega) le_rfl
  missing := by
    intro q hq hfq hqend
    have hqend : q.seq + q.count ≤ p.seq + p.count := hqend
    have hqb := hsent.bounds.2 q hq
    refine missing_concat (h.not_covered hseq.ge) fun hqp => h.missing q hq hfq ?_
    -- Another packet that ends by the new mark ends by the old one.
    rcases hsent.apart hp hq with hsame | hpq | hqp'
    · exact absurd hsame.symm hqp
    · omega
    · omega

/-- A packet past the mark opens a gap up to its start. -/
theorem Tracks.ahead (h : Tracks sent first t delivered) (hsent : Partition sent lo hi)
    (hp : p ∈ sent) (hgt : t.highSeq < p.seq)
    (hwf : WF { t with
      gaps := t.gaps + 1
      pendingGaps := t.pendingGaps.assign t.highSeq (p.seq - t.highSeq)
      highSeq := p.seq + p.count }) :
    Tracks sent first { t with
      gaps := t.gaps + 1
      pendingGaps := t.pendingGaps.assign t.highSeq (p.seq - t.highSeq)
      highSeq := p.seq + p.count } (delivered ++ [p]) where
  wf := hwf
  pos := by
    show 0 < p.seq + p.count
    omega
  first_le := by
    have hfirst := h.first_le
    show first ≤ p.seq + p.count
    omega
  high_edge := fun q hq => hsent.end_edge hp hq
  gap_edge := by
    intro s l hs
    simp only [OrderedMap.find_assign] at hs
    split at hs
    next hsame =>
      -- The new gap runs between two boundaries of the partition.
      cases hs
      have hfirst := h.first_le
      refine ⟨by omega, fun q hq => ?_⟩
      have hqe := h.high_edge q hq
      rcases hsent.apart hp hq with rfl | hpq | hpq <;> omega
    next => exact h.gap_edge s l hs
  delivered_below := h.concat_below (show t.highSeq ≤ p.seq + p.count by omega) le_rfl
  missing := by
    intro q hq hfq hqend
    have hqend : q.seq + q.count ≤ p.seq + p.count := hqend
    have hqb := hsent.bounds.2 q hq
    show q ∉ delivered ++ [p] ↔
      Covers (t.pendingGaps.assign t.highSeq (p.seq - t.highSeq)) q.seq
    have hcovers (x : Nat) : Covers (t.pendingGaps.assign t.highSeq (p.seq - t.highSeq)) x ↔
        Covers t.pendingGaps x ∨ (t.highSeq ≤ x ∧ x < t.highSeq + (p.seq - t.highSeq)) :=
      covers_append h.wf.below
    refine missing_concat ?_ fun hqp => ?_
    · rw [hcovers]
      have hnot := h.not_covered hgt.le
      simp only [hnot, false_or]
      omega
    rw [hcovers]
    have hqp' : q.seq + q.count ≤ p.seq := by
      rcases hsent.apart hp hq with hsame | hpq | hqp'
      · exact absurd hsame.symm hqp
      · omega
      · exact hqp'
    rcases h.high_edge q hq with hqe | hqe
    · -- Between the old mark and the packet nothing was delivered.
      have hnd := h.not_delivered hsent hq hqe
      have hin : t.highSeq ≤ q.seq ∧ q.seq < t.highSeq + (p.seq - t.highSeq) := by omega
      simp [hnd, hin]
    · have hnot : ¬ (t.highSeq ≤ q.seq ∧ q.seq < t.highSeq + (p.seq - t.highSeq)) := by
        omega
      rw [h.missing q hq hfq hqe]
      simp [hnot]

/-- A packet inside a gap is carved out of it. -/
theorem Tracks.recover (h : Tracks sent first t delivered) (hsent : Partition sent lo hi)
    (hp : p ∈ sent) {start len : Nat} (hfind : t.pendingGaps.find? start = some len)
    (hstart : start ≤ p.seq) (hin : p.seq + p.count ≤ start + len)
    (hwf : WF { t with
      recovered := t.recovered + p.count
      pendingGaps := carve t.pendingGaps start len p.seq (p.seq + p.count) }) :
    Tracks sent first { t with
      recovered := t.recovered + p.count
      pendingGaps := carve t.pendingGaps start len p.seq (p.seq + p.count) }
      (delivered ++ [p]) where
  wf := hwf
  pos := h.pos
  first_le := h.first_le
  high_edge := h.high_edge
  gap_edge := by
    intro s l hs
    have hgap := h.gap_edge start len hfind
    have hcount := (hsent.bounds.2 p hp).2.1
    -- The two remainders end at the packet, which is a boundary on both sides.
    rcases carve_cases hfind hstart (by omega) hin h.wf.spaced hs with h' | h' | ⟨_, h', _⟩
    · refine ⟨by omega, fun q hq => ?_⟩
      have hqg := hgap.2 q hq
      have := hsent.bounds.2 q hq
      rcases hsent.apart hp hq with rfl | hpq | hpq <;> omega
    · refine ⟨by omega, fun q hq => ?_⟩
      have hqg := hgap.2 q hq
      have := hsent.bounds.2 q hq
      rcases hsent.apart hp hq with rfl | hpq | hpq <;> omega
    · exact h.gap_edge s l h'
  delivered_below := h.concat_below le_rfl (hin.trans (h.wf.below start len hfind).2)
  missing := by
    intro q hq hfq hqend
    have hcount := (hsent.bounds.2 p hp).2.1
    show q ∉ delivered ++ [p] ↔
      Covers (carve t.pendingGaps start len p.seq (p.seq + p.count)) q.seq
    have hcovers (x : Nat) := covers_carve hfind hstart (by omega) hin h.wf.spaced (x := x)
    refine missing_concat ?_ fun hqp => ?_
    · rw [hcovers]
      omega
    rw [hcovers, ← h.missing q hq hfq hqend]
    have hout : ¬ (p.seq ≤ q.seq ∧ q.seq < p.seq + p.count) := by
      have hqb := hsent.bounds.2 q hq
      rcases hsent.apart hp hq with hsame | hpq | hqp'
      · exact absurd hsame.symm hqp
      · omega
      · omega
    simp only [hout, not_false_eq_true, and_true]

/-- A dropped packet past the first one had been delivered. -/
theorem Tracks.drop (h : Tracks sent first t delivered) (hlow : p.seq + p.count ≤ t.highSeq)
    (hold : first ≤ p.seq → p ∈ delivered) (hwf : WF { t with dups := t.dups + 1 }) :
    Tracks sent first { t with dups := t.dups + 1 } (delivered ++ [p]) where
  wf := hwf
  pos := h.pos
  first_le := h.first_le
  high_edge := h.high_edge
  gap_edge := h.gap_edge
  delivered_below := h.concat_below le_rfl hlow
  missing := by
    intro q hq hfq hqend
    rw [← h.missing q hq hfq hqend]
    by_cases hqp : q = p
    · subst hqp
      simp [hold hfq]
    · simp [hqp]

/-- A packet is accepted exactly when it is delivered for the first time, and the description of
the tracking variables is kept. -/
theorem Tracks.receive (h : Tracks sent first t delivered) (hsent : Partition sent lo hi)
    (hhi : hi < 2 ^ 64) (hp : p ∈ sent) (hshort : t.jump p < 2 ^ 16) :
    Tracks sent first (t.receive p).1 (delivered ++ [p]) ∧
      (first ≤ p.seq → ((t.receive p).2 = true ↔ p ∉ delivered)) := by
  have hpb := hsent.bounds.2 p hp
  have hend : p.seq + p.count < 2 ^ 64 := by omega
  have hwf := h.wf.receive hend
  have hcases := receive_cases h.wf hend
  unfold jump at hshort
  rw [sync_of_pos h.pos] at hcases hshort
  -- Below the mark means wholly below it, as the mark is a boundary of the partition.
  have hlow : p.seq < t.highSeq → p.seq + p.count ≤ t.highSeq := by
    intro hlt
    rcases h.high_edge p hp with hle | hle
    · omega
    · exact hle
  rcases hcases with ⟨heq, hrec⟩ | ⟨hgt, hrec⟩ | ⟨start, len, hfind, hstart, hin, hlt, hrec⟩ |
      ⟨hout, hlt, hrec⟩ <;> rw [hrec] at hwf ⊢
  · refine ⟨h.follow hsent hp heq hwf, fun _ => ?_⟩
    simpa using h.not_delivered hsent hp heq.ge
  · rw [narrow16_eq hshort] at hwf ⊢
    refine ⟨h.ahead hsent hp hgt hwf, fun _ => ?_⟩
    simpa using h.not_delivered hsent hp hgt.le
  · refine ⟨h.recover hsent hp hfind hstart hin hwf, fun hfp => ?_⟩
    rw [h.missing p hp hfp (hlow hlt)]
    simp only [true_iff]
    exact ⟨start, len, hfind, hstart, by omega⟩
  · -- A dropped packet past the first one is in no gap, so it was delivered before.
    have hold : first ≤ p.seq → p ∈ delivered := by
      intro hfp
      by_contra hnd
      obtain ⟨start, len, hfind, hle, hplt⟩ := (h.missing p hp hfp (hlow hlt)).mp hnd
      have hgap := (h.gap_edge start len hfind).2 p hp
      exact hout start len hfind hle hplt (by omega)
    refine ⟨h.drop (hlow hlt) hold hwf, fun hfp => ?_⟩
    simp [hold hfp]

/-- The description of the tracking variables after any deliveries. -/
theorem Tracks.run {more : List Packet} (h : Tracks sent first t delivered)
    (hsent : Partition sent lo hi) (hhi : hi < 2 ^ 64) (hmore : ∀ q ∈ more, q ∈ sent)
    (hshort : ∀ before q after, more = before ++ q :: after → (t.run before).jump q < 2 ^ 16) :
    Tracks sent first (t.run more) (delivered ++ more) := by
  induction more generalizing t delivered with
  | nil => simpa using h
  | cons p more ih =>
      have hstep := (h.receive hsent hhi (hmore p List.mem_cons_self) (hshort [] p more rfl)).1
      have hrest := ih hstep (fun q hq => hmore q (.tail _ hq)) fun before q after heq =>
        hshort (p :: before) q after (by rw [heq, List.cons_append])
      simpa using hrest

end Step

/-- A packet at or past the first delivered one is accepted if it is new. -/
theorem accept_iff {sent before : List Packet} {p : Packet} {lo hi : Nat}
    (hsent : Partition sent lo hi) (hlo : 1 ≤ lo) (hhi : hi < 2 ^ 64)
    (hbefore : ∀ q ∈ before, q ∈ sent) (hp : p ∈ sent) (hshort : NoLongJump (before ++ [p]))
    (hfirst : ∀ p₀ ∈ before.head?, p₀.seq ≤ p.seq) :
    ((initial.run before).receive p).2 = true ↔ p ∉ before := by
  cases before with
  | nil =>
      have hbound := hsent.bounds.2 p hp
      simp [receive_first (by omega : p.seq + p.count < 2 ^ 64)]
  | cons p₀ before =>
      have hstart := tracks_first hsent hlo hhi (hbefore p₀ (by simp))
      have htracks := hstart.run hsent hhi (fun q hq => hbefore q (.tail _ hq)) fun b q a heq =>
        hshort (p₀ :: b) q (a ++ [p]) (by simp [heq])
      exact (htracks.receive hsent hhi hp (hshort (p₀ :: before) p [] rfl)).2 (hfirst p₀ rfl)

/-- Whatever the order, the repetitions and the losses in a delivery of the sender's packets, a
packet at or past the first delivered one is accepted at its first delivery and at no later
one. -/
theorem accept_iff_first_delivery {sent : List Packet} {lo hi : Nat}
    (hsent : Partition sent lo hi) (hlo : 1 ≤ lo) (hhi : hi < 2 ^ 64) {deliveries : List Packet}
    (hdel : ∀ q ∈ deliveries, q ∈ sent) (hshort : NoLongJump deliveries) :
    ∀ before p after, deliveries = before ++ p :: after →
      (∀ p₀ ∈ deliveries.head?, p₀.seq ≤ p.seq) →
      (((initial.run before).receive p).2 = true ↔ p ∉ before) := by
  intro before p after hsame hfirst
  subst hsame
  refine accept_iff hsent hlo hhi (fun q hq => hdel q (by simp [hq])) (hdel p (by simp)) ?_ ?_
  · intro b q a heq
    exact hshort b q (a ++ after) (by rw [List.append_cons, heq]; simp)
  · exact fun p₀ hp₀ => hfirst p₀ (by cases before <;> simp_all)

/-- The packets 4 to 6 and 7 arrive in the wrong order and twice: each is accepted once. -/
theorem accept_iff_first_delivery_reordered :
    ((initial.run [⟨1, 3⟩, ⟨7, 1⟩, ⟨4, 3⟩, ⟨7, 1⟩]).receive ⟨4, 3⟩).2 = true ↔
      (⟨4, 3⟩ : Packet) ∉ [⟨1, 3⟩, ⟨7, 1⟩, ⟨4, 3⟩, (⟨7, 1⟩ : Packet)] :=
  accept_iff_first_delivery (show Partition [⟨1, 3⟩, ⟨4, 3⟩, ⟨7, 1⟩] 1 8 by decide) (by decide)
    (by decide) (by decide) ((shortfalls_eq_zero_iff _).mp (by decide))
    [⟨1, 3⟩, ⟨7, 1⟩, ⟨4, 3⟩, ⟨7, 1⟩] ⟨4, 3⟩ [] rfl (by decide)

end Tracker

end FeedHandler.Receiver
