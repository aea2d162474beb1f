import FeedHandler.Common.WireReads
import FeedHandler.Receiver.Dispatch

/-!
# What the unwrap loop reads

The unwrap-and-dispatch loop of the three receivers as a program that reads the receive buffer. The
loop checks that the length prefix and the declared length lie in the datagram, but not that the
declared length covers what the parser of the type reads. `reads_inside_iff` says that the loop
stays inside the datagram, and each parser inside its message, for exactly the datagrams whose
messages are as long as their types say and do not begin at the end.
-/

namespace FeedHandler.Receiver

open Bytes Itch

namespace Datagram

/-- The unwrap-and-dispatch loop over `count` rounds from `off` on: the messages it visits with what
the switch makes of them. -/
def unwrapAndDispatch (n : Nat) : Nat → Nat → Reader (List ((Nat × Nat) × Option Message))
  | 0, _ => return []
  | count + 1, off =>
      if off + 2 > n then return []
      else do
        let len ← be16At off
        if off + 2 + len > n then return []
        else do
          let m ← Message.dispatchAt (off + 2)
          let rest ← unwrapAndDispatch n count (off + 2 + len)
          return ((off + 2, len), m) :: rest

variable (d : Datagram)

/-- The loop on a datagram. -/
def loop : Reader (List ((Nat × Nat) × Option Message)) :=
  unwrapAndDispatch d.n d.header.count Mold.kHeaderSize

/-- Where the length prefix of the `k`-th message stands. -/
def prefixAt : Nat → Nat
  | 0 => Mold.kHeaderSize
  | k + 1 => prefixAt k + 2 + readBe16 (advance d.buf (prefixAt k))

/-- Every message that the datagram declares and holds begins before the end of the datagram, and is
as long as its type says if it is an order message. -/
def Complete : Prop :=
  ∀ k, k < d.header.count → d.prefixAt (k + 1) ≤ d.n →
    d.prefixAt k + 2 < d.n ∧
      (d.buf (d.prefixAt k + 2) ∈ kOrderTypes →
        Message.wireSize (d.buf (d.prefixAt k + 2)) ≤ readBe16 (advance d.buf (d.prefixAt k)))

instance : Decidable d.Complete := inferInstanceAs (Decidable (∀ k, k < _ → _))

/-- The loop reads bytes of the datagram only, and every parser bytes of its own message; the bytes
behind the datagram make no difference to a receiver. -/
structure ReadsInside : Prop where
  within : ∀ a ∈ d.loop.trace d.buf, a < d.n
  own : ∀ m ∈ d.messages, ∀ a ∈ (Message.parseAt (d.buf m.1) m.1).trace d.buf,
    m.1 ≤ a ∧ a < m.1 + m.2
  stale : ∀ d' : Datagram, d'.n = d.n → (∀ i, i < d.n → d'.buf i = d.buf i) →
    d'.messages = d.messages ∧ d'.payloads = d.payloads ∧ d'.decoded = d.decoded ∧
      ∀ (τ β : Type) (receive : τ → Packet → τ × Bool) (step : β → Message → Option β)
        (r : Counters τ × β), handle receive step r d' = handle receive step r d

section Loop

variable {d} {count off : Nat}

theorem run_unwrap :
    (unwrapAndDispatch d.n count off).run d.buf =
      (d.unwrap count off).map fun m => (m, Message.decode (advance d.buf m.1)) := by
  induction count generalizing off with
  | zero => rfl
  | succ count ih =>
      unfold unwrapAndDispatch unwrap
      split
      next => rfl
      next =>
        rw [Reader.run_step, run_be16_at]
        split
        next hlen => simp [hlen]
        next hlen => simp [hlen, ih, Message.run_dispatch_at]

/-- What the loop makes of a datagram: the messages and what they decode to. -/
theorem run_loop :
    d.loop.run d.buf = d.messages.map fun m => (m, Message.decode (advance d.buf m.1)) :=
  run_unwrap

/-- The loop stays inside the datagram if and only if every parser does, and the type bytes. -/
theorem trace_unwrap_lt_iff :
    (∀ a ∈ (unwrapAndDispatch d.n count off).trace d.buf, a < d.n) ↔
      ∀ m ∈ d.unwrap count off, m.1 + Message.wireSize (d.buf m.1) ≤ d.n := by
  induction count generalizing off with
  | zero => simp [unwrapAndDispatch, unwrap]
  | succ count ih =>
      unfold unwrapAndDispatch unwrap
      split
      next => simp
      next hprefix =>
        have hread : ∀ a, off ≤ a ∧ a < off + 2 → a < d.n := by omega
        simp only [Reader.trace_step, run_be16_at, List.mem_append, or_imp, forall_and,
          mem_trace_be16_iff]
        split
        next => simpa using hread
        next =>
          simp only [Reader.trace_step, Reader.trace_pure, List.append_nil, List.mem_append, or_imp,
            forall_and, List.forall_mem_cons, Message.trace_dispatch_lt_iff, ih]
          exact and_iff_right fun a h => hread a h

variable (d) in
theorem prefix_at_succ (k : Nat) :
    d.prefixAt (k + 1) = d.prefixAt k + 2 + readBe16 (advance d.buf (d.prefixAt k)) := rfl

theorem prefix_at_mono {k j : Nat} (h : k ≤ j) : d.prefixAt k ≤ d.prefixAt j := by
  induction h with
  | refl => exact le_rfl
  | @step j _ ih => exact ih.trans (d.prefix_at_succ j ▸ by omega)

/-- The visited messages are those that the datagram declares and holds. -/
theorem mem_unwrap_iff {k : Nat} {m : Nat × Nat} :
    m ∈ d.unwrap count (d.prefixAt k) ↔ ∃ j, k ≤ j ∧ j < k + count ∧ d.prefixAt (j + 1) ≤ d.n ∧
      m = (d.prefixAt j + 2, readBe16 (advance d.buf (d.prefixAt j))) := by
  induction count generalizing k with
  | zero =>
      simp only [unwrap, List.not_mem_nil, false_iff, not_exists]
      omega
  | succ count ih =>
      have hnext := d.prefix_at_succ k
      by_cases hfits : d.prefixAt (k + 1) ≤ d.n
      · rw [unwrap, if_neg (by omega)]
        simp only [gt_iff_lt, ← hnext, Nat.not_lt.mpr hfits, if_false, List.mem_cons, ih]
        constructor
        · intro hor
          rcases hor with rfl | ⟨j, hkj, hj, hfit, rfl⟩
          · exact ⟨k, le_rfl, by omega, hfits, rfl⟩
          · exact ⟨j, by omega, by omega, hfit, rfl⟩
        · intro h
          obtain ⟨j, hkj, hj, hfit, rfl⟩ := h
          rcases Nat.eq_or_lt_of_le hkj with rfl | hlt
          · exact .inl rfl
          · exact .inr ⟨j, hlt, by omega, hfit, rfl⟩
      · -- the loop stops, and no later message fits either
        have hstop : d.unwrap (count + 1) (d.prefixAt k) = [] := by
          rw [unwrap]
          split
          next => rfl
          next => simp only [gt_iff_lt, ← hnext, Nat.lt_of_not_le hfits, if_true]
        rw [hstop]
        simp only [List.not_mem_nil, false_iff, not_exists, not_and]
        intro j hkj _ hfit
        exact absurd ((prefix_at_mono (Nat.succ_le_succ hkj)).trans hfit) hfits

/-- The messages that the loop visits. -/
theorem mem_messages_iff {m : Nat × Nat} :
    m ∈ d.messages ↔ ∃ k < d.header.count, d.prefixAt (k + 1) ≤ d.n ∧
      m = (d.prefixAt k + 2, readBe16 (advance d.buf (d.prefixAt k))) := by
  refine (mem_unwrap_iff (k := 0)).trans ?_
  simp

end Loop

section Inside

variable {d}

/-- A parser of an order message reads up to its last byte, the others read nothing. -/
theorem parse_own_iff {type : UInt8} {m : Nat × Nat} :
    (∀ a ∈ (Message.parseAt type m.1).trace d.buf, m.1 ≤ a ∧ a < m.1 + m.2) ↔
      (type ∈ kOrderTypes → Message.wireSize type ≤ m.2) := by
  simp only [Message.mem_trace_parse_iff]
  constructor
  · intro h htype
    have hsize := Message.one_lt_wire_size htype
    have hlast := h (m.1 + Message.wireSize type - 1) (by omega)
    omega
  · intro h a ha
    by_cases htype : type ∈ kOrderTypes
    · have := h htype
      omega
    · have := Message.wire_size_other htype
      omega

/-- Visited messages lie in the datagram. -/
theorem messages_le {m : Nat × Nat} (hm : m ∈ d.messages) : m.1 + m.2 ≤ d.n := by
  obtain ⟨k, _, hfit, rfl⟩ := mem_messages_iff.mp hm
  exact hfit

/-- A loop that stays inside the datagram makes the same of every buffer that holds it. -/
theorem stale_of_within (hn : Mold.kHeaderSize ≤ d.n) (hwithin : ∀ a ∈ d.loop.trace d.buf, a < d.n)
    {d' : Datagram} (hlen : d'.n = d.n) (hbuf : ∀ i, i < d.n → d'.buf i = d.buf i) :
    d'.header = d.header ∧ d'.messages = d.messages ∧ d'.payloads = d.payloads ∧
      d'.decoded = d.decoded := by
  have hslice : ∀ addr n, addr + n ≤ d.n → slice d'.buf addr n = slice d.buf addr n :=
    fun _ _ h => slice_congr hbuf h
  have hheader : d'.header = d.header := by
    have h64 := hslice 10 8 (le_trans (by decide) hn)
    have h16 := hslice 18 2 (le_trans (by decide) hn)
    rw [header, header, readBe64, readBe64, readBe16, readBe16, slice_advance, slice_advance,
      slice_advance, slice_advance, h64, h16]
  have hrun : d'.loop.run d'.buf = d.loop.run d.buf := by
    rw [loop, hlen, hheader]
    exact (Reader.run_congr fun a ha => (hbuf a (hwithin a ha)).symm).1.symm
  rw [run_loop, run_loop] at hrun
  have hmessages : d'.messages = d.messages := by
    have h := congrArg (List.map Prod.fst) hrun
    simpa only [List.map_map, Function.comp_def, List.map_id'] using h
  refine ⟨hheader, hmessages, ?_, ?_⟩
  · rw [payloads, payloads, hmessages]
    exact List.map_congr_left fun m hm => hslice _ _ (messages_le hm)
  · have h := congrArg (List.filterMap Prod.snd) hrun
    rw [List.filterMap_map, List.filterMap_map] at h
    exact h

/-- The loop reads inside the datagram, and every parser inside its message, if and only if the
messages are complete. -/
theorem reads_inside_iff (hn : Mold.kHeaderSize ≤ d.n) : d.ReadsInside ↔ d.Complete := by
  constructor
  · intro h k hk hfit
    have hm := mem_messages_iff.mpr ⟨k, hk, hfit, rfl⟩
    have hwithin := trace_unwrap_lt_iff.mp h.within _ hm
    have hpos := Message.wire_size_pos (d.buf (d.prefixAt k + 2))
    refine ⟨?_, parse_own_iff.mp (h.own _ hm)⟩
    simp only at hwithin
    omega
  · intro h
    have hown : ∀ m ∈ d.messages, m.1 < d.n ∧
        (d.buf m.1 ∈ kOrderTypes → Message.wireSize (d.buf m.1) ≤ m.2) := fun m hm => by
      obtain ⟨k, hk, hfit, rfl⟩ := mem_messages_iff.mp hm
      exact h k hk hfit
    have hwithin : ∀ a ∈ d.loop.trace d.buf, a < d.n := trace_unwrap_lt_iff.mpr fun m hm => by
      obtain ⟨hlt, hsize⟩ := hown m hm
      have hle := messages_le hm
      by_cases htype : d.buf m.1 ∈ kOrderTypes
      · have := hsize htype
        omega
      · rw [Message.wire_size_other htype]
        omega
    refine ⟨hwithin, fun m hm => parse_own_iff.mpr (hown m hm).2, fun d' hlen hbuf => ?_⟩
    obtain ⟨hheader, hmessages, hpayloads, hdecoded⟩ := stale_of_within hn hwithin hlen hbuf
    refine ⟨hmessages, hpayloads, hdecoded, fun τ β receive step r => ?_⟩
    rw [handle, handle, hlen, hheader, hmessages, hdecoded]

end Inside

/-- A datagram with one message that declares one byte, the type of an addition, in a buffer whose
other bytes are left from before. -/
def shortAdd (old : UInt8) : Datagram :=
  ⟨fill (List.replicate 17 0 ++ [1, 0, 1, 0, 1, 0x41]) fun _ => old, 23⟩

/-- The parser of the addition reads behind the datagram, and what it finds there decides the
message. -/
theorem reads_outside :
    (Mold.kHeaderSize ≤ (shortAdd 0).n ∧ (shortAdd 0).n ≤ 2048) ∧
      57 ∈ (shortAdd 0).loop.trace (shortAdd 0).buf ∧
      (shortAdd 0).decoded ≠ (shortAdd 1).decoded ∧ ¬ (shortAdd 0).ReadsInside := by
  have hread : 57 ∈ (shortAdd 0).loop.trace (shortAdd 0).buf := by decide
  refine ⟨by decide, hread, by decide, fun h => ?_⟩
  have hlt : 57 < 23 := h.within 57 hread
  omega

/-- One complete deletion. -/
theorem reads_inside_deletion :
    (of (List.replicate 17 0 ++ [1, 0, 1, 0, 19, 0x44] ++ List.replicate 18 0)).ReadsInside :=
  (reads_inside_iff (by decide)).mpr (by decide)

end Datagram

end FeedHandler.Receiver
