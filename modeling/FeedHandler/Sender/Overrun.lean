import FeedHandler.Sender.ReplaySender

/-!
# Overruns of the packet buffer

The batching loop flushes when a message does not fit behind the open packet, and copies it without
looking at the room again. `never_overrun_iff` says for which files this stays inside the buffer:
those whose messages all fit in an empty packet.
-/

namespace FeedHandler.Sender

open Itch Runs

namespace ReplaySender

/-- The first half of the loop body: the flush that makes room for a message. -/
def makeRoom (s : ReplaySender) (f : Frame) : Option ReplaySender :=
  if s.packetUsed + (2 + f.payload.length) > kMaxPacketSize then s.flushPacket else some s

/-- The loop body makes room, and then copies whatever the room. -/
theorem batch_eq (s : ReplaySender) (f : Frame) :
    s.batch f = (s.makeRoom f).bind fun s => s.startBatch.put f := by
  unfold batch makeRoom
  simp only [Option.bind_eq_bind]
  split <;> rfl

/-- The variables when the loop over some frames copies a message. -/
def AtCopy (stale : PacketBuffer) (frames : List Frame) (s : ReplaySender) (f : Frame) : Prop :=
  ∃ before after t u, frames = before ++ f :: after ∧ run batch (initial stale) before = some t ∧
    t.makeRoom f = some u ∧ s = u.startBatch

/-- Every copied message ends inside the buffer, and the message count never wraps. -/
def NeverOverrun (stale : PacketBuffer) (frames : List Frame) : Prop :=
  ∀ s f, AtCopy stale frames s f →
    s.packetUsed + 2 + f.payload.length ≤ kMaxPacketSize ∧ s.packetMsgCount + 1 < 2 ^ 16

variable {s : ReplaySender} {groups : List (List Frame)} {cur : List Frame} {f : Frame}

/-- Making room keeps the invariant, and leaves an empty packet to a message without room. -/
theorem make_room_spec (h : s.Inv groups cur) (hseq : groups.flatten.length + cur.length < 2 ^ 64) :
    ∃ t groups' cur', s.makeRoom f = some t ∧ t.Inv groups' cur' ∧
      (cur' = [] ∨ t.packetUsed + (2 + f.payload.length) ≤ kMaxPacketSize) := by
  unfold makeRoom
  split
  next hfull =>
    by_cases hcur : cur = []
    · -- the flush does nothing on an empty packet
      subst hcur
      refine ⟨s, groups, [], ?_, h, .inl rfl⟩
      rw [flushPacket, if_pos (show s.packetMsgCount = 0 from h.count)]
    · obtain ⟨t, ht, hinv⟩ := flush_packet_spec h hcur hseq
      exact ⟨t, _, [], ht, hinv, .inl rfl⟩
  next hroom => exact ⟨s, groups, cur, rfl, h, .inr (by omega)⟩

/-- The variables at a copy behind messages that all fit. -/
theorem at_copy_spec (stale : PacketBuffer) (f : Frame) {before : List Frame}
    (hbefore : ∀ g ∈ before, g.payload.length ≤ 1378) (hcount : before.length + 1 < 2 ^ 64) :
    ∃ t u groups cur, run batch (initial stale) before = some t ∧ t.makeRoom f = some u ∧
      u.startBatch.Inv groups cur ∧
      (cur = [] ∨ u.startBatch.packetUsed + (2 + f.payload.length) ≤ kMaxPacketSize) := by
  obtain ⟨t, groups, cur, ht, hinv, hcat⟩ := run_batch_spec (inv_initial stale) before hbefore
    (by simpa using hcount)
  have hlength := congrArg (fun groups => groups.flatten.length) hcat
  simp only [List.flatten_append, flatten_cut, List.length_append, List.length_nil,
    List.flatten_nil] at hlength
  obtain ⟨u, groups', cur', hu, hinv', hroom⟩ := make_room_spec (f := f) hinv (by omega)
  have hused : u.startBatch.packetUsed = u.packetUsed := by
    unfold startBatch
    split <;> rfl
  exact ⟨t, u, groups', cur', ht, hu, hinv'.start_batch.1, hused ▸ hroom⟩

/-- A list without a long message, or the first long message of it. -/
theorem exists_first_long (frames : List Frame) : (∀ f ∈ frames, f.payload.length ≤ 1378) ∨
    ∃ before f after, frames = before ++ f :: after ∧
      (∀ g ∈ before, g.payload.length ≤ 1378) ∧ 1378 < f.payload.length := by
  induction frames with
  | nil => exact .inl (by simp)
  | cons f frames ih =>
      by_cases hf : f.payload.length ≤ 1378
      · rcases ih with hall | ⟨before, g, after, rfl, hbefore, hg⟩
        · exact .inl (List.forall_mem_cons.mpr ⟨hf, hall⟩)
        · exact .inr ⟨f :: before, g, after, rfl, List.forall_mem_cons.mpr ⟨hf, hbefore⟩, hg⟩
      · exact .inr ⟨[], f, frames, rfl, by simp, by omega⟩

/-- The loop over a list of frames stays inside the buffer if and only if they all fit in an empty
packet. -/
theorem never_overrun_frames_iff {stale : PacketBuffer} {frames : List Frame}
    (hcount : frames.length < 2 ^ 64) :
    NeverOverrun stale frames ↔ ∀ f ∈ frames, f.payload.length ≤ 1378 := by
  constructor
  · intro h
    rcases exists_first_long frames with hall | ⟨before, f, after, heq, hbefore, hlong⟩
    · exact hall
    · have hlen := congrArg List.length heq
      rw [List.length_append, List.length_cons] at hlen
      obtain ⟨t, u, groups, cur, ht, hu, hinv, _⟩ :=
        at_copy_spec stale f hbefore (by omega)
      have hroom := (h _ _ ⟨before, after, t, u, heq, ht, hu, rfl⟩).1
      -- even an empty packet holds the header
      have hused := hinv.used
      simp only [Mold.kHeaderSize] at hused
      simp only [kMaxPacketSize] at hroom
      omega
  · intro h s f hgiven
    obtain ⟨before, after, t, u, rfl, ht, hu, rfl⟩ := hgiven
    have hlen : (before ++ f :: after).length = before.length + (after.length + 1) := by simp
    obtain ⟨t', u', groups, cur, ht', hu', hinv, hroom⟩ :=
      at_copy_spec stale f (fun g hg => h g (List.mem_append_left _ hg))
        (by omega : before.length + 1 < 2 ^ 64)
    cases ht.symm.trans ht'
    cases hu.symm.trans hu'
    have hcur := hinv.count_lt
    refine ⟨?_, by rw [hinv.count]; omega⟩
    rcases hroom with rfl | hroom
    · have hf := h f (by simp)
      have hused := hinv.used
      simp only [frames_bytes_nil, List.length_nil, Mold.kHeaderSize] at hused
      simp only [kMaxPacketSize]
      omega
    · omega

/-- A file has fewer frames than a number of 64 bits counts. -/
theorem length_drain_le (fuel : Nat) (reader : ItchFileReader) :
    (reader.drain fuel).length ≤ fuel := by
  induction fuel generalizing reader with
  | zero => exact le_rfl
  | succ fuel ih =>
      rw [ItchFileReader.drain]
      split
      next => exact Nat.zero_le _
      next f r _ => exact Nat.succ_le_succ (ih r)

/-- The packet buffer is never overrun if and only if every message of the file fits in an empty
packet. -/
theorem never_overrun_iff (stale : PacketBuffer) (reader : ItchFileReader) :
    NeverOverrun stale (reader.drain (reader.base.length + 1)) ↔
      ∀ f ∈ reader.drain (reader.base.length + 1), f.payload.length ≤ 1378 := by
  have hlen := length_drain_le (reader.base.length + 1) reader
  have hsize := reader.size_lt
  exact never_overrun_frames_iff (by omega)

/-- A message of 1379 bytes. -/
def longFrame : Frame := ⟨List.replicate 1379 0, by rw [List.length_replicate]; decide⟩

theorem length_long_frame : longFrame.payload.length = 1379 := List.length_replicate

/-- A file with this message only. -/
def longFile : ItchFileReader where
  base := longFrame.bytes
  offset := 0
  size_lt := by rw [Frame.length_bytes, length_long_frame]; decide

/-- The message does not fit in an empty packet, and is copied all the same. -/
theorem long_file_overruns :
    ¬ NeverOverrun ⟨List.replicate kMaxPacketSize 0, List.length_replicate⟩
      (longFile.drain (longFile.base.length + 1)) := by
  have hframes : longFile.drain (longFile.base.length + 1) = [longFrame] := by
    refine (drain_spec longFile.base longFile.size_lt).unique ⟨[], ?_, .inl (by simp)⟩
    simp [longFile]
  rw [hframes, never_overrun_frames_iff (by simp), List.forall_mem_singleton, length_long_frame]
  decide

end ReplaySender

end FeedHandler.Sender
