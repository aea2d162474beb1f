import FeedHandler.Common.ItchReader
import FeedHandler.Foundations.Runs

/-!
# The replay sender

The batching loop of `src/common/replay_sender.cpp`. The socket is the list of datagrams sent so
far; pacing and the final report are left out. A write outside of the packet buffer is `none`.
Read `ReplaySender.Inv` and `ReplaySender.replay_spec` first.
-/

namespace FeedHandler.Sender

open Itch

/-- `kMaxPacketSize`. -/
def kMaxPacketSize : Nat := 1400

/-- `uint8_t packet[kMaxPacketSize]`. -/
abbrev PacketBuffer := { bytes : List UInt8 // bytes.length = kMaxPacketSize }

/-- `memcpy` of some bytes to an offset of the buffer. -/
def PacketBuffer.write (buf : PacketBuffer) (off : Nat) (bytes : List UInt8) :
    Option PacketBuffer :=
  if h : off + bytes.length ≤ kMaxPacketSize then
    some ⟨buf.val.take off ++ (bytes ++ buf.val.drop (off + bytes.length)), by
      have := buf.property
      simp
      omega⟩
  else none

/-- The ten bytes `SESSION001`. -/
def session : List UInt8 := [0x53, 0x45, 0x53, 0x53, 0x49, 0x4F, 0x4E, 0x30, 0x30, 0x31]

/-- The variables of the batching loop. -/
structure ReplaySender where
  packet : PacketBuffer
  packetUsed : Nat
  packetFirstSeq : Nat
  packetMsgCount : Nat
  nextSeq : Nat
  totalSent : Nat
  sent : List (List UInt8)

namespace ReplaySender

/-- The variables before the first frame. The buffer is not initialised. -/
def initial (stale : PacketBuffer) : ReplaySender where
  packet := stale
  packetUsed := Mold.kHeaderSize
  packetFirstSeq := 1
  packetMsgCount := 0
  nextSeq := 1
  totalSent := 0
  sent := []

/-- The buffer with the header `flush_packet` writes. -/
def writeHeader (s : ReplaySender) : Option PacketBuffer := do
  let packet ← s.packet.write 0 (List.replicate Mold.kSessionSize 0x20)
  let packet ← packet.write 0 session
  let packet ← packet.write 10 (Mold.writeBe64 s.packetFirstSeq)
  packet.write 18 (Mold.writeBe16 s.packetMsgCount)

/-- `flush_packet`. -/
def flushPacket (s : ReplaySender) : Option ReplaySender :=
  if s.packetMsgCount = 0 then some s
  else do
    let packet ← s.writeHeader
    return { s with
      packet := packet
      packetUsed := Mold.kHeaderSize
      packetMsgCount := 0
      totalSent := (s.totalSent + s.packetMsgCount) % 2 ^ 64
      sent := s.sent ++ [packet.val.take s.packetUsed] }

/-- The first message of a packet sets the packet's sequence number. -/
def startBatch (s : ReplaySender) : ReplaySender :=
  if s.packetMsgCount = 0 then { s with packetFirstSeq := s.nextSeq } else s

/-- The copy of a message into the open packet. -/
def put (s : ReplaySender) (f : Frame) : Option ReplaySender := do
  let packet ← s.packet.write s.packetUsed (Mold.writeBe16 f.payload.length)
  let packet ← packet.write (s.packetUsed + 2) f.payload
  return { s with
    packet := packet
    packetUsed := s.packetUsed + (2 + f.payload.length)
    packetMsgCount := (s.packetMsgCount + 1) % 2 ^ 16
    nextSeq := (s.nextSeq + 1) % 2 ^ 64 }

/-- The body of the batching loop. The room is not checked again after the flush. -/
def batch (s : ReplaySender) (f : Frame) : Option ReplaySender := do
  let needed := 2 + f.payload.length
  let s ← if s.packetUsed + needed > kMaxPacketSize then s.flushPacket else some s
  s.startBatch.put f

/-- The program on an open file: the loop over its frames and the last `flush_packet`. -/
def replay (stale : PacketBuffer) (reader : ItchFileReader) : Option ReplaySender := do
  let s ← Runs.run batch (initial stale) (reader.drain (reader.base.length + 1))
  s.flushPacket

end ReplaySender

/-! ## Packets as byte strings -/

/-- The packet that carries consecutive frames from a sequence number on. -/
def packetBytes (seq : Nat) (frames : List Frame) : List UInt8 :=
  session ++ (Mold.writeBe64 seq ++ (Mold.writeBe16 frames.length ++ framesBytes frames))

/-- The packets that carry consecutive groups of frames from a sequence number on. -/
def packetsBytes : Nat → List (List Frame) → List (List UInt8)
  | _, [] => []
  | seq, g :: gs => packetBytes seq g :: packetsBytes (seq + g.length) gs

/-- The groups into which the sender cuts frames, behind the frames of an open packet. -/
def cut : List Frame → List Frame → List (List Frame)
  | [], [] => []
  | cur, [] => [cur]
  | cur, f :: fs =>
      if Mold.kHeaderSize + (framesBytes cur).length + (2 + f.payload.length) > kMaxPacketSize then
        cur :: cut [f] fs
      else cut (cur ++ [f]) fs

theorem cut_cons (cur : List Frame) (f : Frame) (fs : List Frame) : cut cur (f :: fs) =
    if Mold.kHeaderSize + (framesBytes cur).length + (2 + f.payload.length) > kMaxPacketSize then
      cur :: cut [f] fs
    else cut (cur ++ [f]) fs := by
  cases cur <;> rfl

theorem flatten_cut (cur frames : List Frame) : (cut cur frames).flatten = cur ++ frames := by
  induction frames generalizing cur with
  | nil => cases cur <;> simp [cut]
  | cons f frames ih =>
      rw [cut_cons]
      split <;> simp [ih]

/-- Frames that fit join the open packet. -/
theorem cut_append {cur fs : List Frame} (rest : List Frame)
    (h : Mold.kHeaderSize + (framesBytes cur).length + (framesBytes fs).length ≤ kMaxPacketSize) :
    cut cur (fs ++ rest) = cut (cur ++ fs) rest := by
  induction fs generalizing cur with
  | nil => simp
  | cons f fs ih =>
      simp only [frames_bytes_cons, List.length_append, Frame.length_bytes] at h
      rw [List.cons_append, cut_cons, if_neg (by omega), ih (by simp; omega), List.append_assoc]
      rfl

theorem packets_bytes_concat (seq : Nat) (gs : List (List Frame)) (g : List Frame) :
    packetsBytes seq (gs ++ [g]) =
      packetsBytes seq gs ++ [packetBytes (seq + gs.flatten.length) g] := by
  induction gs generalizing seq with
  | nil => simp [packetsBytes]
  | cons g' gs ih => simp [packetsBytes, ih, Nat.add_assoc]

theorem mem_packets_bytes {seq : Nat} {gs : List (List Frame)} {bytes : List UInt8}
    (h : bytes ∈ packetsBytes seq gs) :
    ∃ seq', seq' ≤ seq + gs.flatten.length ∧ ∃ g ∈ gs, bytes = packetBytes seq' g := by
  induction gs generalizing seq with
  | nil => cases h
  | cons g gs ih =>
      rw [List.flatten_cons, List.length_append]
      rcases List.mem_cons.mp h with heq | h
      · exact ⟨seq, by omega, g, List.mem_cons_self, heq⟩
      · obtain ⟨seq', hle, g', hg', heq⟩ := ih h
        exact ⟨seq', by omega, g', .tail _ hg', heq⟩

@[simp] theorem length_session : session.length = 10 := rfl

@[simp] theorem length_packet_bytes (seq : Nat) (g : List Frame) :
    (packetBytes seq g).length = Mold.kHeaderSize + (framesBytes g).length := by
  simp [packetBytes, Mold.kHeaderSize]
  omega

/-- A frame takes at least its two length bytes. -/
theorem two_mul_length_le (fs : List Frame) : 2 * fs.length ≤ (framesBytes fs).length := by
  induction fs with
  | nil => simp
  | cons f fs ih =>
      simp only [frames_bytes_cons, List.length_append, Frame.length_bytes, List.length_cons]
      omega

/-! ## Writes into the buffer -/

/-- A write replaces as many bytes as it brings. -/
theorem PacketBuffer.write_front {buf : PacketBuffer} {front mid back : List UInt8}
    (h : buf.val = front ++ (mid ++ back)) {off : Nat} (bytes : List UInt8)
    (hoff : off = front.length) (hmid : bytes.length = mid.length) :
    ∃ buf', buf.write off bytes = some buf' ∧ buf'.val = front ++ (bytes ++ back) := by
  subst hoff
  have hlen := buf.property
  rw [h] at hlen
  simp only [List.length_append] at hlen
  refine ⟨_, dif_pos (by omega), ?_⟩
  simp only [h, List.take_left]
  rw [hmid, ← List.append_assoc front mid back, List.drop_left' (by simp)]

/-- The header bytes are session, sequence number and count. -/
theorem header_parts {header : List UInt8} (h : header.length = Mold.kHeaderSize) :
    ∃ a b c, header = a ++ (b ++ c) ∧ a.length = 10 ∧ b.length = 8 ∧ c.length = 2 := by
  rw [Mold.kHeaderSize] at h
  exact ⟨header.take 10, (header.drop 10).take 8, (header.drop 10).drop 8,
    by simp only [List.take_append_drop], by simp [h], by simp [h], by simp [h]⟩

/-! ## The loop invariant -/

namespace ReplaySender

/-- What the variables say about the frames batched so far: those of the packets already sent and
those of the open packet. -/
structure Inv (s : ReplaySender) (groups : List (List Frame)) (cur : List Frame) : Prop where
  sent : s.sent = packetsBytes 1 groups
  total : s.totalSent = groups.flatten.length
  used : s.packetUsed = Mold.kHeaderSize + (framesBytes cur).length
  body : ∃ header tail, s.packet.val = header ++ (framesBytes cur ++ tail) ∧
    header.length = Mold.kHeaderSize
  count : s.packetMsgCount = cur.length
  first : cur ≠ [] → s.packetFirstSeq = 1 + groups.flatten.length
  next : s.nextSeq = 1 + groups.flatten.length + cur.length
  full : ∀ g ∈ groups, g ≠ [] ∧ Mold.kHeaderSize + (framesBytes g).length ≤ kMaxPacketSize

variable {s : ReplaySender} {groups : List (List Frame)} {cur : List Frame} {f : Frame}

theorem inv_initial (stale : PacketBuffer) : (initial stale).Inv [] [] where
  sent := rfl
  total := rfl
  used := rfl
  body := ⟨stale.val.take 20, stale.val.drop 20, by simp [initial],
    by simp [stale.property, kMaxPacketSize, Mold.kHeaderSize]⟩
  count := rfl
  first := fun h => absurd rfl h
  next := rfl
  full := fun g hg => by cases hg

/-- The open packet fits in the buffer. -/
theorem Inv.used_le (h : s.Inv groups cur) : s.packetUsed ≤ kMaxPacketSize := by
  obtain ⟨header, tail, hbuf, hheader⟩ := h.body
  rw [h.used, ← s.packet.property, hbuf]
  simp only [List.length_append]
  omega

/-- The count of the open packet is far from wrapping. -/
theorem Inv.count_lt (h : s.Inv groups cur) : cur.length < 700 := by
  have hle := h.used_le
  have htwo := two_mul_length_le cur
  rw [h.used] at hle
  simp only [Mold.kHeaderSize, kMaxPacketSize] at hle
  omega

/-- The header turns the open packet into the packet of its frames. -/
theorem write_header_spec (h : s.Inv groups cur) (hcur : cur ≠ []) :
    ∃ p tail, s.writeHeader = some p ∧
      p.val = packetBytes (1 + groups.flatten.length) cur ++ tail := by
  obtain ⟨header, tail, hbuf, hheader⟩ := h.body
  obtain ⟨a, b, c, rfl, ha, hb, hc⟩ := header_parts hheader
  simp only [List.append_assoc] at hbuf
  obtain ⟨p₁, hp₁, hbuf₁⟩ := PacketBuffer.write_front (List.nil_append _ ▸ hbuf)
    (List.replicate Mold.kSessionSize 0x20) List.length_nil.symm (by simp [ha, Mold.kSessionSize])
  obtain ⟨p₂, hp₂, hbuf₂⟩ := PacketBuffer.write_front hbuf₁ session List.length_nil.symm
    (by simp [Mold.kSessionSize])
  rw [List.nil_append] at hbuf₂
  obtain ⟨p₃, hp₃, hbuf₃⟩ := PacketBuffer.write_front hbuf₂ (Mold.writeBe64 s.packetFirstSeq)
    length_session.symm (by simp [hb])
  rw [← List.append_assoc] at hbuf₃
  obtain ⟨p₄, hp₄, hbuf₄⟩ := PacketBuffer.write_front hbuf₃ (Mold.writeBe16 s.packetMsgCount)
    (show 18 = _ by simp) (by simp [hc])
  refine ⟨p₄, tail, ?_, ?_⟩
  · simp only [writeHeader, hp₁, hp₂, hp₃, hp₄, Option.bind_eq_bind, Option.bind_some]
  · rw [hbuf₄, h.first hcur, h.count]
    simp only [packetBytes, List.append_assoc]

/-- Flushing an open packet sends it. -/
theorem flush_packet_spec (h : s.Inv groups cur) (hcur : cur ≠ [])
    (hseq : groups.flatten.length + cur.length < 2 ^ 64) :
    ∃ s', s.flushPacket = some s' ∧ s'.Inv (groups ++ [cur]) [] := by
  have hpos : 0 < cur.length := List.length_pos_iff.mpr hcur
  have hne : s.packetMsgCount ≠ 0 := by
    rw [h.count]
    exact hpos.ne'
  obtain ⟨p, tail, hp, hbuf⟩ := write_header_spec h hcur
  refine ⟨_, by rw [flushPacket, if_neg hne, hp]; rfl, ?_⟩
  have hsent : p.val.take s.packetUsed = packetBytes (1 + groups.flatten.length) cur := by
    rw [hbuf, List.take_left' (by rw [length_packet_bytes, h.used])]
  refine ⟨?_, ?_, rfl, ?_, rfl, fun hnil => absurd rfl hnil, ?_, ?_⟩
  · simp only [hsent, h.sent, packets_bytes_concat]
  · simp only [h.total, h.count, List.flatten_append, List.length_append, List.flatten_singleton]
    exact Nat.mod_eq_of_lt hseq
  · exact ⟨p.val.take 20, p.val.drop 20, by simp,
      by simp [p.property, kMaxPacketSize, Mold.kHeaderSize]⟩
  · simp [h.next, Nat.add_assoc]
  · intro g hg
    rcases List.mem_append.mp hg with hg | hg
    · exact h.full g hg
    · obtain rfl := List.mem_singleton.mp hg
      exact ⟨hcur, h.used ▸ h.used_le⟩

/-- Starting a batch settles the sequence number of the open packet. -/
theorem Inv.start_batch (h : s.Inv groups cur) :
    s.startBatch.Inv groups cur ∧ s.startBatch.packetFirstSeq = 1 + groups.flatten.length := by
  unfold startBatch
  split
  next hzero =>
    have hcur : cur = [] := List.length_eq_zero_iff.mp (h.count ▸ hzero)
    have hnext := h.next
    rw [hcur, List.length_nil, Nat.add_zero] at hnext
    exact ⟨⟨h.sent, h.total, h.used, h.body, h.count, fun _ => hnext, h.next, h.full⟩, hnext⟩
  next hzero =>
    refine ⟨h, h.first fun hnil => hzero ?_⟩
    rw [h.count, hnil, List.length_nil]

/-- A message is copied behind the frames of the open packet. -/
theorem put_spec (h : s.Inv groups cur) (hfirst : s.packetFirstSeq = 1 + groups.flatten.length)
    (hroom : s.packetUsed + (2 + f.payload.length) ≤ kMaxPacketSize)
    (hseq : 1 + groups.flatten.length + cur.length + 1 < 2 ^ 64) :
    ∃ s', s.put f = some s' ∧ s'.Inv groups (cur ++ [f]) := by
  obtain ⟨header, tail, hbuf, hheader⟩ := h.body
  have htail : 2 + f.payload.length ≤ tail.length := by
    have hlen := s.packet.property
    have hused := h.used
    rw [hbuf] at hlen
    simp only [List.length_append] at hlen
    omega
  rw [← List.append_assoc, ← List.take_append_drop 2 tail] at hbuf
  obtain ⟨p₁, hp₁, hbuf₁⟩ := PacketBuffer.write_front hbuf (Mold.writeBe16 f.payload.length)
    (show s.packetUsed = _ by simp [h.used, hheader]) (by simp; omega)
  rw [← List.append_assoc, ← List.take_append_drop f.payload.length (tail.drop 2)] at hbuf₁
  obtain ⟨p₂, hp₂, hbuf₂⟩ := PacketBuffer.write_front hbuf₁ f.payload
    (show s.packetUsed + 2 = _ by simp [h.used, hheader]; omega) (by simp; omega)
  refine ⟨_, by rw [put, hp₁, Option.bind_eq_bind, Option.bind_some, hp₂]; rfl, ?_⟩
  refine ⟨h.sent, h.total, ?_, ⟨header, (tail.drop 2).drop f.payload.length, ?_, hheader⟩, ?_,
    fun _ => hfirst, ?_, h.full⟩
  · simp [h.used, Nat.add_assoc]
  · simp only [hbuf₂, frames_bytes_append, frames_bytes_cons, frames_bytes_nil, Frame.bytes,
      List.append_assoc, List.append_nil]
  · have hlt := h.count_lt
    simp only [h.count, List.length_append, List.length_singleton]
    omega
  · simp only [h.next, List.length_append, List.length_singleton]
    omega

/-- The body of the loop takes a frame that fits in a packet of its own. -/
theorem batch_spec (h : s.Inv groups cur) (hlen : f.payload.length ≤ 1378)
    (hseq : groups.flatten.length + cur.length + 2 < 2 ^ 64) :
    ∃ s' groups' cur', s.batch f = some s' ∧ s'.Inv groups' cur' ∧
      ∀ frames, groups' ++ cut cur' frames = groups ++ cut cur (f :: frames) := by
  have hused := h.used
  by_cases hroom : s.packetUsed + (2 + f.payload.length) > kMaxPacketSize
  · have hcur : cur ≠ [] := by
      intro hnil
      simp only [hnil, frames_bytes_nil, List.length_nil, Mold.kHeaderSize] at hused
      simp only [kMaxPacketSize] at hroom
      omega
    obtain ⟨t, ht, hinv⟩ := flush_packet_spec h hcur (by omega)
    obtain ⟨hstart, hfirst⟩ := hinv.start_batch
    obtain ⟨s', hs', hinv'⟩ := put_spec hstart hfirst (f := f)
      (by simp only [hstart.used, frames_bytes_nil, List.length_nil, Mold.kHeaderSize,
        kMaxPacketSize]; omega)
      (by simp only [List.flatten_append, List.length_append, List.flatten_singleton,
        List.length_nil]; omega)
    refine ⟨s', _, _, ?_, hinv', fun frames => ?_⟩
    · simp only [batch, if_pos hroom, ht, Option.bind_eq_bind, Option.bind_some, hs']
    · rw [cut_cons, if_pos (hused ▸ hroom), List.append_assoc]
      rfl
  · obtain ⟨hstart, hfirst⟩ := h.start_batch
    obtain ⟨s', hs', hinv'⟩ := put_spec hstart hfirst (f := f)
      (by rw [hstart.used, ← h.used]; omega) (by omega)
    refine ⟨s', _, _, ?_, hinv', fun frames => ?_⟩
    · simp only [batch, if_neg hroom, Option.bind_eq_bind, Option.bind_some, hs']
    · rw [cut_cons, if_neg (hused ▸ hroom)]

/-- The loop over a list of frames. -/
theorem run_batch_spec (h : s.Inv groups cur) (frames : List Frame)
    (hlen : ∀ f ∈ frames, f.payload.length ≤ 1378)
    (hseq : groups.flatten.length + cur.length + frames.length + 1 < 2 ^ 64) :
    ∃ s' groups' cur', Runs.run batch s frames = some s' ∧ s'.Inv groups' cur' ∧
      groups' ++ cut cur' [] = groups ++ cut cur frames := by
  induction frames generalizing s groups cur with
  | nil => exact ⟨s, groups, cur, rfl, h, rfl⟩
  | cons f frames ih =>
      obtain ⟨t, groups', cur', ht, hinv, hcat⟩ := batch_spec h (hlen f List.mem_cons_self)
        (by simp only [List.length_cons] at hseq; omega)
      have hlength := congrArg (fun groups => groups.flatten.length) (hcat [])
      simp only [List.flatten_append, flatten_cut, List.length_append, List.length_cons,
        List.length_nil] at hlength hseq
      obtain ⟨s', groups'', cur'', hs', hinv', hcat'⟩ := ih hinv
        (fun g hg => hlen g (.tail _ hg)) (by omega)
      refine ⟨s', groups'', cur'', ?_, hinv', by rw [hcat', hcat]⟩
      rw [Runs.run_cons, ht, Option.bind_some, hs']

/-- The program sends the frames of its file in full groups, one packet a group. -/
theorem replay_spec (stale : PacketBuffer) (reader : ItchFileReader) {frames : List Frame}
    (hdrain : reader.drain (reader.base.length + 1) = frames)
    (hlen : ∀ f ∈ frames, f.payload.length ≤ 1378) (hcount : frames.length + 1 < 2 ^ 64) :
    ∃ s, replay stale reader = some s ∧ s.sent = packetsBytes 1 (cut [] frames) ∧
      s.totalSent = frames.length ∧ ∀ g ∈ cut [] frames,
        g ≠ [] ∧ Mold.kHeaderSize + (framesBytes g).length ≤ kMaxPacketSize := by
  obtain ⟨s, groups, cur, hs, hinv, hcat⟩ := run_batch_spec (inv_initial stale) frames hlen
    (by simpa using hcount)
  rw [List.nil_append] at hcat
  have hflat := congrArg List.flatten hcat
  rw [List.flatten_append, flatten_cut, flatten_cut, List.append_nil, List.nil_append] at hflat
  have hlength := congrArg List.length hflat
  rw [List.length_append] at hlength
  rcases cur.eq_nil_or_concat with rfl | hconcat
  · have hcat : groups = cut [] frames := by rw [← hcat, cut, List.append_nil]
    rw [List.append_nil] at hflat
    refine ⟨s, ?_, hcat ▸ hinv.sent, by rw [hinv.total, hflat], hcat ▸ hinv.full⟩
    rw [replay, hdrain, hs, Option.bind_eq_bind, Option.bind_some, flushPacket,
      if_pos (show s.packetMsgCount = 0 from hinv.count)]
  · have hcur : cur ≠ [] := by
      obtain ⟨l, f, rfl⟩ := hconcat
      simp
    obtain ⟨t, ht, hinv'⟩ := flush_packet_spec hinv hcur (by omega)
    have hcat : groups ++ [cur] = cut [] frames := by
      rw [← hcat]
      cases cur with
      | nil => exact absurd rfl hcur
      | cons f cur => rfl
    have hflat : (groups ++ [cur]).flatten = frames := by
      rw [List.flatten_append, List.flatten_singleton, hflat]
    refine ⟨t, ?_, hcat ▸ hinv'.sent, by rw [hinv'.total, hflat], hcat ▸ hinv'.full⟩
    rw [replay, hdrain, hs, Option.bind_eq_bind, Option.bind_some, ht]

end ReplaySender

end FeedHandler.Sender
