import FeedHandler.Receiver.ExactlyOnce
import FeedHandler.Receiver.Unwrap
import FeedHandler.Sender.ReplaySender

/-!
# From a file to packets to messages

What the replay sender frames the receivers unframe: `framing_round_trip`. The hosts are
little-endian, nothing is lost or reordered on the way, and the file is already mapped.
-/

namespace FeedHandler.Receiver

open Bytes Itch Sender

namespace Datagram

variable {d : Datagram}

/-- A datagram shows the parts of the bytes it carries. -/
theorem Holds.slice_eq {front mid back : List UInt8} (h : d.Holds (front ++ (mid ++ back))) :
    slice d.buf front.length mid.length = mid := by
  have hslice := h.2
  simp only [List.length_append] at hslice
  rw [slice_add, slice_add] at hslice
  obtain ⟨_, hrest⟩ := List.append_inj hslice (by simp)
  rw [Nat.zero_add] at hrest
  exact (List.append_inj hrest (by simp)).1

/-- The unwrap loop at an offset behind which frames stand visits them one by one. -/
theorem unwrap_frames (front : List UInt8) {frames : List Frame}
    (h : d.Holds (front ++ framesBytes frames)) :
    (d.unwrap frames.length front.length).map (fun m => slice d.buf m.1 m.2) =
      frames.map Frame.payload := by
  induction frames generalizing front with
  | nil => rfl
  | cons f frames ih =>
      have hn := h.1
      simp only [frames_bytes_cons, Frame.bytes, List.append_assoc] at h hn
      have hlen : readBe16 (advance d.buf front.length) = f.payload.length := by
        have hprefix := h.slice_eq
        rw [Mold.length_write_be16] at hprefix
        exact read_be16_write f.length_lt hprefix
      have hpayload : slice d.buf (front.length + 2) f.payload.length = f.payload := by
        rw [← List.append_assoc] at h
        simpa using h.slice_eq
      have hrest := ih (front ++ Mold.writeBe16 f.payload.length ++ f.payload)
        (by simpa [List.append_assoc] using h)
      simp only [List.length_append, Mold.length_write_be16] at hn hrest
      rw [List.length_cons, unwrap, if_neg (by omega)]
      simp only [hlen]
      rw [if_neg (by omega), List.map_cons, hpayload, hrest, List.map_cons]

/-- The header of a datagram that carries a packet. -/
theorem header_eq {seq : Nat} {frames : List Frame} (h : d.Holds (packetBytes seq frames))
    (hseq : seq < 2 ^ 64) (hcount : frames.length < 2 ^ 16) :
    d.header = ⟨seq, frames.length⟩ := by
  have hcount' := h
  rw [packetBytes, ← List.append_assoc] at hcount'
  have hfirst : slice d.buf 10 8 = Mold.writeBe64 seq := by simpa using h.slice_eq
  have hsecond : slice d.buf 18 2 = Mold.writeBe16 frames.length := by
    simpa using hcount'.slice_eq
  rw [header, read_be64_write hseq hfirst, read_be16_write hcount hsecond]

/-- A datagram that carries a packet is unwrapped into the frames of the packet. -/
theorem payloads_eq {seq : Nat} {frames : List Frame} (h : d.Holds (packetBytes seq frames))
    (hseq : seq < 2 ^ 64) (hcount : frames.length < 2 ^ 16) :
    d.payloads = frames.map Frame.payload := by
  have hframes : d.Holds
      ((session ++ (Mold.writeBe64 seq ++ Mold.writeBe16 frames.length)) ++
        framesBytes frames) := by
    simpa [packetBytes, List.append_assoc] using h
  have hunwrap := unwrap_frames _ hframes
  simp only [List.length_append, length_session, Mold.length_write_be64,
    Mold.length_write_be16] at hunwrap
  rw [payloads, messages, header_eq h hseq hcount, Mold.kHeaderSize, hunwrap]

/-- A datagram that carries the given bytes in an otherwise empty buffer. -/
def of (bytes : List UInt8) : Datagram := ⟨fill bytes fun _ => 0, bytes.length⟩

theorem holds_of (bytes : List UInt8) : (of bytes).Holds bytes :=
  ⟨rfl, by rw [of, slice_fill _ _ (by simp), List.drop_zero, List.take_length]⟩

/-- Any byte strings can be received. -/
theorem holds_map_of (packets : List (List UInt8)) :
    List.Forall₂ Holds (packets.map of) packets := by
  induction packets with
  | nil => exact .nil
  | cons bytes packets ih => exact .cons (holds_of bytes) ih

end Datagram

/-! ## Delivery in order -/

/-- Groups of frames, none empty and each short enough for one packet. -/
def Packable (groups : List (List Frame)) : Prop := ∀ g ∈ groups, g ≠ [] ∧ g.length < 2 ^ 16

/-- The headers of the sender's packets partition the sequence numbers, and unwrapping the packets
gives back the frames. -/
theorem unwrap_packets {ds : List Datagram} {seq : Nat} {groups : List (List Frame)}
    (hds : List.Forall₂ Datagram.Holds ds (packetsBytes seq groups)) (hpack : Packable groups)
    (hseq : seq + groups.flatten.length < 2 ^ 64) :
    Partition (ds.map Datagram.header) seq (seq + groups.flatten.length) ∧
      (∀ d ∈ ds, d.messages.length = d.header.count) ∧
      (ds.map Datagram.payloads).flatten = groups.flatten.map Frame.payload := by
  induction groups generalizing ds seq with
  | nil =>
      cases hds
      simp [Partition]
  | cons g groups ih =>
      cases hds with
      | @cons d _ ds _ hd hds =>
          obtain ⟨hne, hshort⟩ := hpack g List.mem_cons_self
          have hpos := List.length_pos_iff.mpr hne
          simp only [List.flatten_cons, List.length_append] at hseq ⊢
          have hheader := Datagram.header_eq hd (by omega) hshort
          have hpayloads := Datagram.payloads_eq hd (by omega) hshort
          obtain ⟨hpart, hcounts, hcat⟩ := ih hds (fun g' hg' => hpack g' (.tail _ hg')) (by omega)
          refine ⟨?_, ?_, ?_⟩
          · rw [List.map_cons, hheader]
            exact ⟨rfl, hpos, by rwa [← Nat.add_assoc]⟩
          · intro d' hd'
            rcases List.mem_cons.mp hd' with rfl | hd'
            · have hlen := congrArg List.length hpayloads
              rw [hheader]
              simpa [Datagram.payloads] using hlen
            · exact hcounts d' hd'
          · rw [List.map_cons, List.flatten_cons, hpayloads, hcat, List.map_append]

/-- The counts of a partition add up to its range. -/
theorem Partition.messages {ps : List Packet} {lo hi : Nat} (h : Partition ps lo hi) :
    lo + Tracker.messages ps = hi := by
  induction ps generalizing lo with
  | nil => exact h
  | cons p ps ih =>
      obtain ⟨rfl, _, hrest⟩ := h
      rw [Tracker.messages_cons, ← Nat.add_assoc, ih hrest]

/-- What a tracking block does with the packets of a partition in order: it accepts them all and
counts neither gaps nor duplicates. -/
structure Follows {τ : Type} (receive : τ → Packet → τ × Bool) (next gaps dups : τ → Nat) :
    Prop where
  step : ∀ t p, next t = 0 ∨ next t = p.seq → p.seq + p.count < 2 ^ 64 →
    ∃ t', receive t p = (t', true) ∧ next t' = p.seq + p.count ∧ gaps t' = gaps t ∧
      dups t' = dups t

theorem follows_v1 :
    Follows V1Tracker.receive V1Tracker.expectedSeq V1Tracker.gaps V1Tracker.dups where
  step _ _ hnext hp := ⟨_, V1Tracker.receive_in_order hnext hp, rfl, rfl, rfl⟩

theorem follows_v2 : Follows Tracker.receive Tracker.highSeq Tracker.gaps Tracker.dups where
  step _ _ hnext hp := ⟨_, Tracker.receive_in_order hnext hp, rfl, rfl, rfl⟩

section InOrder

variable {τ : Type} {receive : τ → Packet → τ × Bool} {next gaps dups : τ → Nat}

/-- A receiver that gets the packets of a partition in order, each with as many messages as its
header says, dispatches every message. -/
theorem Follows.on_datagrams (h : Follows receive next gaps dups) {c : Counters τ}
    {ds : List Datagram} {lo hi : Nat} (hpart : Partition (ds.map Datagram.header) lo hi)
    (hcounts : ∀ d ∈ ds, d.messages.length = d.header.count)
    (hnext : next c.tracker = 0 ∨ next c.tracker = lo) (hhi : hi < 2 ^ 64) :
    ∃ c', onDatagrams receive c ds = (c', (ds.map Datagram.payloads).flatten) ∧
      gaps c'.tracker = gaps c.tracker ∧ dups c'.tracker = dups c.tracker ∧
      lo + c'.messages = hi + c.messages ∧ c'.packets = c.packets + ds.length := by
  induction ds generalizing c lo with
  | nil => exact ⟨c, rfl, rfl, rfl, congrArg (· + c.messages) hpart, rfl⟩
  | cons d ds ih =>
      obtain ⟨rfl, hpos, hrest⟩ := hpart
      have hend := hrest.bounds.1
      obtain ⟨t, ht, htnext, htgaps, htdups⟩ := h.step c.tracker d.header hnext (by omega)
      have hmsgs := hcounts d List.mem_cons_self
      have hlong : ¬ d.n < Mold.kHeaderSize := by
        intro hshort
        have hnone : d.messages = [] := by
          cases hcount : d.header.count with
          | zero => rw [Datagram.messages, hcount, Datagram.unwrap]
          | succ k => rw [Datagram.messages, hcount, Datagram.unwrap, if_pos (by omega)]
        rw [hnone, List.length_nil] at hmsgs
        omega
      obtain ⟨c', hc', hgaps, hdups, hcount, hpackets⟩ := ih
        (c := ⟨t, c.packets + 1, c.messages + d.messages.length⟩) hrest
        (fun d' hd' => hcounts d' (.tail _ hd')) (.inr htnext)
      refine ⟨c', ?_, hgaps.trans htgaps, hdups.trans htdups, ?_, ?_⟩
      · simp only [onDatagrams, onDatagram, if_neg hlong, ht, hc', List.map_cons,
          List.flatten_cons]
      · simp only at hcount
        omega
      · rw [hpackets, List.length_cons]
        simp only
        omega

end InOrder

/-- What the sender sends of a file. -/
theorem replay_file {file : List UInt8} (hsize : file.length < 2 ^ 63) {frames : List Frame}
    (hframes : IsFrames file frames) (hlen : ∀ f ∈ frames, f.payload.length ≤ 1378)
    (stale : PacketBuffer) :
    ∃ s, ReplaySender.replay stale ⟨file, 0, hsize⟩ = some s ∧
      s.sent = packetsBytes 1 (cut [] frames) ∧ Packable (cut [] frames) ∧
      (∀ g ∈ cut [] frames, Mold.kHeaderSize + (framesBytes g).length ≤ kMaxPacketSize) ∧
      2 * frames.length ≤ file.length := by
  have hdrain := (drain_spec file hsize).unique hframes
  have hcount : 2 * frames.length ≤ file.length := by
    obtain ⟨rest, hfile, _⟩ := hframes
    have htwo := two_mul_length_le frames
    rw [hfile, List.length_append]
    omega
  obtain ⟨s, hs, hsent, _, hfull⟩ := ReplaySender.replay_spec stale ⟨file, 0, hsize⟩ hdrain hlen
    (by omega)
  refine ⟨s, hs, hsent, fun g hg => ⟨(hfull g hg).1, ?_⟩, fun g hg => (hfull g hg).2, hcount⟩
  have hle := (hfull g hg).2
  have htwo := two_mul_length_le g
  simp only [Mold.kHeaderSize, kMaxPacketSize] at hle
  omega

/-- From the bytes of a file to the messages at the receivers: the reader yields the complete
frames of the file, the sender packs them into full datagrams that number them from 1 on, and a
receiver that gets these datagrams in order dispatches exactly these frames and reports no gap and
no duplicate. An empty file, which the constructor of the reader refuses, has no frames. -/
theorem framing_round_trip (file : List UInt8) (hsize : file.length < 2 ^ 63)
    (hlen : ∀ fs, IsFrames file fs → ∀ f ∈ fs, f.payload.length ≤ 1378) (stale : PacketBuffer) :
    ∃ frames s, (∀ fs, IsFrames file fs ↔ fs = frames) ∧
      (ItchFileReader.mk file 0 hsize).drain (file.length + 1) = frames ∧
      ReplaySender.replay stale ⟨file, 0, hsize⟩ = some s ∧
      (∀ bytes ∈ s.sent, bytes.length ≤ kMaxPacketSize) ∧
      ∀ ds, List.Forall₂ Datagram.Holds ds s.sent →
        Partition (ds.map Datagram.header) 1 (1 + frames.length) ∧
        Tracker.messages (ds.map Datagram.header) = frames.length ∧
        (∀ d ∈ ds, d.messages.length = d.header.count) ∧
        (ds.map Datagram.payloads).flatten = frames.map Frame.payload ∧
        (∃ c, onDatagrams V1Tracker.receive ⟨V1Tracker.initial, 0, 0⟩ ds =
            (c, frames.map Frame.payload) ∧
          c.tracker.gaps = 0 ∧ c.tracker.dups = 0 ∧ c.messages = frames.length) ∧
        (∃ c, onDatagrams Tracker.receive ⟨Tracker.initial, 0, 0⟩ ds =
            (c, frames.map Frame.payload) ∧
          c.tracker.gaps = 0 ∧ c.tracker.dups = 0 ∧ c.messages = frames.length) := by
  obtain ⟨frames, hdrain⟩ : ∃ frames,
      (ItchFileReader.mk file 0 hsize).drain (file.length + 1) = frames := ⟨_, rfl⟩
  have hframes : IsFrames file frames := hdrain ▸ drain_spec file hsize
  obtain ⟨s, hs, hsent, hpack, hfull, hcount⟩ :=
    replay_file hsize hframes (hlen frames hframes) stale
  refine ⟨frames, s, fun fs => ⟨fun h => h.unique hframes, fun h => h ▸ hframes⟩, hdrain, hs,
    ?_, ?_⟩
  · intro bytes hbytes
    obtain ⟨seq, _, g, hg, rfl⟩ := mem_packets_bytes (hsent ▸ hbytes)
    rw [length_packet_bytes]
    exact hfull g hg
  · intro ds hds
    obtain ⟨hpart, hcounts, hcat⟩ := unwrap_packets (hsent ▸ hds) hpack
      (by rw [flatten_cut, List.nil_append]; omega)
    rw [flatten_cut, List.nil_append] at hpart hcat
    have hmsgs := hpart.messages
    -- Both trackers follow datagrams that are numbered without a gap.
    obtain ⟨c, hc, hgaps, hdups, hall, _⟩ := follows_v1.on_datagrams
      (c := ⟨V1Tracker.initial, 0, 0⟩) hpart hcounts (.inl rfl) (by omega)
    obtain ⟨c', hc', hgaps', hdups', hall', _⟩ := follows_v2.on_datagrams
      (c := ⟨Tracker.initial, 0, 0⟩) hpart hcounts (.inl rfl) (by omega)
    refine ⟨hpart, by omega, hcounts, hcat, ⟨c, hcat ▸ hc, hgaps, hdups, ?_⟩,
      ⟨c', hcat ▸ hc', hgaps', hdups', ?_⟩⟩
    · simp only at hall
      omega
    · simp only at hall'
      omega

/-- A one-byte frame, an empty frame and the beginning of a third. -/
theorem framing_round_trip_truncated :
    ∃ s, ReplaySender.replay ⟨List.replicate kMaxPacketSize 0, List.length_replicate⟩
        ⟨[0, 1, 68, 0, 0, 0, 9, 65], 0, by decide⟩ = some s ∧
      ∃ ds, List.Forall₂ Datagram.Holds ds s.sent ∧
        (ds.map Datagram.payloads).flatten = [[68], []] := by
  have hpayloads : ((ItchFileReader.mk [0, 1, 68, 0, 0, 0, 9, 65] 0 (by decide)).drain 9).map
      Frame.payload = [[68], []] := by decide
  obtain ⟨frames, s, _, hdrain, hs, _, hrecv⟩ := framing_round_trip [0, 1, 68, 0, 0, 0, 9, 65]
    (by decide)
    (fun fs hfs f hf => by
      have hmem := List.mem_map_of_mem (f := Frame.payload) hf
      rw [hfs.unique (drain_spec _ (by decide))] at hmem
      have hshort := List.mem_cons.mp (hpayloads ▸ hmem)
      rcases hshort with heq | hmem
      · simp [heq]
      · simp [List.mem_singleton.mp hmem])
    ⟨List.replicate kMaxPacketSize 0, List.length_replicate⟩
  have hds := Datagram.holds_map_of s.sent
  refine ⟨s, hs, _, hds, ?_⟩
  rw [(hrecv _ hds).2.2.2.1, ← hdrain]
  exact hpayloads

end FeedHandler.Receiver
