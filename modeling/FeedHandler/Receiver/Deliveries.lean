import FeedHandler.Receiver.Dispatch

/-!
# Deliveries of a file in two orders

The packets of a file in sequence order and in another order. `Reordered.read` says what the v2 and
v3 receivers make of both: they accept every packet and apply the same messages in two orders.
`exists_swapped` gives files whose last two packets change places.
-/

namespace FeedHandler.Receiver

open Itch Runs Sender

/-- The packets of a file reach a receiver in sequence order, and in another order that begins with
the first packet and has no long jump. An empty file, which the reader refuses, has no packets. -/
structure Reordered (file : List UInt8) (frames : List Frame) (ds ds' : List Datagram) : Prop where
  frames_eq : IsFrames file frames
  complete : ∀ f ∈ frames, f.payload.length ≤ 1378 ∧ f.Complete
  delivered : ∃ size stale s packets, ReplaySender.replay stale ⟨file, 0, size⟩ = some s ∧
    packets.Perm s.sent ∧ packets.head? = s.sent.head? ∧
    List.Forall₂ Datagram.Holds ds s.sent ∧ List.Forall₂ Datagram.Holds ds' packets
  short : Tracker.NoLongJump (ds'.map Datagram.header)

section Deliveries

variable {file : List UInt8} {frames : List Frame} {ds ds' : List Datagram}

/-- Both deliveries are accepted as a whole; the messages of the second are those of the first. -/
theorem Reordered.read (h : Reordered file frames ds ds') :
    (∀ ds₀ ∈ [ds, ds'], (∀ d ∈ ds₀, Mold.kHeaderSize ≤ d.n) ∧
      Tracker.initial.accepted (ds₀.map Datagram.header) = ds₀.map Datagram.header) ∧
    ds.flatMap Datagram.decoded = frames.filterMap Frame.message ∧
    (frames.filterMap Frame.message).Perm (ds'.flatMap Datagram.decoded) := by
  obtain ⟨size, stale, s, packets, hs, hperm, hfirst, hds, hds'⟩ := h.delivered
  obtain ⟨s', hs', hsent, hpack, _, hcount⟩ :=
    replay_file size h.frames_eq (fun f hf => (h.complete f hf).1) stale
  obtain rfl := Option.some.inj (hs'.symm.trans hs)
  have hflat : (cut [] frames).flatten = frames := by rw [flatten_cut, List.nil_append]
  have hseq : 1 + (cut [] frames).flatten.length < 2 ^ 64 := by
    rw [hflat]
    omega
  have hcomplete : ∀ f ∈ (cut [] frames).flatten, f.Complete := fun f hf =>
    (h.complete f (hflat ▸ hf)).2
  have hpackets : ∀ bytes ∈ s'.sent, Datagram.IsPacket bytes := by
    intro bytes hbytes
    obtain ⟨seq, hle, g, hg, rfl⟩ := mem_packets_bytes (hsent ▸ hbytes)
    exact ⟨seq, g, by omega, (hpack g hg).2,
      fun f hf => hcomplete f (List.mem_flatten_of_mem hg hf), rfl⟩
  obtain ⟨hpart, _, _⟩ := unwrap_packets (hsent ▸ hds) hpack hseq
  have hdecoded := Datagram.decoded_packets (hsent ▸ hds) hpack hseq hcomplete
  rw [hflat] at hdecoded
  obtain ⟨hlong, hheader, hall⟩ := Datagram.read_packets hds hpackets
  obtain ⟨hlong', hheader', hall'⟩ :=
    Datagram.read_packets hds' fun bytes hbytes => hpackets bytes (hperm.mem_iff.mp hbytes)
  have haccept := accepted_in_order (t := .initial) hpart hseq (.inl rfl)
  have haccept' := accepted_perm hpart (Nat.le_refl 1) hseq
    (by rw [hheader, hheader']; exact hperm.map _)
    (by rw [hheader, hheader', List.head?_map, List.head?_map, hfirst]) h.short
  refine ⟨?_, hdecoded, ?_⟩
  · simpa using ⟨⟨hlong, haccept⟩, hlong', haccept'⟩
  · rw [← hdecoded, hall, hall']
    exact (hperm.flatMap_right _).symm

/-- A receiver applies the messages of both deliveries. -/
theorem Reordered.run_handle (h : Reordered file frames ds ds') {ds₀ : List Datagram}
    (hds₀ : ds₀ ∈ [ds, ds']) {β : Type} {step : β → Message → Option β} {b b' : β}
    (hrun : run step b (ds₀.flatMap Datagram.decoded) = some b') :
    ∃ c, run (handle Tracker.receive step) (.initial, b) ds₀ = some (c, b') := by
  obtain ⟨hlong, haccept⟩ := h.read.1 ds₀ hds₀
  exact Receiver.run_handle (c := .initial) hlong haccept hrun

end Deliveries

/-! ## Two packets that change places -/

section Swapped

/-- Other messages that fill a packet: 25 of 50 bytes and one of 39. -/
def filler : List Frame :=
  List.replicate 25 ⟨0x49 :: List.replicate 49 0, by simp⟩ ++
    [⟨0x52 :: List.replicate 38 0, by simp⟩]

/-- A feed with one order message in each packet. -/
def feed (msgs : List Message) : List Frame := msgs.flatMap fun m => m.frame :: filler

theorem length_filler : (framesBytes filler).length = 1341 := by
  simp [filler, framesBytes]

/-- The sender fills the packets of such a feed. -/
theorem cut_feed (msgs : List Message) :
    cut [] (feed msgs) = msgs.map fun m => m.frame :: filler := by
  have hsize : ∀ m : Message, 19 ≤ m.frame.payload.length ∧ m.frame.payload.length ≤ 36 :=
    fun m => ⟨m.length_wire.1, m.length_wire.2.1⟩
  have hstart : ∀ (m : Message) rest, cut [] (m.frame :: rest) = cut [m.frame] rest := by
    intro m rest
    have := hsize m
    rw [cut_cons, if_neg]
    · rfl
    · simp only [frames_bytes_nil, List.length_nil, Mold.kHeaderSize, kMaxPacketSize]
      omega
  have hfill : ∀ (m : Message) rest,
      cut [m.frame] (filler ++ rest) = cut (m.frame :: filler) rest := by
    intro m rest
    have := hsize m
    rw [cut_append]
    · rfl
    · simp only [frames_bytes_cons, frames_bytes_nil, List.append_nil, Frame.length_bytes,
        length_filler, Mold.kHeaderSize, kMaxPacketSize]
      omega
  induction msgs with
  | nil => rfl
  | cons m msgs ih =>
      have hm := hsize m
      rw [feed, List.flatMap_cons, List.cons_append, hstart, hfill, List.map_cons, ← ih]
      cases msgs with
      | nil => rfl
      | cons m' msgs =>
          have hm' := hsize m'
          rw [feed, List.flatMap_cons, List.cons_append, hstart, cut_cons, if_pos]
          simp only [frames_bytes_cons, List.length_append, Frame.length_bytes, length_filler,
            Mold.kHeaderSize, kMaxPacketSize]
          omega

theorem complete_feed (msgs : List Message) :
    ∀ f ∈ feed msgs, f.payload.length ≤ 1378 ∧ f.Complete := by
  have hfiller : ∀ f ∈ filler, f.payload.length ≤ 1378 ∧ f.Complete := by decide
  intro f hf
  obtain ⟨m, _, hf⟩ := List.mem_flatMap.mp hf
  rcases List.mem_cons.mp hf with rfl | hf
  · exact ⟨m.length_wire.2.1.trans (by decide), m.complete_frame⟩
  · exact hfiller f hf

theorem packable_feed (msgs : List Message) : Packable (cut [] (feed msgs)) := by
  intro g hg
  rw [cut_feed, List.mem_map] at hg
  obtain ⟨m, _, rfl⟩ := hg
  exact ⟨List.cons_ne_nil _ _, show 27 < 2 ^ 16 by decide⟩

theorem message_feed {msgs : List Message} (hmsgs : ∀ m ∈ msgs, m.frame.message = some m) :
    (feed msgs).filterMap Frame.message = msgs := by
  have hfiller : filler.filterMap Frame.message = [] := by decide
  induction msgs with
  | nil => rfl
  | cons m msgs ih =>
      rw [feed, List.flatMap_cons, List.filterMap_append, List.filterMap_cons_some
        (hmsgs m List.mem_cons_self), hfiller, List.singleton_append]
      exact congrArg _ (ih fun m' hm' => hmsgs m' (.tail _ hm'))

theorem length_feed (msgs : List Message) : (feed msgs).length = 27 * msgs.length := by
  induction msgs with
  | nil => rfl
  | cons m msgs ih =>
      rw [feed, List.flatMap_cons, List.length_append, ← feed, ih]
      simp [filler]
      omega

/-- The packets of a feed. -/
theorem packets_feed_concat (msgs : List Message) (m : Message) :
    packetsBytes 1 (cut [] (feed (msgs ++ [m]))) = packetsBytes 1 (cut [] (feed msgs)) ++
      [packetBytes (1 + 27 * msgs.length) (m.frame :: filler)] := by
  have hcut : cut [] (feed (msgs ++ [m])) = cut [] (feed msgs) ++ [m.frame :: filler] := by
    rw [cut_feed, cut_feed, List.map_append, List.map_singleton]
  rw [hcut, packets_bytes_concat, flatten_cut, List.nil_append, length_feed]

/-- The messages of the packets of a feed. -/
theorem decoded_feed {msgs : List Message} (hmsgs : ∀ m ∈ msgs, m.frame.message = some m)
    (hlen : msgs.length < 1000) :
    ((packetsBytes 1 (cut [] (feed msgs))).map Datagram.of).flatMap Datagram.decoded = msgs := by
  have hflat : (cut [] (feed msgs)).flatten = feed msgs := by rw [flatten_cut, List.nil_append]
  rw [Datagram.decoded_packets (Datagram.holds_map_of _) (packable_feed msgs), hflat,
    message_feed hmsgs]
  · rw [hflat, length_feed]
    omega
  · exact fun f hf => (complete_feed msgs f (hflat ▸ hf)).2

/-- The message of one packet of a feed. -/
theorem decoded_packet {m : Message} {seq : Nat} (hm : m.frame.message = some m)
    (hseq : seq < 2 ^ 64) :
    (Datagram.of (packetBytes seq (m.frame :: filler))).decoded = [m] := by
  have hone : (feed [m]).filterMap Frame.message = [m] := message_feed (by simpa using hm)
  have hfeed : feed [m] = m.frame :: filler := List.flatMap_singleton _ _
  rw [hfeed] at hone
  have hcount : (m.frame :: filler).length < 2 ^ 16 := show 27 < 2 ^ 16 by decide
  rw [Datagram.decoded_eq (Datagram.holds_of _) hseq hcount fun f hf =>
    (complete_feed [m] f (hfeed ▸ hf)).2, hone]

/-- The packets of a short file of complete frames may arrive in any order that begins with the
first one. -/
theorem reordered_of_cut {frames : List Frame} {packets : List (List UInt8)}
    (hcomplete : ∀ f ∈ frames, f.payload.length ≤ 1378 ∧ f.Complete)
    (hshort : frames.length < 2 ^ 15) (hperm : packets.Perm (packetsBytes 1 (cut [] frames)))
    (hfirst : packets.head? = (packetsBytes 1 (cut [] frames)).head?) :
    Reordered (framesBytes frames) frames ((packetsBytes 1 (cut [] frames)).map .of)
      (packets.map .of) := by
  have hframes : IsFrames (framesBytes frames) frames := ⟨[], by simp, .inl (by simp)⟩
  have hsize : (framesBytes frames).length < 2 ^ 63 := by
    have hle : ∀ fs : List Frame, (∀ f ∈ fs, f.payload.length ≤ 1378) →
        (framesBytes fs).length ≤ 1380 * fs.length := by
      intro fs
      induction fs with
      | nil => simp
      | cons f fs ih =>
          intro hfs
          have hrest := ih fun g hg => hfs g (.tail _ hg)
          have := hfs f List.mem_cons_self
          simp only [frames_bytes_cons, List.length_append, Frame.length_bytes, List.length_cons]
          omega
    have := hle frames fun f hf => (hcomplete f hf).1
    omega
  obtain ⟨s, hs, hsent, hpack, _, _⟩ := replay_file hsize hframes (fun f hf => (hcomplete f hf).1)
    ⟨List.replicate kMaxPacketSize 0, List.length_replicate⟩
  refine ⟨hframes, hcomplete, ⟨hsize, _, s, packets, hs, hsent ▸ hperm, hsent ▸ hfirst,
    hsent ▸ Datagram.holds_map_of _, Datagram.holds_map_of _⟩, Tracker.no_long_jump_of_lt ?_⟩
  intro p hp
  simp only [List.mem_map] at hp
  obtain ⟨d, ⟨bytes, hbytes, rfl⟩, rfl⟩ := hp
  obtain ⟨seq, hle, g, hg, rfl⟩ := mem_packets_bytes (hperm.mem_iff.mp hbytes)
  rw [flatten_cut, List.nil_append] at hle
  rw [Datagram.header_eq (Datagram.holds_of _) (by omega) (hpack g hg).2]
  show seq < 2 ^ 16
  omega

/-- The last two packets of such a feed may change places. -/
theorem exists_swapped {front : List Message} {m m' : Message} (hfront : front ≠ [])
    (hlen : front.length < 900) (hmsgs : ∀ m₀ ∈ front ++ [m, m'], m₀.frame.message = some m₀) :
    ∃ file frames ds ds', Reordered file frames ds ds' ∧
      frames.filterMap Frame.message = front ++ [m, m'] ∧
      ds'.flatMap Datagram.decoded = front ++ [m', m] := by
  have hlength := length_feed (front ++ [m, m'])
  simp only [List.length_append, List.length_cons, List.length_nil] at hlength
  obtain ⟨early, hearly⟩ : ∃ early, packetsBytes 1 (cut [] (feed front)) = early := ⟨_, rfl⟩
  obtain ⟨p, hp⟩ : ∃ p, packetBytes (1 + 27 * front.length) (m.frame :: filler) = p := ⟨_, rfl⟩
  obtain ⟨p', hp'⟩ : ∃ p',
    packetBytes (1 + 27 * (front ++ [m]).length) (m'.frame :: filler) = p' := ⟨_, rfl⟩
  have hsent : packetsBytes 1 (cut [] (feed (front ++ [m, m']))) = early ++ [p, p'] := by
    rw [List.append_cons, packets_feed_concat, packets_feed_concat, hearly, hp, hp',
      List.append_assoc]
    rfl
  have hne : early ≠ [] := by
    cases front with
    | nil => exact absurd rfl hfront
    | cons m₀ front =>
        rw [← hearly, cut_feed]
        exact List.cons_ne_nil _ _
  have hperm : (early ++ [p', p]).Perm (packetsBytes 1 (cut [] (feed (front ++ [m, m'])))) := by
    rw [hsent]
    exact (List.Perm.swap _ _ _).append_left _
  have hfirst : (early ++ [p', p]).head? =
      (packetsBytes 1 (cut [] (feed (front ++ [m, m'])))).head? := by
    rw [hsent, List.head?_append_of_ne_nil _ hne, List.head?_append_of_ne_nil _ hne]
  refine ⟨_, _, _, _, reordered_of_cut (complete_feed _) (by omega) hperm hfirst,
    message_feed hmsgs, ?_⟩
  have hdecoded := decoded_feed (fun m₀ hm₀ => hmsgs m₀ (List.mem_append_left _ hm₀))
    (show front.length < 1000 by omega)
  rw [hearly] at hdecoded
  have hm := decoded_packet (hmsgs m (by simp)) (show 1 + 27 * front.length < 2 ^ 64 by omega)
  have hm' := decoded_packet (hmsgs m' (by simp))
    (show 1 + 27 * (front ++ [m]).length < 2 ^ 64 by simp; omega)
  rw [List.map_append, List.flatMap_append, hdecoded, List.map_cons, List.map_singleton,
    List.flatMap_cons, List.flatMap_singleton, ← hp, ← hp', hm, hm']
  rfl

end Swapped

end FeedHandler.Receiver
