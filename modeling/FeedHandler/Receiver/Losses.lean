import FeedHandler.Receiver.Deliveries
import FeedHandler.Receiver.Lockstep
import Mathlib.Data.List.Perm.Subperm
import Mathlib.Data.List.Sort

/-!
# What a receiver makes of any delivery

The datagrams that a receiver applies, whatever the network does: `run_handle_applied` says that the
books are those after the messages of these datagrams. The v2 and v3 receivers apply disjoint
packets, so what they apply is a part of the file in some order (`Carried.applied_part`); the v1
receiver applies packets of increasing sequence numbers, so what it applies is a part of the file in
order (`Carried.applied_in_order`).
-/

namespace FeedHandler.Receiver

open Itch Runs Sender

universe u

section Applied

variable {τ : Type} (receive : τ → Packet → τ × Bool)

/-- The datagrams that are unwrapped. -/
def applied (t : τ) : List Datagram → List Datagram
  | [] => []
  | d :: ds =>
      if d.n < Mold.kHeaderSize then applied t ds
      else
        match receive t d.header with
        | (t, true) => d :: applied t ds
        | (t, false) => applied t ds

/-- The messages that are applied to the books. -/
def processed (t : τ) (ds : List Datagram) : List Message :=
  (applied receive t ds).flatMap Datagram.decoded

/-- The headers of the datagrams that have one. -/
def headers (ds : List Datagram) : List Packet :=
  (ds.filter fun d => Mold.kHeaderSize ≤ d.n).map Datagram.header

theorem headers_cons (d : Datagram) (ds : List Datagram) :
    headers (d :: ds) = if d.n < Mold.kHeaderSize then headers ds else d.header :: headers ds := by
  unfold headers
  by_cases h : d.n < Mold.kHeaderSize
  · simp [h, Nat.not_le.mpr h]
  · simp [h, Nat.not_lt.mp h]

variable {receive} {t : τ} {ds : List Datagram}

theorem mem_applied {d : Datagram} (hd : d ∈ applied receive t ds) :
    d ∈ ds ∧ Mold.kHeaderSize ≤ d.n := by
  induction ds generalizing t with
  | nil => cases hd
  | cons d' ds ih =>
      rw [applied] at hd
      split at hd
      next =>
        obtain ⟨hmem, hlong⟩ := ih hd
        exact ⟨.tail _ hmem, hlong⟩
      next hlong' =>
        split at hd
        next =>
          rcases List.mem_cons.mp hd with rfl | hd
          · exact ⟨List.mem_cons_self, Nat.le_of_not_lt hlong'⟩
          · obtain ⟨hmem, hlong⟩ := ih hd
            exact ⟨.tail _ hmem, hlong⟩
        next =>
          obtain ⟨hmem, hlong⟩ := ih hd
          exact ⟨.tail _ hmem, hlong⟩

/-- What is applied of the beginning of a delivery is applied first. -/
theorem processed_begin (receive : τ → Packet → τ × Bool) (t : τ) (ds ds' : List Datagram) :
    processed receive t ds <+: processed receive t (ds ++ ds') := by
  unfold processed
  induction ds generalizing t with
  | nil => exact List.nil_prefix
  | cons d ds ih =>
      rw [List.cons_append, applied, applied]
      split
      next => exact ih t
      next =>
        split
        next t' _ =>
          rw [List.flatMap_cons, List.flatMap_cons]
          exact (List.prefix_append_right_inj _).mpr (ih t')
        next t' _ => exact ih t'

/-- A receiver with books is one without, whose books take the messages of the applied datagrams. -/
theorem run_handle_applied {β : Type u} (step : β → Message → Option β) (c : Counters τ) (b : β)
    (ds : List Datagram) :
    run (handle receive step) (c, b) ds =
      (run step b (processed receive c.tracker ds)).map ((onDatagrams receive c ds).1, ·) := by
  induction ds generalizing c b with
  | nil => rfl
  | cons d ds ih =>
      rw [run_cons, handle, processed, applied, onDatagrams, onDatagram]
      split
      next => exact ih c b
      next =>
        cases hreceive : receive c.tracker d.header with
        | mk t accept =>
            cases accept with
            | false => exact ih _ b
            | true =>
                simp only [List.flatMap_cons, run_append]
                cases run step b d.decoded with
                | none => rfl
                | some b₁ => exact ih _ b₁

/-- The counters after a delivery. -/
theorem counters_applied (c : Counters τ) (ds : List Datagram) :
    (onDatagrams receive c ds).1 =
      ⟨(headers ds).foldl (fun t p => (receive t p).1) c.tracker, c.packets + (headers ds).length,
        c.messages + ((applied receive c.tracker ds).map fun d => d.messages.length).sum⟩ := by
  induction ds generalizing c with
  | nil => rfl
  | cons d ds ih =>
      rw [onDatagrams, onDatagram, headers_cons, applied]
      by_cases hshort : d.n < Mold.kHeaderSize
      · simp only [if_pos hshort, ih]
      · simp only [if_neg hshort]
        cases hreceive : receive c.tracker d.header with
        | mk t accept =>
            cases accept with
            | false =>
                simp only [ih, hreceive, List.foldl_cons, List.length_cons, Counters.mk.injEq,
                  and_true, true_and]
                omega
            | true =>
                simp only [ih, hreceive, List.foldl_cons, List.length_cons, List.map_cons,
                  List.sum_cons, Counters.mk.injEq, true_and]
                omega

end Applied

section Trackers

variable {ds : List Datagram}

/-- The headers of the datagrams that the v2 and v3 receivers apply. -/
theorem applied_headers (t : Tracker) (ds : List Datagram) :
    (applied Tracker.receive t ds).map Datagram.header = t.accepted (headers ds) := by
  induction ds generalizing t with
  | nil => rfl
  | cons d ds ih =>
      rw [applied, headers_cons]
      split
      next => exact ih t
      next =>
        rw [Tracker.accepted]
        cases hreceive : t.receive d.header with
        | mk t' accept =>
            cases accept with
            | false => exact ih t'
            | true => exact congrArg _ (ih t')

/-- Accepted packets share no sequence number, and each has one, so they are different. -/
theorem accepted_nodup {ps : List Packet} (hps : ∀ p ∈ ps, 1 ≤ p.count ∧ p.seq + p.count < 2 ^ 64) :
    (Tracker.initial.accepted ps).Nodup := by
  have hapart := (Tracker.safe_run fun p hp => (hps p hp).2).done_apart
  refine hapart.imp_of_mem fun {p} {_} hp _ hdisjoint heq => ?_
  subst heq
  have hcount := (hps p ((Tracker.accepted_sublist _ _).subset hp)).1
  exact hdisjoint p.seq ⟨⟨le_rfl, by omega⟩, le_rfl, by omega⟩

/-- The v1 receiver applies a packet that does not begin below the expected number, which moves to
the end of the packet. -/
theorem v1_receive_cases (t : V1Tracker) {p : Packet} (hp : p.seq + p.count < 2 ^ 64) :
    ((t.receive p).2 = true ∧ t.expectedSeq ≤ p.seq ∧
        (t.receive p).1.expectedSeq = p.seq + p.count) ∨
      ((t.receive p).2 = false ∧ (t.receive p).1.expectedSeq = t.expectedSeq) := by
  have hend := Tracker.add64_eq hp
  have hsync : t.expectedSeq ≤ (t.sync p).expectedSeq ∧
      (p.seq < (t.sync p).expectedSeq → (t.sync p).expectedSeq = t.expectedSeq) := by
    unfold V1Tracker.sync
    split
    · simp only
      omega
    · exact ⟨le_rfl, fun _ => rfl⟩
  unfold V1Tracker.receive
  simp only
  split
  · exact .inl ⟨rfl, by omega, hend⟩
  · split
    · exact .inr ⟨rfl, hsync.2 ‹_›⟩
    · exact .inl ⟨rfl, by omega, hend⟩

/-- The v1 receiver applies packets that follow each other. -/
theorem v1_applied_increasing (t : V1Tracker)
    (hds : ∀ d ∈ ds, Mold.kHeaderSize ≤ d.n → d.header.seq + d.header.count < 2 ^ 64) :
    (∀ d ∈ applied V1Tracker.receive t ds, t.expectedSeq ≤ d.header.seq) ∧
      (applied V1Tracker.receive t ds).Pairwise fun d d' =>
        d.header.seq + d.header.count ≤ d'.header.seq := by
  induction ds generalizing t with
  | nil => exact ⟨by simp [applied], List.Pairwise.nil⟩
  | cons d ds ih =>
      have hds' : ∀ d ∈ ds, Mold.kHeaderSize ≤ d.n → d.header.seq + d.header.count < 2 ^ 64 :=
        fun d' hd' => hds d' (.tail _ hd')
      rw [applied]
      split
      next => exact ih t hds'
      next hlong =>
        have hcases := v1_receive_cases t (hds d List.mem_cons_self (Nat.le_of_not_lt hlong))
        cases hreceive : t.receive d.header with
        | mk t' accept =>
            rw [hreceive] at hcases
            obtain ⟨hle, hpairs⟩ := ih t' hds'
            rcases hcases with ⟨haccept, hfrom, hnext⟩ | ⟨haccept, hnext⟩
            · simp only at haccept hnext
              subst haccept
              refine ⟨fun d' hd' => ?_, List.pairwise_cons.mpr ⟨fun d' hd' => ?_, hpairs⟩⟩
              · rcases List.mem_cons.mp hd' with rfl | hd'
                · exact hfrom
                · have := hle d' hd'
                  omega
              · exact hnext ▸ hle d' hd'
            · simp only at haccept hnext
              subst haccept
              exact ⟨fun d' hd' => hnext ▸ hle d' hd', hpairs⟩

/-- The ledger of one packet at the v1 receiver, from the number it expects once it has one. -/
theorem v1_receive_ledger {t : V1Tracker} {p : Packet} (hpos : 0 < (t.sync p).expectedSeq)
    (hlost : (t.sync p).lost ≤ (t.sync p).expectedSeq) (hp : p.seq + p.count < 2 ^ 64) :
    (t.receive p).1.expectedSeq + (t.sync p).lost =
        (t.sync p).expectedSeq + (if (t.receive p).2 then p.count else 0) + (t.receive p).1.lost ∧
      (t.receive p).1.lost ≤ (t.receive p).1.expectedSeq ∧ 0 < (t.receive p).1.expectedSeq := by
  have hend := Tracker.add64_eq hp
  unfold V1Tracker.receive
  simp only [hend]
  split
  next hgt =>
    have hsub := Tracker.sub64_eq (Nat.le_of_lt hgt) (by omega : p.seq < 2 ^ 64)
    rw [hsub, Tracker.add64_eq (by omega)]
    simp only [if_true]
    omega
  next =>
    split
    · simp only [Bool.false_eq_true, if_false]
      omega
    · simp only [if_true]
      omega

/-- The ledger of the v1 receiver, once it expects a number. -/
theorem v1_ledger {t : V1Tracker} (hpos : 0 < t.expectedSeq) (hlost : t.lost ≤ t.expectedSeq)
    (hds : ∀ p ∈ headers ds, p.seq + p.count < 2 ^ 64) :
    (t.run (headers ds)).expectedSeq + t.lost = t.expectedSeq +
      Tracker.messages ((applied V1Tracker.receive t ds).map Datagram.header) +
        (t.run (headers ds)).lost := by
  induction ds generalizing t with
  | nil => simp [applied, headers, Tracker.messages]
  | cons d ds ih =>
      rw [headers_cons] at hds
      rw [headers_cons, applied]
      split at hds
      next hshort =>
        rw [if_pos hshort, if_pos hshort]
        exact ih hpos hlost hds
      next hlong =>
        have hsync : t.sync d.header = t := if_neg (Nat.pos_iff_ne_zero.mp hpos)
        have hledger := v1_receive_ledger (t := t) (by rwa [hsync]) (by rwa [hsync])
          (hds d.header List.mem_cons_self)
        rw [hsync] at hledger
        obtain ⟨hstep, hlost', hpos'⟩ := hledger
        have hrest := ih hpos' hlost' fun p hp => hds p (.tail _ hp)
        rw [if_neg hlong, if_neg hlong, V1Tracker.run_cons]
        cases hreceive : t.receive d.header with
        | mk t' accept =>
            simp only [hreceive] at hstep hrest
            cases accept with
            | false =>
                simp only [Bool.false_eq_true, if_false] at hstep ⊢
                omega
            | true =>
                simp only [if_true, List.map_cons, Tracker.messages_cons] at hstep ⊢
                omega

/-- The ledger of the v1 receiver over a whole delivery. -/
theorem v1_initial_ledger {p : Packet} {ps : List Packet} (hheaders : headers ds = p :: ps)
    (hds : ∀ q ∈ p :: ps, 0 < q.seq ∧ q.seq + q.count < 2 ^ 64) :
    p.seq + Tracker.messages ((applied V1Tracker.receive .initial ds).map Datagram.header) +
      (V1Tracker.initial.run (p :: ps)).lost = (V1Tracker.initial.run (p :: ps)).expectedSeq := by
  induction ds with
  | nil => cases hheaders
  | cons d ds ih =>
      rw [headers_cons] at hheaders
      rw [applied]
      split at hheaders
      next hshort =>
        rw [if_pos hshort]
        exact ih hheaders
      next hlong =>
        obtain ⟨rfl, rfl⟩ := List.cons_eq_cons.mp hheaders
        obtain ⟨hfirst, hend⟩ := hds _ List.mem_cons_self
        have hsync : V1Tracker.initial.sync d.header = { V1Tracker.initial with
            expectedSeq := d.header.seq } := if_pos rfl
        have hledger := v1_receive_ledger (t := .initial) (by rwa [hsync])
          (by rw [hsync]; exact Nat.zero_le _) hend
        rw [hsync] at hledger
        obtain ⟨hstep, hlost', hpos'⟩ := hledger
        have hrest := v1_ledger hpos' hlost' fun q hq => (hds q (.tail _ hq)).2
        rw [if_neg hlong, V1Tracker.run_cons]
        cases hreceive : V1Tracker.initial.receive d.header with
        | mk t' accept =>
            simp only [hreceive] at hstep hrest
            have hzero : V1Tracker.initial.lost = 0 := rfl
            cases accept with
            | false =>
                simp only [Bool.false_eq_true, if_false] at hstep ⊢
                omega
            | true =>
                simp only [if_true, List.map_cons, Tracker.messages_cons] at hstep ⊢
                omega

end Trackers

section Carried

/-- The header that receivers see of a byte string. -/
def packetOf (bytes : List UInt8) : Packet := (Datagram.of bytes).header

/-- Every datagram that has a header carries a packet that the sender made of a file. Packets may be
lost, reordered and repeated. An empty file, which the reader refuses, has none. -/
structure Carried (file : List UInt8) (frames : List Frame) (ds : List Datagram) : Prop where
  frames_eq : IsFrames file frames
  complete : ∀ f ∈ frames, f.payload.length ≤ 1378 ∧ f.Complete
  carried : ∃ size stale s, ReplaySender.replay stale ⟨file, 0, size⟩ = some s ∧
    ∀ d ∈ ds, Mold.kHeaderSize ≤ d.n → ∃ bytes ∈ s.sent, d.Holds bytes

/-- The packets of a file, as receivers read them. -/
structure Packets (frames : List Frame) (sent : List (List UInt8)) : Prop where
  packet : ∀ bytes ∈ sent, Datagram.IsPacket bytes
  part : Partition (sent.map packetOf) 1 (1 + frames.length)
  short : 1 + frames.length < 2 ^ 64
  decoded : (sent.flatMap fun bytes => (Datagram.of bytes).decoded) = frames.filterMap Frame.message

variable {file : List UInt8} {frames : List Frame} {ds ds' : List Datagram}
  {sent : List (List UInt8)}

/-- What the sender makes of a file of complete frames. -/
theorem packets_of_replay (hsize : file.length < 2 ^ 63) (hframes : IsFrames file frames)
    (hcomplete : ∀ f ∈ frames, f.payload.length ≤ 1378 ∧ f.Complete) {stale : PacketBuffer}
    {s : ReplaySender} (hs : ReplaySender.replay stale ⟨file, 0, hsize⟩ = some s) :
    Packets frames s.sent := by
  obtain ⟨s', hs', hsent, hpack, _, hcount⟩ :=
    replay_file hsize hframes (fun f hf => (hcomplete f hf).1) stale
  obtain rfl := Option.some.inj (hs'.symm.trans hs)
  have hflat : (cut [] frames).flatten = frames := by rw [flatten_cut, List.nil_append]
  have hseq : 1 + (cut [] frames).flatten.length < 2 ^ 64 := by
    rw [hflat]
    omega
  have hall : ∀ f ∈ (cut [] frames).flatten, f.Complete := fun f hf =>
    (hcomplete f (hflat ▸ hf)).2
  have hpackets : ∀ bytes ∈ s'.sent, Datagram.IsPacket bytes := by
    intro bytes hbytes
    obtain ⟨seq, hle, g, hg, rfl⟩ := mem_packets_bytes (hsent ▸ hbytes)
    exact ⟨seq, g, by omega, (hpack g hg).2,
      fun f hf => hall f (List.mem_flatten_of_mem hg hf), rfl⟩
  have hof : List.Forall₂ Datagram.Holds (s'.sent.map .of) (packetsBytes 1 (cut [] frames)) :=
    hsent ▸ Datagram.holds_map_of s'.sent
  obtain ⟨hpart, _, _⟩ := unwrap_packets hof hpack hseq
  have hdecoded := Datagram.decoded_packets hof hpack hseq hall
  rw [hflat] at hpart hdecoded hseq
  refine ⟨hpackets, ?_, hseq, ?_⟩
  · rwa [List.map_map] at hpart
  · rwa [List.flatMap_map] at hdecoded

theorem Carried.packets (h : Carried file frames ds) :
    ∃ sent, Packets frames sent ∧
      ∀ d ∈ ds, Mold.kHeaderSize ≤ d.n → ∃ bytes ∈ sent, d.Holds bytes := by
  obtain ⟨size, stale, s, hs, hds⟩ := h.carried
  exact ⟨s.sent, packets_of_replay size h.frames_eq h.complete hs, hds⟩

/-- The network may lose any datagrams. -/
theorem Carried.of_subset (h : Carried file frames ds) (hsub : ∀ d ∈ ds', d ∈ ds) :
    Carried file frames ds' where
  frames_eq := h.frames_eq
  complete := h.complete
  carried := by
    obtain ⟨size, stale, s, hs, hds⟩ := h.carried
    exact ⟨size, stale, s, hs, fun d hd => hds d (hsub d hd)⟩

theorem Datagram.Holds.unique {d : Datagram} {bytes bytes' : List UInt8} (h : d.Holds bytes)
    (h' : d.Holds bytes') : bytes = bytes' := by
  rw [← h.2, ← h'.2, ← h.1, ← h'.1]

/-- Datagrams that carry packets of a short file of complete frames. -/
theorem carried_of_cut {frames : List Frame} {ds : List Datagram}
    (hcomplete : ∀ f ∈ frames, f.payload.length ≤ 1378 ∧ f.Complete)
    (hshort : frames.length < 2 ^ 15)
    (hds : ∀ d ∈ ds, ∃ bytes ∈ packetsBytes 1 (cut [] frames), d.Holds bytes) :
    Carried (framesBytes frames) frames ds := by
  have h := reordered_of_cut hcomplete hshort (List.Perm.refl _) rfl
  obtain ⟨size, stale, s, _, hs, _, _, hheld, _⟩ := h.delivered
  have hsent : ∀ packets sent, List.Forall₂ Datagram.Holds (packets.map Datagram.of) sent →
      sent = packets := by
    intro packets
    induction packets with
    | nil =>
        intro sent hheld
        cases hheld
        rfl
    | cons bytes packets ih =>
        intro sent hheld
        cases hheld with
        | cons hhead htail =>
            have hbytes := hhead.unique (Datagram.holds_of bytes)
            rw [ih _ htail, hbytes]
  exact ⟨h.frames_eq, hcomplete, size, stale, s, hs, fun d hd _ => hsent _ _ hheld ▸ hds d hd⟩

/-- Datagrams that carry packets carry a list of them. -/
theorem exists_bytes (hds : ∀ d ∈ ds, ∃ bytes ∈ sent, d.Holds bytes) :
    ∃ packets, List.Forall₂ Datagram.Holds ds packets ∧ ∀ bytes ∈ packets, bytes ∈ sent := by
  induction ds with
  | nil => exact ⟨[], .nil, fun _ h => nomatch h⟩
  | cons d ds ih =>
      obtain ⟨bytes, hbytes, hd⟩ := hds d List.mem_cons_self
      obtain ⟨packets, hpackets, hall⟩ := ih fun d' hd' => hds d' (.tail _ hd')
      refine ⟨bytes :: packets, .cons hd hpackets, fun b hb => ?_⟩
      rcases List.mem_cons.mp hb with rfl | hb
      · exact hbytes
      · exact hall b hb

/-- Every datagram that carries one of a list of packets. -/
theorem bytes_of_mem {packets : List (List UInt8)} {d : Datagram}
    (hds : List.Forall₂ Datagram.Holds ds packets) (hd : d ∈ ds) :
    ∃ bytes ∈ packets, d.Holds bytes := by
  induction hds with
  | nil => cases hd
  | @cons d' bytes ds packets hholds _ ih =>
      rcases List.mem_cons.mp hd with rfl | hd
      · exact ⟨bytes, List.mem_cons_self, hholds⟩
      · obtain ⟨bytes', hbytes, hholds'⟩ := ih hd
        exact ⟨bytes', .tail _ hbytes, hholds'⟩

/-- The headers of the sender's packets are different. -/
theorem Packets.nodup (h : Packets frames sent) : sent.Nodup :=
  List.Nodup.of_map _ h.part.nodup

/-- A datagram that carries a packet has as many messages as its header says. -/
theorem length_messages {d : Datagram} {bytes : List UInt8} (h : Datagram.IsPacket bytes)
    (hd : d.Holds bytes) : d.messages.length = d.header.count := by
  obtain ⟨seq, frames, hseq, hcount, _, rfl⟩ := h
  have hlen := congrArg List.length (Datagram.payloads_eq hd hseq hcount)
  rw [Datagram.header_eq hd hseq hcount]
  simpa [Datagram.payloads] using hlen

/-- The header of a datagram that carries a packet of the file. -/
theorem Packets.header_mem (h : Packets frames sent) {d : Datagram}
    (hd : ∃ bytes ∈ sent, d.Holds bytes) :
    d.header ∈ sent.map packetOf ∧ d.messages.length = d.header.count := by
  obtain ⟨bytes, hbytes, hd⟩ := hd
  have hpacket := h.packet bytes hbytes
  refine ⟨?_, length_messages hpacket hd⟩
  rw [(hpacket.read hd).2.1]
  exact List.mem_map_of_mem hbytes

/-- The messages of datagrams that carry packets of the file. -/
theorem Packets.sum_messages (h : Packets frames sent)
    (hds : ∀ d ∈ ds, ∃ bytes ∈ sent, d.Holds bytes) :
    (ds.map fun d => d.messages.length).sum = Tracker.messages (ds.map Datagram.header) := by
  rw [Tracker.messages, List.map_map]
  exact congrArg List.sum (List.map_congr_left fun d hd => (h.header_mem (hds d hd)).2)

/-- The headers of a delivery are those of packets of the file. -/
theorem Packets.headers_mem (h : Packets frames sent)
    (hds : ∀ d ∈ ds, Mold.kHeaderSize ≤ d.n → ∃ bytes ∈ sent, d.Holds bytes) :
    ∀ p ∈ headers ds, p ∈ sent.map packetOf := by
  intro p hp
  obtain ⟨d, hd, rfl⟩ := List.mem_map.mp hp
  obtain ⟨hmem, hlong⟩ := List.mem_filter.mp hd
  exact (h.header_mem (hds d hmem (of_decide_eq_true hlong))).1

/-- Datagrams of different packets carry a part of the messages. -/
theorem Packets.part_of_nodup (h : Packets frames sent)
    (hds : ∀ d ∈ ds, ∃ bytes ∈ sent, d.Holds bytes) (hnodup : (ds.map Datagram.header).Nodup) :
    (ds.flatMap Datagram.decoded).Subperm (frames.filterMap Frame.message) := by
  obtain ⟨packets, hpackets, hall⟩ := exists_bytes hds
  obtain ⟨_, hheader, hdecoded⟩ :=
    Datagram.read_packets hpackets fun bytes hbytes => h.packet bytes (hall bytes hbytes)
  rw [hheader] at hnodup
  obtain ⟨part, hperm, hsub⟩ := List.subperm_of_subset (List.Nodup.of_map _ hnodup) hall
  rw [hdecoded, ← h.decoded]
  exact ⟨_, hperm.flatMap_right _, hsub.flatMap _⟩

/-- The packets of a partition follow each other. -/
theorem Partition.pairwise {ps : List Packet} {lo hi : Nat} (h : Partition ps lo hi) :
    ps.Pairwise fun p q => p.seq + p.count ≤ q.seq := by
  induction ps generalizing lo with
  | nil => exact List.Pairwise.nil
  | cons p ps ih =>
      obtain ⟨rfl, _, hrest⟩ := h
      exact List.pairwise_cons.mpr ⟨fun q hq => (hrest.bounds.2 q hq).1, ih hrest⟩

/-- One byte string stands in front of another one in the file. -/
def Before (bytes bytes' : List UInt8) : Prop := (packetOf bytes).seq < (packetOf bytes').seq

theorem Before.ne {bytes bytes' : List UInt8} (h : Before bytes bytes') : bytes ≠ bytes' := by
  intro heq
  subst heq
  exact lt_irrefl _ h

instance : Std.Antisymm Before := ⟨fun _ _ h h' => absurd (h.trans h') (lt_irrefl _)⟩

/-- Byte strings whose packets follow each other stand one in front of the other. -/
theorem Packets.before (h : Packets frames sent) {packets : List (List UInt8)}
    (hall : ∀ bytes ∈ packets, bytes ∈ sent)
    (hpairs : (packets.map packetOf).Pairwise fun p q => p.seq + p.count ≤ q.seq) :
    packets.Pairwise Before := by
  refine (List.pairwise_map.mp hpairs).imp_of_mem fun hp _ hle => ?_
  have hcount := (h.part.bounds.2 _ (List.mem_map_of_mem (hall _ hp))).2.1
  unfold Before
  omega

/-- Datagrams of packets that follow each other carry a part of the messages in order. -/
theorem Packets.part_in_order (h : Packets frames sent)
    (hds : ∀ d ∈ ds, ∃ bytes ∈ sent, d.Holds bytes)
    (hpairs : ds.Pairwise fun d d' => d.header.seq + d.header.count ≤ d'.header.seq) :
    (ds.flatMap Datagram.decoded).Sublist (frames.filterMap Frame.message) := by
  obtain ⟨packets, hpackets, hall⟩ := exists_bytes hds
  obtain ⟨_, hheader, hdecoded⟩ :=
    Datagram.read_packets hpackets fun bytes hbytes => h.packet bytes (hall bytes hbytes)
  have hpairs' : (ds.map Datagram.header).Pairwise fun p q => p.seq + p.count ≤ q.seq :=
    List.pairwise_map.mpr hpairs
  rw [hheader] at hpairs'
  have hbefore := h.before hall hpairs'
  have hnodup : packets.Nodup := hbefore.imp Before.ne
  have hsub := List.sublist_of_subperm_of_pairwise (List.subperm_of_subset hnodup hall) hbefore
    (h.before (fun _ hbytes => hbytes) h.part.pairwise)
  rw [hdecoded, ← h.decoded]
  exact hsub.flatMap _

/-- What the v2 and v3 receivers apply of any delivery is a part of the file, in some order. -/
theorem Carried.applied_part (h : Carried file frames ds) :
    (processed Tracker.receive .initial ds).Subperm (frames.filterMap Frame.message) := by
  obtain ⟨sent, hsent, hds⟩ := h.packets
  have hbounds : ∀ p ∈ headers ds, 1 ≤ p.count ∧ p.seq + p.count < 2 ^ 64 := by
    intro p hp
    obtain ⟨_, hcount, hend⟩ := hsent.part.bounds.2 p (hsent.headers_mem hds p hp)
    have := hsent.short
    omega
  have hcarried : ∀ d ∈ applied Tracker.receive .initial ds, ∃ bytes ∈ sent, d.Holds bytes :=
    fun d hd => hds d (mem_applied hd).1 (mem_applied hd).2
  refine hsent.part_of_nodup hcarried ?_
  rw [applied_headers]
  exact accepted_nodup hbounds

/-- What the v1 receiver applies of any delivery is a part of the file, in order. -/
theorem Carried.applied_in_order (h : Carried file frames ds) :
    (processed V1Tracker.receive .initial ds).Sublist (frames.filterMap Frame.message) := by
  obtain ⟨sent, hsent, hds⟩ := h.packets
  refine hsent.part_in_order (fun d hd => hds d (mem_applied hd).1 (mem_applied hd).2) ?_
  refine (v1_applied_increasing _ fun d hd hlong => ?_).2
  have hend := (hsent.part.bounds.2 _ (hsent.header_mem (hds d hd hlong)).1).2.2
  have hshort := hsent.short
  omega

section Reports

variable {p : Packet} {ps : List Packet}

/-- After any delivery to the v2 or v3 receiver without a long jump, the messages applied and
`truly_lost` add up to the distance from the first packet to the mark. -/
theorem Carried.report (h : Carried file frames ds) (hheaders : headers ds = p :: ps)
    (hshort : Tracker.NoLongJump (headers ds)) :
    p.seq + ((applied Tracker.receive .initial ds).map fun d => d.messages.length).sum +
      (Tracker.initial.run (headers ds)).trulyLost =
        (Tracker.initial.run (headers ds)).highSeq := by
  obtain ⟨sent, hsent, hds⟩ := h.packets
  have hcarried : ∀ d ∈ applied Tracker.receive .initial ds, ∃ bytes ∈ sent, d.Holds bytes :=
    fun d hd => hds d (mem_applied hd).1 (mem_applied hd).2
  rw [hsent.sum_messages hcarried, applied_headers]
  have hbounds : ∀ q ∈ headers ds, 1 ≤ q.seq ∧ q.seq + q.count < 2 ^ 64 := by
    intro q hq
    obtain ⟨hseq, _, hend⟩ := hsent.part.bounds.2 q (hsent.headers_mem hds q hq)
    have := hsent.short
    omega
  rw [hheaders] at hshort hbounds ⊢
  have hledger := Tracker.ledger (fun q hq => (hbounds q hq).1) fun q hq => (hbounds q hq).2
  rw [(Tracker.shortfalls_eq_zero_iff _).mpr hshort] at hledger
  have hhigh := (Tracker.safe_run fun q hq => (hbounds q hq).2).wf.high_lt
  rw [Tracker.trulyLost, Nat.mod_eq_of_lt (by change Intervals.size _ < _; omega)]
  change _ + _ + Intervals.size _ = _
  omega

/-- After any delivery to the v1 receiver, with jumps of any length, the messages applied and those
it counts as lost add up to the distance it has moved. -/
theorem Carried.v1_report (h : Carried file frames ds) (hheaders : headers ds = p :: ps) :
    p.seq + ((applied V1Tracker.receive .initial ds).map fun d => d.messages.length).sum +
      (V1Tracker.initial.run (headers ds)).lost =
        (V1Tracker.initial.run (headers ds)).expectedSeq := by
  obtain ⟨sent, hsent, hds⟩ := h.packets
  have hcarried : ∀ d ∈ applied V1Tracker.receive .initial ds, ∃ bytes ∈ sent, d.Holds bytes :=
    fun d hd => hds d (mem_applied hd).1 (mem_applied hd).2
  rw [hsent.sum_messages hcarried, hheaders]
  refine v1_initial_ledger hheaders fun q hq => ?_
  obtain ⟨hseq, _, hend⟩ := hsent.part.bounds.2 q (hsent.headers_mem hds q (hheaders ▸ hq))
  have := hsent.short
  omega

end Reports

end Carried

end FeedHandler.Receiver
