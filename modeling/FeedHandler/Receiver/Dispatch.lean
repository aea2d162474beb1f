import FeedHandler.Common.ItchMessages
import FeedHandler.Receiver.RoundTrip

/-!
# The receivers with their books

The receive loop of a receiver whose books take decoded messages: a datagram that the tracking block
accepts is unwrapped, and the dispatch switch decodes and applies its messages one by one.
`run_handle` says that a receiver which accepts every datagram applies all their messages, and
`accepted_perm` that the v2 and v3 receivers accept every packet of a sender in every order that
begins with the first packet and has no long jump.
-/

namespace FeedHandler.Receiver

open Bytes Itch Runs Sender

universe u

/-- The order messages that the dispatch switch decodes in an accepted datagram. -/
def Datagram.decoded (d : Datagram) : List Message :=
  d.messages.filterMap fun m => Message.decode (advance d.buf m.1)

/-- One datagram: the counters and the books after it. -/
def handle {τ : Type} {β : Type u} (receive : τ → Packet → τ × Bool)
    (step : β → Message → Option β) (r : Counters τ × β) (d : Datagram) :
    Option (Counters τ × β) :=
  if d.n < Mold.kHeaderSize then some r
  else
    match receive r.1.tracker d.header with
    | (t, true) => do
        let books ← run step r.2 d.decoded
        return (⟨t, r.1.packets + 1, r.1.messages + d.messages.length⟩, books)
    | (t, false) => some (⟨t, r.1.packets + 1, r.1.messages⟩, r.2)

/-- The counters before the first datagram. -/
def Counters.initial : Counters Tracker := ⟨.initial, 0, 0⟩

namespace Datagram

variable {d : Datagram} {seq : Nat} {frames : List Frame}

/-- Frames that are visited one by one are decoded one by one. -/
theorem decode_visited {mem : Nat → UInt8} {visited : List (Nat × Nat)}
    (h : visited.map (fun m => slice mem m.1 m.2) = frames.map Frame.payload)
    (hframes : ∀ f ∈ frames, f.Complete) :
    (visited.filterMap fun m => Message.decode (advance mem m.1)) =
      frames.filterMap Frame.message := by
  induction frames generalizing visited with
  | nil =>
      obtain rfl := List.map_eq_nil_iff.mp h
      rfl
  | cons f frames ih =>
      cases visited with
      | nil => cases h
      | cons m visited =>
          rw [List.map_cons, List.map_cons, List.cons.injEq] at h
          obtain ⟨hslice, hrest⟩ := h
          have hlen : m.2 = f.payload.length := by rw [← hslice, length_slice]
          have hdecode := (hframes f List.mem_cons_self).decode_eq (hlen ▸ hslice)
          have hrest := ih hrest fun g hg => hframes g (.tail _ hg)
          rw [List.filterMap_cons, List.filterMap_cons, hdecode, hrest]

/-- The messages of a datagram that carries a packet are those of its frames. -/
theorem decoded_eq (h : d.Holds (packetBytes seq frames)) (hseq : seq < 2 ^ 64)
    (hcount : frames.length < 2 ^ 16) (hframes : ∀ f ∈ frames, f.Complete) :
    d.decoded = frames.filterMap Frame.message :=
  decode_visited (payloads_eq h hseq hcount) hframes

/-- A byte string is a packet of complete frames. -/
def IsPacket (bytes : List UInt8) : Prop :=
  ∃ seq frames, seq < 2 ^ 64 ∧ frames.length < 2 ^ 16 ∧ (∀ f ∈ frames, f.Complete) ∧
    bytes = packetBytes seq frames

/-- What is read from a datagram that carries a packet depends on the packet only. -/
theorem IsPacket.read {bytes : List UInt8} (h : IsPacket bytes) (hd : d.Holds bytes) :
    Mold.kHeaderSize ≤ d.n ∧ d.header = (of bytes).header ∧ d.decoded = (of bytes).decoded := by
  obtain ⟨seq, frames, hseq, hcount, hframes, rfl⟩ := h
  refine ⟨?_, ?_, ?_⟩
  · rw [hd.1, length_packet_bytes]
    exact Nat.le_add_right _ _
  · rw [header_eq hd hseq hcount, header_eq (holds_of _) hseq hcount]
  · rw [decoded_eq hd hseq hcount hframes, decoded_eq (holds_of _) hseq hcount hframes]

/-- Datagrams that carry packets. -/
theorem read_packets {ds : List Datagram} {packets : List (List UInt8)}
    (hds : List.Forall₂ Holds ds packets) (hpackets : ∀ bytes ∈ packets, IsPacket bytes) :
    (∀ d ∈ ds, Mold.kHeaderSize ≤ d.n) ∧
      ds.map header = packets.map (fun bytes => (of bytes).header) ∧
      ds.flatMap decoded = packets.flatMap fun bytes => (of bytes).decoded := by
  induction hds with
  | nil => simp
  | @cons d bytes ds packets hd _ ih =>
      obtain ⟨hlong, hheader, hdecoded⟩ := (hpackets bytes List.mem_cons_self).read hd
      obtain ⟨hlongs, hheaders, hall⟩ := ih fun b hb => hpackets b (.tail _ hb)
      refine ⟨?_, ?_, ?_⟩
      · simpa using ⟨hlong, hlongs⟩
      · rw [List.map_cons, List.map_cons, hheader, hheaders]
      · rw [List.flatMap_cons, List.flatMap_cons, hdecoded, hall]

/-- The messages of the datagrams that carry the packets of groups of frames. -/
theorem decoded_packets {ds : List Datagram} {seq : Nat} {groups : List (List Frame)}
    (hds : List.Forall₂ Holds ds (packetsBytes seq groups)) (hpack : Packable groups)
    (hseq : seq + groups.flatten.length < 2 ^ 64) (hframes : ∀ f ∈ groups.flatten, f.Complete) :
    ds.flatMap decoded = groups.flatten.filterMap Frame.message := by
  induction groups generalizing ds seq with
  | nil =>
      cases hds
      rfl
  | cons g groups ih =>
      cases hds with
      | @cons d _ ds _ hd hds =>
          simp only [List.flatten_cons, List.length_append, List.mem_append] at hseq hframes
          have hdecoded := decoded_eq hd (by omega) (hpack g List.mem_cons_self).2
            fun f hf => hframes f (.inl hf)
          have hrest := ih hds (fun g' hg' => hpack g' (.tail _ hg')) (by omega)
            fun f hf => hframes f (.inr hf)
          rw [List.flatMap_cons, List.flatten_cons, List.filterMap_append, hdecoded, hrest]

end Datagram

section Accepted

variable {ps sent : List Packet} {lo hi : Nat}

/-- The packets of a partition are different. -/
theorem Partition.nodup (h : Partition ps lo hi) : ps.Nodup := by
  induction ps generalizing lo with
  | nil => exact List.nodup_nil
  | cons p ps ih =>
      obtain ⟨rfl, hcount, hrest⟩ := h
      refine List.nodup_cons.mpr ⟨fun hp => ?_, ih hrest⟩
      have := (hrest.bounds.2 p hp).1
      omega

/-- Packets that are accepted one by one are all accepted. -/
theorem accepted_eq_self {t : Tracker}
    (h : ∀ before p after, ps = before ++ p :: after → ((t.run before).receive p).2 = true) :
    t.accepted ps = ps := by
  induction ps generalizing t with
  | nil => rfl
  | cons p ps ih =>
      have hp : (t.receive p).2 = true := h [] p ps rfl
      rw [Tracker.accepted, if_pos hp, ih fun before q after heq => ?_]
      exact h (p :: before) q after (by rw [heq, List.cons_append])

/-- In every order that begins with the first packet and has no long jump, the packets of a sender
are all accepted. -/
theorem accepted_perm (hsent : Partition sent lo hi) (hlo : 1 ≤ lo) (hhi : hi < 2 ^ 64)
    (hperm : ps.Perm sent) (hfirst : ps.head? = sent.head?) (hshort : Tracker.NoLongJump ps) :
    Tracker.initial.accepted ps = ps := by
  refine accepted_eq_self ?_
  intro before p after hsame
  subst hsame
  have hmem : ∀ q ∈ before ++ p :: after, q ∈ sent := fun q hq => hperm.mem_iff.mp hq
  refine (Tracker.accept_iff hsent hlo hhi (fun q hq => hmem q (by simp [hq])) (hmem p (by simp))
    ?_ ?_).mpr ?_
  · intro b q a heq
    exact hshort b q (a ++ after) (by rw [List.append_cons, heq]; simp)
  · intro p₀ hp₀
    -- the first packet has the lowest number
    have hhead : sent.head? = some p₀ := by
      rw [← hfirst]
      cases before with
      | nil => cases hp₀
      | cons _ _ => exact hp₀
    cases sent with
    | nil => cases hhead
    | cons q sent =>
        cases hhead
        have hle := (hsent.bounds.2 p (hmem p (by simp))).1
        rwa [← hsent.1] at hle
  · have hnodup := hperm.nodup_iff.mpr hsent.nodup
    intro hp
    exact (List.nodup_append.mp hnodup).2.2 p hp p List.mem_cons_self rfl

/-- The packets of a sender are accepted in order. -/
theorem accepted_in_order {t : Tracker} (h : Partition ps lo hi) (hhi : hi < 2 ^ 64)
    (hnext : t.highSeq = 0 ∨ t.highSeq = lo) : t.accepted ps = ps := by
  induction ps generalizing lo t with
  | nil => rfl
  | cons p ps ih =>
      obtain ⟨rfl, _, hrest⟩ := h
      have hle := hrest.bounds.1
      obtain ⟨t', ht, hnext', _⟩ := follows_v2.step t p hnext (by omega)
      rw [Tracker.accepted, ht, if_pos rfl, ih hrest (.inr hnext')]

end Accepted

/-- A receiver that accepts every datagram applies all messages. -/
theorem run_handle {β : Type u} {step : β → Message → Option β} {c : Counters Tracker}
    {b b' : β} {ds : List Datagram} (hlong : ∀ d ∈ ds, Mold.kHeaderSize ≤ d.n)
    (haccept : c.tracker.accepted (ds.map Datagram.header) = ds.map Datagram.header)
    (hrun : run step b (ds.flatMap Datagram.decoded) = some b') :
    ∃ c', run (handle Tracker.receive step) (c, b) ds = some (c', b') := by
  induction ds generalizing c b with
  | nil =>
      obtain rfl := Option.some.inj hrun
      exact ⟨c, rfl⟩
  | cons d ds ih =>
      rw [List.flatMap_cons, run_append, Option.bind_eq_some_iff] at hrun
      obtain ⟨b₁, hb₁, hrest⟩ := hrun
      rw [List.map_cons, Tracker.accepted] at haccept
      cases hreceive : c.tracker.receive d.header with
      | mk t accept =>
          rw [hreceive] at haccept
          cases accept with
          | false =>
              -- fewer packets would be accepted than there are
              have hle := (Tracker.accepted_sublist t (ds.map Datagram.header)).length_le
              have hlen := congrArg List.length haccept
              simp only [Bool.false_eq_true, if_false, List.length_cons] at hlen
              omega
          | true =>
              simp only [if_true, List.cons.injEq, true_and] at haccept
              obtain ⟨c', hc'⟩ := ih (c := ⟨t, c.packets + 1, c.messages + d.messages.length⟩)
                (fun d' hd' => hlong d' (.tail _ hd')) haccept hrest
              refine ⟨c', ?_⟩
              have hn := Nat.not_lt.mpr (hlong d List.mem_cons_self)
              rw [run_cons, handle, if_neg hn, hreceive]
              simp only [hb₁, Option.bind_eq_bind, Option.bind_some]
              exact hc'

end FeedHandler.Receiver
