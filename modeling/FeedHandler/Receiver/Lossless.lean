import FeedHandler.Receiver.Losses
import FeedHandler.Receiver.OrderIndependence

/-!
# Deliveries that lose nothing

A network that repeats and reorders packets, but brings each at least once. The v2 and v3 receivers
apply each packet at its first delivery, so they apply all messages of the file once
(`Carried.applied_all`) and report no loss (`Carried.no_loss`).
-/

namespace FeedHandler.Receiver

open Itch Runs Sender

/-- Every sequence number of a file was delivered, the first one first. -/
structure Covering (frames : List Frame) (ds : List Datagram) : Prop where
  first : ∃ p ∈ (headers ds).head?, p.seq = 1
  covers : ∀ n, 1 ≤ n → n ≤ frames.length → ∃ p ∈ headers ds, p.Covers n

namespace Tracker

/-- What is accepted of two parts of a delivery. -/
theorem accepted_append (t : Tracker) (ps qs : List Packet) :
    t.accepted (ps ++ qs) = t.accepted ps ++ (t.run ps).accepted qs := by
  induction ps generalizing t with
  | nil => rfl
  | cons p ps ih =>
      rw [List.cons_append, accepted, accepted, ih, run_cons]
      split
      · rfl
      · rfl

/-- Every delivered packet is accepted if the first one has the lowest number. -/
theorem mem_accepted {sent ps : List Packet} {lo hi : Nat} (hsent : Partition sent lo hi)
    (hlo : 1 ≤ lo) (hhi : hi < 2 ^ 64) (hdel : ∀ q ∈ ps, q ∈ sent) (hshort : NoLongJump ps)
    (hfirst : ∀ p₀ ∈ ps.head?, p₀.seq = lo) {p : Packet} (hp : p ∈ ps) :
    p ∈ initial.accepted ps := by
  obtain ⟨before, after, rfl, hnew⟩ := List.eq_append_cons_of_mem hp
  have hle := (hsent.bounds.2 p (hdel p hp)).1
  have haccept : ((initial.run before).receive p).2 = true := by
    refine (accept_iff hsent hlo hhi (fun q hq => hdel q (List.mem_append_left _ hq)) (hdel p hp) ?_
      ?_).mpr hnew
    · intro b q a heq
      exact hshort b q (a ++ after) (by rw [List.append_cons, heq]; simp)
    · intro p₀ hp₀
      have hhead : p₀ ∈ (before ++ p :: after).head? := by cases before <;> simp_all
      rwa [hfirst p₀ hhead]
  rw [accepted_append, accepted, if_pos haccept]
  exact List.mem_append_right _ List.mem_cons_self

end Tracker

section Lossless

variable {file : List UInt8} {frames : List Frame} {ds : List Datagram}
  {sent : List (List UInt8)}

/-- A delivery that covers a file brings every packet. -/
theorem Packets.delivered (h : Packets frames sent)
    (hds : ∀ d ∈ ds, Mold.kHeaderSize ≤ d.n → ∃ bytes ∈ sent, d.Holds bytes)
    (hcover : Covering frames ds) : ∀ p ∈ sent.map packetOf, p ∈ headers ds := by
  intro p hp
  obtain ⟨hlo, hcount, hhi⟩ := h.part.bounds.2 p hp
  obtain ⟨q, hq, hqle, hqlt⟩ := hcover.covers p.seq hlo (by omega)
  rcases h.part.apart hp (h.headers_mem hds q hq) with hsame | hpq | hqp
  · exact hsame ▸ hq
  · omega
  · omega

/-- The headers of the datagrams that are applied are those of the packets of the file. -/
theorem Packets.accepted_perm (h : Packets frames sent)
    (hds : ∀ d ∈ ds, Mold.kHeaderSize ≤ d.n → ∃ bytes ∈ sent, d.Holds bytes)
    (hcover : Covering frames ds) (hshort : Tracker.NoLongJump (headers ds)) :
    ((applied Tracker.receive .initial ds).map Datagram.header).Perm (sent.map packetOf) := by
  have hmem := h.headers_mem hds
  have hend := h.short
  have hbounds : ∀ p ∈ headers ds, 1 ≤ p.count ∧ p.seq + p.count < 2 ^ 64 := by
    intro p hp
    obtain ⟨_, hcount, hhi⟩ := h.part.bounds.2 p (hmem p hp)
    omega
  rw [applied_headers, List.perm_ext_iff_of_nodup (accepted_nodup hbounds) h.part.nodup]
  intro p
  constructor
  · exact fun hp => hmem p ((Tracker.accepted_sublist _ _).subset hp)
  · intro hp
    refine Tracker.mem_accepted h.part le_rfl h.short hmem hshort (fun p₀ hp₀ => ?_)
      (h.delivered hds hcover p hp)
    obtain ⟨p₁, hp₁, hone⟩ := hcover.first
    rwa [← Option.some.inj (hp₁.symm.trans hp₀)]

/-- Datagrams with the headers of the file's packets carry the messages of the file. -/
theorem Packets.decoded_perm (h : Packets frames sent)
    (hds : ∀ d ∈ ds, ∃ bytes ∈ sent, d.Holds bytes)
    (hperm : (ds.map Datagram.header).Perm (sent.map packetOf)) :
    (ds.flatMap Datagram.decoded).Perm (frames.filterMap Frame.message) := by
  obtain ⟨packets, hpackets, hall⟩ := exists_bytes hds
  obtain ⟨_, hheader, hdecoded⟩ :=
    Datagram.read_packets hpackets fun bytes hbytes => h.packet bytes (hall bytes hbytes)
  rw [hheader] at hperm
  have hnodup : packets.Nodup := List.Nodup.of_map _ (hperm.nodup_iff.mpr h.part.nodup)
  have hsame : packets.Perm sent := by
    rw [List.perm_ext_iff_of_nodup hnodup h.nodup]
    intro bytes
    constructor
    · exact hall bytes
    · intro hbytes
      obtain ⟨bytes', hbytes', heq⟩ :=
        List.mem_map.mp (hperm.mem_iff.mpr (List.mem_map_of_mem hbytes))
      have hinj := List.inj_on_of_nodup_map h.part.nodup (hall bytes' hbytes') hbytes heq
      exact hinj ▸ hbytes'
  rw [hdecoded, ← h.decoded]
  exact hsame.flatMap_right _

/-- The v2 and v3 receivers apply every message of a covering delivery once. -/
theorem Carried.applied_all (h : Carried file frames ds) (hcover : Covering frames ds)
    (hshort : Tracker.NoLongJump (headers ds)) :
    (processed Tracker.receive .initial ds).Perm (frames.filterMap Frame.message) := by
  obtain ⟨sent, hsent, hds⟩ := h.packets
  exact hsent.decoded_perm (fun d hd => hds d (mem_applied hd).1 (mem_applied hd).2)
    (hsent.accepted_perm hds hcover hshort)

/-- They report all messages and no loss. -/
theorem Carried.no_loss (h : Carried file frames ds) (hcover : Covering frames ds)
    (hshort : Tracker.NoLongJump (headers ds)) :
    ((applied Tracker.receive .initial ds).map fun d => d.messages.length).sum = frames.length ∧
      (Tracker.initial.run (headers ds)).trulyLost = 0 := by
  obtain ⟨sent, hsent, hds⟩ := h.packets
  obtain ⟨p, ps, hheaders, hone⟩ : ∃ p ps, headers ds = p :: ps ∧ p.seq = 1 := by
    obtain ⟨p, hp, hone⟩ := hcover.first
    obtain ⟨ps, hps⟩ := List.head?_eq_some_iff.mp hp
    exact ⟨p, ps, hps, hone⟩
  have hreport := h.report hheaders hshort
  have hcarried : ∀ d ∈ applied Tracker.receive .initial ds, ∃ bytes ∈ sent, d.Holds bytes :=
    fun d hd => hds d (mem_applied hd).1 (mem_applied hd).2
  have hsum := hsent.sum_messages hcarried
  have hall := hsent.part.messages
  have hperm := hsent.accepted_perm hds hcover hshort
  have hcounts : Tracker.messages ((applied Tracker.receive .initial ds).map Datagram.header) =
      Tracker.messages (sent.map packetOf) := (hperm.map _).sum_eq
  -- the mark is not behind the last packet of the file
  have hmem := hsent.headers_mem hds
  rw [hheaders] at hmem hshort
  obtain ⟨_, hsettled⟩ := Tracker.delivery_spec hsent.part le_rfl hsent.short hmem hshort
  obtain ⟨q, hq, _, htop⟩ := hsettled.top
  have hend := (hsent.part.bounds.2 q (hmem q hq)).2.2
  rw [hheaders] at hreport ⊢
  omega

end Lossless

end FeedHandler.Receiver
