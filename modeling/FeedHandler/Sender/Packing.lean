import FeedHandler.Foundations.Packing
import FeedHandler.Receiver.RoundTrip

/-!
# The sender packs well

The batching loop of `src/common/replay_sender.cpp` is greedy packing. `fewest_packets` says that no
other way to put the frames of a file into packets of consecutive frames needs fewer packets or
fewer bytes.
-/

namespace FeedHandler.Sender

open Itch Packing

/-- A packet of frames is not longer than `kMaxPacketSize`. -/
def FitsPacket (g : List Frame) : Prop :=
  Mold.kHeaderSize + (framesBytes g).length ≤ kMaxPacketSize

instance : DecidablePred FitsPacket := fun _ => inferInstanceAs (Decidable (_ ≤ _))

/-- The sender cuts greedily. -/
theorem cut_eq_greedy (cur frames : List Frame) :
    cut cur frames = greedy FitsPacket cur frames := by
  induction frames generalizing cur with
  | nil => cases cur <;> rfl
  | cons f frames ih =>
      have hfits : FitsPacket (cur ++ [f]) ↔ ¬ Mold.kHeaderSize + (framesBytes cur).length +
          (2 + f.payload.length) > kMaxPacketSize := by
        simp only [FitsPacket, frames_bytes_append, frames_bytes_cons, frames_bytes_nil,
          List.append_nil, List.length_append, Frame.length_bytes]
        omega
      rw [cut_cons, greedy_cons, ih, ih]
      by_cases h : FitsPacket (cur ++ [f])
      · rw [if_neg (hfits.mp h), if_pos h]
      · rw [if_pos (not_not.mp (mt hfits.mpr h)), if_neg h]

/-- A part of a packet is not longer. -/
theorem FitsPacket.part {g g' : List Frame} (hpart : g' <:+: g) (h : FitsPacket g) :
    FitsPacket g' := by
  obtain ⟨front, back, rfl⟩ := hpart
  simp only [FitsPacket, frames_bytes_append, List.length_append] at h ⊢
  omega

/-- The bytes of packets are those of the frames and the headers. -/
theorem length_packets_bytes (seq : Nat) (gs : List (List Frame)) :
    (packetsBytes seq gs).length = gs.length ∧ ((packetsBytes seq gs).map List.length).sum =
      Mold.kHeaderSize * gs.length + (framesBytes gs.flatten).length := by
  induction gs generalizing seq with
  | nil => exact ⟨rfl, rfl⟩
  | cons g gs ih =>
      obtain ⟨hlen, hsum⟩ := ih (seq + g.length)
      refine ⟨congrArg Nat.succ hlen, ?_⟩
      rw [packetsBytes, List.map_cons, List.sum_cons, hsum, length_packet_bytes, List.length_cons,
        List.flatten_cons, frames_bytes_append, List.length_append, Nat.mul_succ]
      omega

/-- No other way to put the frames of a file into packets of consecutive frames, none longer than
`kMaxPacketSize`, needs fewer packets or fewer bytes. An empty file, which the reader refuses, has
no frames. -/
theorem fewest_packets {file : List UInt8} {frames : List Frame} (hsize : file.length < 2 ^ 63)
    (hframes : IsFrames file frames) (hlen : ∀ f ∈ frames, f.payload.length ≤ 1378)
    (stale : PacketBuffer) :
    ∃ s, ReplaySender.replay stale ⟨file, 0, hsize⟩ = some s ∧
      ∀ gs : List (List Frame), gs.flatten = frames →
        (∀ g ∈ gs, ∀ seq, (packetBytes seq g).length ≤ kMaxPacketSize) →
        s.sent.length ≤ gs.length ∧
          (s.sent.map List.length).sum ≤ ((packetsBytes 1 gs).map List.length).sum := by
  obtain ⟨s, hs, hsent, _⟩ := Receiver.replay_file hsize hframes hlen stale
  refine ⟨s, hs, fun gs hflat hgs => ?_⟩
  have hfits : ∀ g ∈ gs, FitsPacket g := by
    intro g hg
    have hle := hgs g hg 1
    rwa [length_packet_bytes] at hle
  have hfewest := length_greedy_le (fun _ _ hpart h => h.part hpart) hflat hfits
  rw [← cut_eq_greedy] at hfewest
  obtain ⟨hcount, hbytes⟩ := length_packets_bytes 1 (cut [] frames)
  obtain ⟨hcount', hbytes'⟩ := length_packets_bytes 1 gs
  rw [flatten_cut, List.nil_append] at hbytes
  rw [hflat] at hbytes'
  rw [hsent, hcount, hbytes, hbytes']
  exact ⟨hfewest, Nat.add_le_add_right (Nat.mul_le_mul_left _ hfewest) _⟩

/-- It puts two frames into no more than one packet each takes. -/
theorem fewest_packets_two : ∃ s,
    ReplaySender.replay ⟨List.replicate kMaxPacketSize 0, List.length_replicate⟩
      ⟨[0, 1, 68, 0, 0], 0, by simp⟩ = some s ∧ s.sent.length ≤ 2 ∧
      (s.sent.map List.length).sum ≤ 45 := by
  let f₁ : Frame := ⟨[68], by simp⟩
  let f₂ : Frame := ⟨[], by simp⟩
  have hframes : IsFrames [0, 1, 68, 0, 0] [f₁, f₂] := ⟨[], by decide, .inl (by simp)⟩
  obtain ⟨s, hs, hbest⟩ := fewest_packets (by simp) hframes (by simp [f₁, f₂])
    ⟨List.replicate kMaxPacketSize 0, List.length_replicate⟩
  refine ⟨s, hs, ?_⟩
  obtain ⟨hcount, hbytes⟩ := hbest [[f₁], [f₂]] rfl
    (by simp [f₁, f₂, length_packet_bytes, kMaxPacketSize, Mold.kHeaderSize])
  exact ⟨hcount, hbytes.trans (by simp [f₁, f₂, packetsBytes, length_packet_bytes,
    Mold.kHeaderSize])⟩

end FeedHandler.Sender
