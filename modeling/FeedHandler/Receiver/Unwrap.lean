import FeedHandler.Receiver.V1Tracker
import FeedHandler.Common.ItchReader

/-!
# Datagrams at the receivers

The header decode and the unwrap loop that the three receivers share, over the receive buffer and
the received length; the tracking block is a parameter. Bytes of the buffer behind the received
length are whatever earlier datagrams left there.
-/

namespace FeedHandler.Receiver

open Bytes Itch

/-- A received datagram: the receive buffer and the length `n` that was received. -/
structure Datagram where
  buf : Nat → UInt8
  n : Nat

namespace Datagram

/-- `seq` and `count`. -/
def header (d : Datagram) : Packet := ⟨readBe64 (advance d.buf 10), readBe16 (advance d.buf 18)⟩

/-- The unwrap loop: offset and length of every message it dispatches, over `count` rounds from
`off` on. -/
def unwrap (d : Datagram) : Nat → Nat → List (Nat × Nat)
  | 0, _ => []
  | count + 1, off =>
      if off + 2 > d.n then []
      else
        let len := readBe16 (advance d.buf off)
        if off + 2 + len > d.n then []
        else (off + 2, len) :: unwrap d count (off + 2 + len)

/-- The messages the loop visits in an accepted datagram. -/
def messages (d : Datagram) : List (Nat × Nat) := d.unwrap d.header.count Mold.kHeaderSize

/-- The bytes of the visited messages. -/
def payloads (d : Datagram) : List (List UInt8) :=
  d.messages.map fun m => slice d.buf m.1 m.2

/-- The datagram carries a byte string. -/
def Holds (d : Datagram) (bytes : List UInt8) : Prop :=
  d.n = bytes.length ∧ slice d.buf 0 bytes.length = bytes

end Datagram

/-- The variables of a receiver, apart from its books. The counts are left unbounded: with a packet
`packets` grows by one and `messages` by less than `2 ^ 16`. -/
structure Counters (τ : Type) where
  tracker : τ
  packets : Nat
  messages : Nat

section Receive

variable {τ : Type} (receive : τ → Packet → τ × Bool)

/-- One datagram: the variables after it and the bytes of the messages dispatched. Shorter
datagrams than a header are skipped. -/
def onDatagram (c : Counters τ) (d : Datagram) : Counters τ × List (List UInt8) :=
  if d.n < Mold.kHeaderSize then (c, [])
  else
    match receive c.tracker d.header with
    | (t, true) => (⟨t, c.packets + 1, c.messages + d.messages.length⟩, d.payloads)
    | (t, false) => (⟨t, c.packets + 1, c.messages⟩, [])

/-- A sequence of datagrams. -/
def onDatagrams (c : Counters τ) : List Datagram → Counters τ × List (List UInt8)
  | [] => (c, [])
  | d :: ds =>
      let (c', msgs) := onDatagram receive c d
      let (c'', msgs') := onDatagrams c' ds
      (c'', msgs ++ msgs')

end Receive

end FeedHandler.Receiver
