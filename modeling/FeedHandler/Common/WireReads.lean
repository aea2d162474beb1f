import FeedHandler.Common.ItchMessages
import FeedHandler.Foundations.Readers

/-!
# What the parsers read

The parsers of `include/common/itch_messages.hpp` and the dispatch switch as programs that read
bytes. `run_dispatch_at` says that they compute what `Message.decode` does, and
`mem_trace_parse_iff` that a parser reads the bytes behind the type byte up to the wire size of its
type, whatever they are.
-/

namespace FeedHandler.Itch

open Bytes

/-- `read_be16`. -/
def be16At (p : Nat) : Reader Nat := do return byteSwap 2 (leNat (← Reader.bytes p 2))

/-- `read_be32`. -/
def be32At (p : Nat) : Reader Nat := do return byteSwap 4 (leNat (← Reader.bytes p 4))

/-- `read_be48`. -/
def be48At (p : Nat) : Reader Nat :=
  (List.range 6).foldlM
    (fun v i => do return (v <<< 8) % 2 ^ 64 ||| (← Reader.byte (p + i)).toNat) 0

/-- `read_be64`. -/
def be64At (p : Nat) : Reader Nat := do return byteSwap 8 (leNat (← Reader.bytes p 8))

/-- `AddOrder::parse`. -/
def AddOrder.parseAt (wire : Nat) : Reader AddOrder := do
  let stockLocate ← be16At (wire + 1)
  let trackingNumber ← be16At (wire + 3)
  let timestampNs ← be48At (wire + 5)
  let orderRef ← be64At (wire + 11)
  let side ← Reader.byte (wire + 19)
  let shares ← be32At (wire + 20)
  let stock ← Reader.bytes (wire + 24) 8
  let price ← be32At (wire + 32)
  return { stockLocate := .ofNat stockLocate, trackingNumber := .ofNat trackingNumber,
           timestampNs := .ofNat timestampNs, orderRef := .ofNat orderRef, side,
           shares := .ofNat shares, stock := Vector.ofFn fun i => stock.getD i 0,
           price := .ofNat price }

/-- `OrderExecuted::parse`. -/
def OrderExecuted.parseAt (wire : Nat) : Reader OrderExecuted := do
  let stockLocate ← be16At (wire + 1)
  let trackingNumber ← be16At (wire + 3)
  let timestampNs ← be48At (wire + 5)
  let orderRef ← be64At (wire + 11)
  let executedShares ← be32At (wire + 19)
  let matchNumber ← be64At (wire + 23)
  return { stockLocate := .ofNat stockLocate, trackingNumber := .ofNat trackingNumber,
           timestampNs := .ofNat timestampNs, orderRef := .ofNat orderRef,
           executedShares := .ofNat executedShares, matchNumber := .ofNat matchNumber }

/-- `OrderCancel::parse`. -/
def OrderCancel.parseAt (wire : Nat) : Reader OrderCancel := do
  let stockLocate ← be16At (wire + 1)
  let trackingNumber ← be16At (wire + 3)
  let timestampNs ← be48At (wire + 5)
  let orderRef ← be64At (wire + 11)
  let canceledShares ← be32At (wire + 19)
  return { stockLocate := .ofNat stockLocate, trackingNumber := .ofNat trackingNumber,
           timestampNs := .ofNat timestampNs, orderRef := .ofNat orderRef,
           canceledShares := .ofNat canceledShares }

/-- `OrderDelete::parse`. -/
def OrderDelete.parseAt (wire : Nat) : Reader OrderDelete := do
  let stockLocate ← be16At (wire + 1)
  let trackingNumber ← be16At (wire + 3)
  let timestampNs ← be48At (wire + 5)
  let orderRef ← be64At (wire + 11)
  return { stockLocate := .ofNat stockLocate, trackingNumber := .ofNat trackingNumber,
           timestampNs := .ofNat timestampNs, orderRef := .ofNat orderRef }

/-- `OrderReplace::parse`. -/
def OrderReplace.parseAt (wire : Nat) : Reader OrderReplace := do
  let stockLocate ← be16At (wire + 1)
  let trackingNumber ← be16At (wire + 3)
  let timestampNs ← be48At (wire + 5)
  let originalOrderRef ← be64At (wire + 11)
  let newOrderRef ← be64At (wire + 19)
  let shares ← be32At (wire + 27)
  let price ← be32At (wire + 31)
  return { stockLocate := .ofNat stockLocate, trackingNumber := .ofNat trackingNumber,
           timestampNs := .ofNat timestampNs, originalOrderRef := .ofNat originalOrderRef,
           newOrderRef := .ofNat newOrderRef, shares := .ofNat shares, price := .ofNat price }

/-- The parser that the switch runs on a type. -/
def Message.parseAt (type : UInt8) (msg : Nat) : Reader (Option Message) :=
  match type with
  | 0x41 => do return some (.addOrder (← AddOrder.parseAt msg))
  | 0x45 => do return some (.orderExecuted (← OrderExecuted.parseAt msg))
  | 0x58 => do return some (.orderCancel (← OrderCancel.parseAt msg))
  | 0x44 => do return some (.orderDelete (← OrderDelete.parseAt msg))
  | 0x55 => do return some (.orderReplace (← OrderReplace.parseAt msg))
  | _ => return none

/-- The switch on `msg[0]` with the parser it chooses. -/
def Message.dispatchAt (msg : Nat) : Reader (Option Message) := do
  Message.parseAt (← Reader.byte msg) msg

section Reads

variable {mem : Nat → UInt8} {p a : Nat}

@[simp] theorem run_be16_at : (be16At p).run mem = readBe16 (advance mem p) := by
  simp [be16At, readBe16, slice_advance]

@[simp] theorem run_be32_at : (be32At p).run mem = readBe32 (advance mem p) := by
  simp [be32At, readBe32, slice_advance]

@[simp] theorem run_be48_at : (be48At p).run mem = readBe48 (advance mem p) := rfl

@[simp] theorem run_be64_at : (be64At p).run mem = readBe64 (advance mem p) := by
  simp [be64At, readBe64, slice_advance]

@[simp] theorem mem_trace_be16_iff : a ∈ (be16At p).trace mem ↔ p ≤ a ∧ a < p + 2 := by
  simp [be16At]

@[simp] theorem mem_trace_be32_iff : a ∈ (be32At p).trace mem ↔ p ≤ a ∧ a < p + 4 := by
  simp [be32At]

@[simp] theorem mem_trace_be48_iff : a ∈ (be48At p).trace mem ↔ p ≤ a ∧ a < p + 6 := by
  show a ∈ [p, p + 1, p + 2, p + 3, p + 4, p + 5] ↔ p ≤ a ∧ a < p + 6
  simp only [List.mem_cons, List.not_mem_nil, or_false]
  omega

@[simp] theorem mem_trace_be64_iff : a ∈ (be64At p).trace mem ↔ p ≤ a ∧ a < p + 8 := by
  simp [be64At]

theorem advance_advance (mem : Nat → UInt8) (p k : Nat) :
    advance (advance mem p) k = advance mem (p + k) := by
  funext i
  simp [advance, Nat.add_assoc]

@[simp] theorem AddOrder.run_parse_at : (AddOrder.parseAt p).run mem = .parse (advance mem p) := by
  simp [parseAt, parse, advance_advance, slice, advance, Nat.add_assoc]

@[simp] theorem OrderExecuted.run_parse_at :
    (OrderExecuted.parseAt p).run mem = .parse (advance mem p) := by
  simp [parseAt, parse, advance_advance]

@[simp] theorem OrderCancel.run_parse_at :
    (OrderCancel.parseAt p).run mem = .parse (advance mem p) := by
  simp [parseAt, parse, advance_advance]

@[simp] theorem OrderDelete.run_parse_at :
    (OrderDelete.parseAt p).run mem = .parse (advance mem p) := by
  simp [parseAt, parse, advance_advance]

@[simp] theorem OrderReplace.run_parse_at :
    (OrderReplace.parseAt p).run mem = .parse (advance mem p) := by
  simp [parseAt, parse, advance_advance]

/-- The switch computes the decoded message. -/
theorem Message.run_dispatch_at :
    (Message.dispatchAt p).run mem = Message.decode (advance mem p) := by
  have hbyte : advance mem p 0 = mem p := rfl
  rw [dispatchAt, Reader.run_step, Reader.run_byte]
  unfold parseAt decode
  rw [hbyte]
  generalize mem p = type
  split <;> simp

/-- A parser reads every byte behind the type byte up to the wire size, and no other. -/
theorem Message.mem_trace_parse_iff {type : UInt8} :
    a ∈ (Message.parseAt type p).trace mem ↔ p + 1 ≤ a ∧ a < p + Message.wireSize type := by
  unfold parseAt wireSize
  split
  next =>
    simp [AddOrder.parseAt]
    omega
  next =>
    simp [OrderExecuted.parseAt]
    omega
  next =>
    simp [OrderCancel.parseAt]
    omega
  next =>
    simp [OrderDelete.parseAt]
    omega
  next =>
    simp [OrderReplace.parseAt]
    omega
  next => simp

/-- The switch and the parser it chooses read below a bound if the message does not reach it. -/
theorem Message.trace_dispatch_lt_iff {n : Nat} :
    (∀ a ∈ (Message.dispatchAt p).trace mem, a < n) ↔ p + Message.wireSize (mem p) ≤ n := by
  have hpos := wire_size_pos (mem p)
  simp only [dispatchAt, Reader.trace_step, Reader.run_byte, Reader.trace_byte,
    List.mem_append, List.mem_singleton, mem_trace_parse_iff]
  constructor
  · intro h
    -- the last byte of the message is read, by the switch or by the parser
    have hlast := h (p + wireSize (mem p) - 1) (by omega)
    omega
  · intro h a ha
    omega

end Reads

end FeedHandler.Itch
