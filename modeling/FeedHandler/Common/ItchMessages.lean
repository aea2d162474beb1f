import FeedHandler.Common.ItchReader

/-!
# ITCH messages

The five order messages of `include/common/itch_messages.hpp` with their parsers, and the type of
messages the dispatch loops of the receivers and of `src/v3/main.cpp` tell apart.
-/

namespace FeedHandler.Itch

open Bytes

/-- `AddOrder`. The side is the character of the message. -/
structure AddOrder where
  stockLocate : UInt16
  trackingNumber : UInt16
  timestampNs : UInt64
  orderRef : UInt64
  side : UInt8
  shares : UInt32
  stock : Vector UInt8 8
  price : UInt32
  deriving DecidableEq

/-- `OrderExecuted`. -/
structure OrderExecuted where
  stockLocate : UInt16
  trackingNumber : UInt16
  timestampNs : UInt64
  orderRef : UInt64
  executedShares : UInt32
  matchNumber : UInt64
  deriving DecidableEq

/-- `OrderCancel`. -/
structure OrderCancel where
  stockLocate : UInt16
  trackingNumber : UInt16
  timestampNs : UInt64
  orderRef : UInt64
  canceledShares : UInt32
  deriving DecidableEq

/-- `OrderDelete`. -/
structure OrderDelete where
  stockLocate : UInt16
  trackingNumber : UInt16
  timestampNs : UInt64
  orderRef : UInt64
  deriving DecidableEq

/-- `OrderReplace`. -/
structure OrderReplace where
  stockLocate : UInt16
  trackingNumber : UInt16
  timestampNs : UInt64
  originalOrderRef : UInt64
  newOrderRef : UInt64
  shares : UInt32
  price : UInt32
  deriving DecidableEq

/-- `AddOrder::parse`. -/
def AddOrder.parse (wire : Nat → UInt8) : AddOrder where
  stockLocate := .ofNat (readBe16 (advance wire 1))
  trackingNumber := .ofNat (readBe16 (advance wire 3))
  timestampNs := .ofNat (readBe48 (advance wire 5))
  orderRef := .ofNat (readBe64 (advance wire 11))
  side := wire 19
  shares := .ofNat (readBe32 (advance wire 20))
  stock := Vector.ofFn fun i => wire (24 + i)
  price := .ofNat (readBe32 (advance wire 32))

/-- `OrderExecuted::parse`. -/
def OrderExecuted.parse (wire : Nat → UInt8) : OrderExecuted where
  stockLocate := .ofNat (readBe16 (advance wire 1))
  trackingNumber := .ofNat (readBe16 (advance wire 3))
  timestampNs := .ofNat (readBe48 (advance wire 5))
  orderRef := .ofNat (readBe64 (advance wire 11))
  executedShares := .ofNat (readBe32 (advance wire 19))
  matchNumber := .ofNat (readBe64 (advance wire 23))

/-- `OrderCancel::parse`. -/
def OrderCancel.parse (wire : Nat → UInt8) : OrderCancel where
  stockLocate := .ofNat (readBe16 (advance wire 1))
  trackingNumber := .ofNat (readBe16 (advance wire 3))
  timestampNs := .ofNat (readBe48 (advance wire 5))
  orderRef := .ofNat (readBe64 (advance wire 11))
  canceledShares := .ofNat (readBe32 (advance wire 19))

/-- `OrderDelete::parse`. -/
def OrderDelete.parse (wire : Nat → UInt8) : OrderDelete where
  stockLocate := .ofNat (readBe16 (advance wire 1))
  trackingNumber := .ofNat (readBe16 (advance wire 3))
  timestampNs := .ofNat (readBe48 (advance wire 5))
  orderRef := .ofNat (readBe64 (advance wire 11))

/-- `OrderReplace::parse`. -/
def OrderReplace.parse (wire : Nat → UInt8) : OrderReplace where
  stockLocate := .ofNat (readBe16 (advance wire 1))
  trackingNumber := .ofNat (readBe16 (advance wire 3))
  timestampNs := .ofNat (readBe48 (advance wire 5))
  originalOrderRef := .ofNat (readBe64 (advance wire 11))
  newOrderRef := .ofNat (readBe64 (advance wire 19))
  shares := .ofNat (readBe32 (advance wire 27))
  price := .ofNat (readBe32 (advance wire 31))

/-! `kWireSize` of each message, with its type byte. -/

def AddOrder.kWireSize : Nat := 36

def OrderExecuted.kWireSize : Nat := 31

def OrderCancel.kWireSize : Nat := 23

def OrderDelete.kWireSize : Nat := 19

def OrderReplace.kWireSize : Nat := 35

/-- `MsgType`: the types of order messages. -/
def kOrderTypes : List UInt8 := [0x41, 0x45, 0x58, 0x44, 0x55]

/-- A decoded order message. -/
inductive Message where
  | addOrder (m : AddOrder)
  | orderExecuted (m : OrderExecuted)
  | orderCancel (m : OrderCancel)
  | orderDelete (m : OrderDelete)
  | orderReplace (m : OrderReplace)
  deriving DecidableEq

namespace Message

/-- The decoding part of the dispatch `switch (msg[0])`; other types are skipped. -/
def decode (msg : Nat → UInt8) : Option Message :=
  match msg 0 with
  | 0x41 => some (.addOrder (.parse msg))
  | 0x45 => some (.orderExecuted (.parse msg))
  | 0x58 => some (.orderCancel (.parse msg))
  | 0x44 => some (.orderDelete (.parse msg))
  | 0x55 => some (.orderReplace (.parse msg))
  | _ => none

/-- The number of bytes that are decoded of a message of a type. -/
def wireSize (type : UInt8) : Nat :=
  match type with
  | 0x41 => 36
  | 0x45 => 31
  | 0x58 => 23
  | 0x44 => 19
  | 0x55 => 35
  | _ => 1

/-- The book a message is dispatched to. -/
def stockLocate : Message → Nat
  | .addOrder m => m.stockLocate.toNat
  | .orderExecuted m => m.stockLocate.toNat
  | .orderCancel m => m.stockLocate.toNat
  | .orderDelete m => m.stockLocate.toNat
  | .orderReplace m => m.stockLocate.toNat

/-- The references a message names or introduces. -/
def refs : Message → List Nat
  | .addOrder m => [m.orderRef.toNat]
  | .orderExecuted m => [m.orderRef.toNat]
  | .orderCancel m => [m.orderRef.toNat]
  | .orderDelete m => [m.orderRef.toNat]
  | .orderReplace m => [m.originalOrderRef.toNat, m.newOrderRef.toNat]

/-- The reference an execution, cancellation, deletion or replacement names. -/
def target : Message → Option Nat
  | .addOrder _ => none
  | .orderExecuted m => some m.orderRef.toNat
  | .orderCancel m => some m.orderRef.toNat
  | .orderDelete m => some m.orderRef.toNat
  | .orderReplace m => some m.originalOrderRef.toNat

/-- The quantity an execution or a cancellation takes. -/
def taken : Message → Option Nat
  | .orderExecuted m => some m.executedShares.toNat
  | .orderCancel m => some m.canceledShares.toNat
  | _ => none

/-- The reference an addition or a replacement introduces. -/
def introduced : Message → Option Nat
  | .addOrder m => some m.orderRef.toNat
  | .orderReplace m => some m.newOrderRef.toNat
  | _ => none

theorem mem_refs_iff {m : Message} {ref : Nat} :
    ref ∈ m.refs ↔ m.target = some ref ∨ m.introduced = some ref := by
  cases m <;> simp [refs, target, introduced, eq_comm]

theorem target_mem {m : Message} {ref : Nat} (hm : m.target = some ref) : ref ∈ m.refs :=
  mem_refs_iff.mpr (.inl hm)

section Decode

variable {p q : Nat → UInt8} {n : Nat}

theorem wire_size_pos (type : UInt8) : 0 < wireSize type := by
  unfold wireSize
  split <;> decide

theorem one_lt_wire_size {type : UInt8} (h : type ∈ kOrderTypes) : 1 < wireSize type := by
  have hall : kOrderTypes.all (fun type => decide (1 < wireSize type)) = true := rfl
  exact of_decide_eq_true (List.all_eq_true.mp hall type h)

theorem wire_size_other {type : UInt8} (h : type ∉ kOrderTypes) : wireSize type = 1 := by
  unfold wireSize
  split <;> first | rfl | exact absurd (by decide) h

/-- A message that is as long as its type says is decoded from its own bytes. -/
theorem decode_congr (h : ∀ i, i < n → p i = q i) (hn : wireSize (p 0) ≤ n) :
    decode p = decode q := by
  have hpos := wire_size_pos (p 0)
  have h16 : ∀ k, k + 2 ≤ n → readBe16 (advance p k) = readBe16 (advance q k) := fun k hk => by
    rw [readBe16, readBe16, slice_advance, slice_advance, slice_congr h hk]
  have h32 : ∀ k, k + 4 ≤ n → readBe32 (advance p k) = readBe32 (advance q k) := fun k hk => by
    rw [readBe32, readBe32, slice_advance, slice_advance, slice_congr h hk]
  have h64 : ∀ k, k + 8 ≤ n → readBe64 (advance p k) = readBe64 (advance q k) := fun k hk => by
    rw [readBe64, readBe64, slice_advance, slice_advance, slice_congr h hk]
  have h48 : 11 ≤ n → readBe48 (advance p 5) = readBe48 (advance q 5) := fun hk => by
    have hbyte : ∀ i, i < 6 → advance p 5 i = advance q 5 i := fun i hi => h _ (by omega)
    simp [readBe48, List.range_succ, hbyte]
  have htype := h 0 (by omega)
  unfold wireSize at hn
  unfold decode
  rw [← htype]
  split at hn
  next =>
    have hstock : ∀ i, i < 8 → p (24 + i) = q (24 + i) := fun i hi => h _ (by omega)
    simp (disch := omega) [AddOrder.parse, h16, h32, h64, h48, h 19, hstock]
  next => simp (disch := omega) [OrderExecuted.parse, h16, h32, h64, h48]
  next => simp (disch := omega) [OrderCancel.parse, h16, h32, h64, h48]
  next => simp (disch := omega) [OrderDelete.parse, h16, h64, h48]
  next => simp (disch := omega) [OrderReplace.parse, h16, h32, h64, h48]
  next => rfl

end Decode

/-! Messages given by the fields that the books read; the other fields are zero. -/

def add (locate : UInt16) (ref : UInt64) (side : UInt8) (shares price : UInt32) : Message :=
  .addOrder ⟨locate, 0, 0, ref, side, shares, .replicate 8 0, price⟩

def execute (locate : UInt16) (ref : UInt64) (shares : UInt32) : Message :=
  .orderExecuted ⟨locate, 0, 0, ref, shares, 0⟩

def delete (locate : UInt16) (ref : UInt64) : Message := .orderDelete ⟨locate, 0, 0, ref⟩

def replace (locate : UInt16) (ref newRef : UInt64) (shares price : UInt32) : Message :=
  .orderReplace ⟨locate, 0, 0, ref, newRef, shares, price⟩

end Message

/-- The bytes of a message in a feed. -/
def Message.wire : Message → List UInt8
  | .addOrder m => 0x41 :: (beBytes 2 m.stockLocate.toNat ++ beBytes 2 m.trackingNumber.toNat ++
      beBytes 6 m.timestampNs.toNat ++ beBytes 8 m.orderRef.toNat ++ [m.side] ++
      beBytes 4 m.shares.toNat ++ m.stock.toList ++ beBytes 4 m.price.toNat)
  | .orderExecuted m => 0x45 :: (beBytes 2 m.stockLocate.toNat ++
      beBytes 2 m.trackingNumber.toNat ++ beBytes 6 m.timestampNs.toNat ++
      beBytes 8 m.orderRef.toNat ++ beBytes 4 m.executedShares.toNat ++
      beBytes 8 m.matchNumber.toNat)
  | .orderCancel m => 0x58 :: (beBytes 2 m.stockLocate.toNat ++ beBytes 2 m.trackingNumber.toNat ++
      beBytes 6 m.timestampNs.toNat ++ beBytes 8 m.orderRef.toNat ++
      beBytes 4 m.canceledShares.toNat)
  | .orderDelete m => 0x44 :: (beBytes 2 m.stockLocate.toNat ++ beBytes 2 m.trackingNumber.toNat ++
      beBytes 6 m.timestampNs.toNat ++ beBytes 8 m.orderRef.toNat)
  | .orderReplace m => 0x55 :: (beBytes 2 m.stockLocate.toNat ++ beBytes 2 m.trackingNumber.toNat ++
      beBytes 6 m.timestampNs.toNat ++ beBytes 8 m.originalOrderRef.toNat ++
      beBytes 8 m.newOrderRef.toNat ++ beBytes 4 m.shares.toNat ++ beBytes 4 m.price.toNat)

theorem Message.length_wire (m : Message) :
    19 ≤ m.wire.length ∧ m.wire.length ≤ 36 ∧
      m.wire.length = Message.wireSize (fill m.wire (fun _ => 0) 0) := by
  cases m <;> simp [wire, fill, wireSize]

/-- A message as a frame. -/
def Message.frame (m : Message) : Frame := ⟨m.wire, by have := m.length_wire; omega⟩

/-- The order message that a frame carries, if any. -/
def Frame.message (f : Frame) : Option Message := Message.decode (fill f.payload fun _ => 0)

/-- A frame is as long as its type says. -/
def Frame.Complete (f : Frame) : Prop :=
  Message.wireSize (fill f.payload (fun _ => 0) 0) ≤ f.payload.length

instance (f : Frame) : Decidable f.Complete := inferInstanceAs (Decidable (_ ≤ _))

theorem Message.complete_frame (m : Message) : m.frame.Complete := m.length_wire.2.2.ge

/-- The message of a complete frame is decoded wherever its bytes stand. -/
theorem Frame.Complete.decode_eq {f : Frame} (h : f.Complete) {mem : Nat → UInt8} {addr : Nat}
    (hmem : slice mem addr f.payload.length = f.payload) :
    Message.decode (advance mem addr) = f.message := by
  refine (Message.decode_congr (fun i hi => ?_) h).symm
  have hbyte : (slice mem addr f.payload.length)[i]? = some (mem (addr + i)) := by
    simp [slice, hi]
  rw [hmem] at hbyte
  simp [fill, advance, List.getD_eq_getElem?_getD, hbyte]

/-- Where its bytes stand, a complete frame has room for the message of its type. -/
theorem Frame.Complete.wire_size_le {f : Frame} (h : f.Complete) {mem : Nat → UInt8} {addr : Nat}
    (hmem : slice mem addr f.payload.length = f.payload) :
    Message.wireSize (mem addr) ≤ f.payload.length := by
  have hpos : 0 < f.payload.length := (Message.wire_size_pos _).trans_le h
  have hbyte : (slice mem addr f.payload.length)[0]? = some (mem addr) := by simp [slice, hpos]
  rw [hmem] at hbyte
  simpa [Frame.Complete, fill, List.getD_eq_getElem?_getD, hbyte] using h

/-- The character `'B'`. -/
def kBid : UInt8 := 0x42

/-- A character stands for the bid side. -/
def isBid (side : UInt8) : Bool := decide (side = kBid)

end FeedHandler.Itch
