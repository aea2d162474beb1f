import FeedHandler.Common.ItchMessages
import FeedHandler.Foundations.Layouts

/-!
# Wire layout of the order messages

The fields of the five order messages with their widths on the wire. `Lossless` says that the parser
of a message reads them one behind the other, from the byte behind the type to the end, so that no
byte is lost or read twice. `parsers_lossless` is the statement for all five.
-/

namespace FeedHandler.Itch

open Bytes

/-- The fields of an `AddOrder` in the order of the wire. The symbol counts as one number. -/
def AddOrder.fields (m : AddOrder) : List Field :=
  [⟨2, m.stockLocate.toNat⟩, ⟨2, m.trackingNumber.toNat⟩, ⟨6, m.timestampNs.toNat⟩,
    ⟨8, m.orderRef.toNat⟩, ⟨1, m.side.toNat⟩, ⟨4, m.shares.toNat⟩, ⟨8, beNat m.stock.toList⟩,
    ⟨4, m.price.toNat⟩]

/-- The fields of an `OrderExecuted`. -/
def OrderExecuted.fields (m : OrderExecuted) : List Field :=
  [⟨2, m.stockLocate.toNat⟩, ⟨2, m.trackingNumber.toNat⟩, ⟨6, m.timestampNs.toNat⟩,
    ⟨8, m.orderRef.toNat⟩, ⟨4, m.executedShares.toNat⟩, ⟨8, m.matchNumber.toNat⟩]

/-- The fields of an `OrderCancel`. -/
def OrderCancel.fields (m : OrderCancel) : List Field :=
  [⟨2, m.stockLocate.toNat⟩, ⟨2, m.trackingNumber.toNat⟩, ⟨6, m.timestampNs.toNat⟩,
    ⟨8, m.orderRef.toNat⟩, ⟨4, m.canceledShares.toNat⟩]

/-- The fields of an `OrderDelete`. -/
def OrderDelete.fields (m : OrderDelete) : List Field :=
  [⟨2, m.stockLocate.toNat⟩, ⟨2, m.trackingNumber.toNat⟩, ⟨6, m.timestampNs.toNat⟩,
    ⟨8, m.orderRef.toNat⟩]

/-- The fields of an `OrderReplace`. -/
def OrderReplace.fields (m : OrderReplace) : List Field :=
  [⟨2, m.stockLocate.toNat⟩, ⟨2, m.trackingNumber.toNat⟩, ⟨6, m.timestampNs.toNat⟩,
    ⟨8, m.originalOrderRef.toNat⟩, ⟨8, m.newOrderRef.toNat⟩, ⟨4, m.shares.toNat⟩,
    ⟨4, m.price.toNat⟩]

/-- A parser of messages of `size` bytes loses and aliases no byte behind the type byte: the fields
stand one behind the other and cover the bytes, they can be written back, and the message stands for
its bytes. -/
structure Lossless {α : Type} (parse : (Nat → UInt8) → α) (fields : α → List Field)
    (timestampNs : α → UInt64) (size : Nat) : Prop where
  tiles : ∀ p, Tiles p 1 (fields (parse p))
  covers : ∀ p, 1 + ((fields (parse p)).map Field.width).sum = size
  writes : ∀ p, (fields (parse p)).flatMap Field.bytes = slice p 1 (size - 1)
  faithful : ∀ p q, parse p = parse q ↔ ∀ i, 1 ≤ i → i < size → p i = q i
  timestamp : ∀ p, (timestampNs (parse p)).toNat < 2 ^ 48

section Parsers

variable {p : Nat → UInt8} {k : Nat}

/-! The parsed fields are the numbers on the wire. -/

theorem stored_be16 : (UInt16.ofNat (readBe16 (advance p k))).toNat = beNat (slice p k 2) := by
  have hlt := be_nat_lt (slice p k 2)
  rw [length_slice] at hlt
  rw [read_be16_eq, UInt16.toNat_ofNat', Nat.mod_eq_of_lt (by omega)]

theorem stored_be32 : (UInt32.ofNat (readBe32 (advance p k))).toNat = beNat (slice p k 4) := by
  have hlt := be_nat_lt (slice p k 4)
  rw [length_slice] at hlt
  rw [read_be32_eq, UInt32.toNat_ofNat', Nat.mod_eq_of_lt (by omega)]

theorem stored_be48 : (UInt64.ofNat (readBe48 (advance p k))).toNat = beNat (slice p k 6) := by
  have hlt := be_nat_lt (slice p k 6)
  rw [length_slice] at hlt
  rw [read_be48_eq, UInt64.toNat_ofNat', Nat.mod_eq_of_lt (by omega)]

theorem stored_be64 : (UInt64.ofNat (readBe64 (advance p k))).toNat = beNat (slice p k 8) := by
  have hlt := be_nat_lt (slice p k 8)
  rw [length_slice] at hlt
  rw [read_be64_eq, UInt64.toNat_ofNat', Nat.mod_eq_of_lt (by omega)]

theorem stored_byte : (p k).toNat = beNat (slice p k 1) := by
  simp [beNat, slice, leNat]

theorem stored_stock : (Vector.ofFn fun i : Fin 8 => p (k + i)).toList = slice p k 8 := by
  rw [Vector.toList_ofFn]
  rfl

end Parsers

/-- What has to be known of a parser: its fields determine the message, have fixed widths, and stand
one behind the other. -/
theorem lossless_of_tiles {α : Type} {parse : (Nat → UInt8) → α} {fields : α → List Field}
    {timestampNs : α → UInt64} {size : Nat} (widths : List Nat)
    (hinj : Function.Injective fields) (hwidths : ∀ m, (fields m).map Field.width = widths)
    (hsize : 1 + widths.sum = size) (htiles : ∀ p, Tiles p 1 (fields (parse p)))
    (htimestamp : ∀ p, timestampNs (parse p) = .ofNat (readBe48 (advance p 5))) :
    Lossless parse fields timestampNs size where
  tiles := htiles
  covers p := by rw [hwidths, hsize]
  writes p := by rw [(htiles p).bytes, hwidths, ← hsize, Nat.add_sub_cancel_left]
  faithful p q := by
    rw [← hinj.eq_iff, (htiles p).eq_iff (htiles q) (by rw [hwidths, hwidths]), hwidths, hsize]
  timestamp p := by
    have hlt := be_nat_lt (slice p 5 6)
    rw [length_slice] at hlt
    rw [htimestamp, stored_be48]
    exact hlt

theorem be_nat_stock_injective {s t : Vector UInt8 8} (h : beNat s.toList = beNat t.toList) :
    s = t := by
  have hs := be_bytes_be_nat s.toList
  have ht := be_bytes_be_nat t.toList
  rw [Vector.length_toList] at hs ht
  rw [← Vector.toList_inj, ← hs, ← ht, h]

theorem AddOrder.fields_injective : Function.Injective AddOrder.fields := by
  intro m m' h
  cases m
  cases m'
  simp only [fields, List.cons.injEq, Field.mk.injEq, true_and, UInt16.toNat_inj, UInt64.toNat_inj,
    UInt32.toNat_inj, UInt8.toNat_inj, and_true] at h
  obtain ⟨rfl, rfl, rfl, rfl, rfl, rfl, hstock, rfl⟩ := h
  rw [be_nat_stock_injective hstock]

theorem OrderExecuted.fields_injective : Function.Injective OrderExecuted.fields := by
  intro m m' h
  cases m
  cases m'
  simpa [fields, UInt16.toNat_inj, UInt64.toNat_inj, UInt32.toNat_inj] using h

theorem OrderCancel.fields_injective : Function.Injective OrderCancel.fields := by
  intro m m' h
  cases m
  cases m'
  simpa [fields, UInt16.toNat_inj, UInt64.toNat_inj, UInt32.toNat_inj] using h

theorem OrderDelete.fields_injective : Function.Injective OrderDelete.fields := by
  intro m m' h
  cases m
  cases m'
  simpa [fields, UInt16.toNat_inj, UInt64.toNat_inj] using h

theorem OrderReplace.fields_injective : Function.Injective OrderReplace.fields := by
  intro m m' h
  cases m
  cases m'
  simpa [fields, UInt16.toNat_inj, UInt64.toNat_inj, UInt32.toNat_inj] using h

/-- The parsers of the order messages lose and alias no byte. -/
theorem parsers_lossless :
    Lossless AddOrder.parse AddOrder.fields AddOrder.timestampNs AddOrder.kWireSize ∧
    Lossless OrderExecuted.parse OrderExecuted.fields OrderExecuted.timestampNs
      OrderExecuted.kWireSize ∧
    Lossless OrderCancel.parse OrderCancel.fields OrderCancel.timestampNs OrderCancel.kWireSize ∧
    Lossless OrderDelete.parse OrderDelete.fields OrderDelete.timestampNs OrderDelete.kWireSize ∧
    Lossless OrderReplace.parse OrderReplace.fields OrderReplace.timestampNs
      OrderReplace.kWireSize := by
  refine ⟨?_, ?_, ?_, ?_, ?_⟩
  · refine lossless_of_tiles [2, 2, 6, 8, 1, 4, 8, 4] AddOrder.fields_injective (fun _ => rfl) rfl
      (fun p => ?_) fun _ => rfl
    exact ⟨stored_be16, stored_be16, stored_be48, stored_be64, stored_byte, stored_be32,
      congrArg beNat stored_stock, stored_be32, trivial⟩
  · refine lossless_of_tiles [2, 2, 6, 8, 4, 8] OrderExecuted.fields_injective (fun _ => rfl) rfl
      (fun p => ?_) fun _ => rfl
    exact ⟨stored_be16, stored_be16, stored_be48, stored_be64, stored_be32, stored_be64, trivial⟩
  · refine lossless_of_tiles [2, 2, 6, 8, 4] OrderCancel.fields_injective (fun _ => rfl) rfl
      (fun p => ?_) fun _ => rfl
    exact ⟨stored_be16, stored_be16, stored_be48, stored_be64, stored_be32, trivial⟩
  · refine lossless_of_tiles [2, 2, 6, 8] OrderDelete.fields_injective (fun _ => rfl) rfl
      (fun p => ?_) fun _ => rfl
    exact ⟨stored_be16, stored_be16, stored_be48, stored_be64, trivial⟩
  · refine lossless_of_tiles [2, 2, 6, 8, 8, 4, 4] OrderReplace.fields_injective (fun _ => rfl) rfl
      (fun p => ?_) fun _ => rfl
    exact ⟨stored_be16, stored_be16, stored_be48, stored_be64, stored_be64, stored_be32,
      stored_be32, trivial⟩

end FeedHandler.Itch
