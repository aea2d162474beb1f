import FeedHandler.Foundations.Bytes

/-!
# Framing numbers

The big-endian readers of `include/common/itch_messages.hpp` and the big-endian writers of
`include/common/mold_udp64.hpp`. Both copy through an integer with `memcpy` and
`__builtin_bswap`, read here on a little-endian host.
-/

namespace FeedHandler

open Bytes

/-- The address `k` bytes after a pointer. -/
def advance (p : Nat → UInt8) (k : Nat) : Nat → UInt8 := fun i => p (k + i)

/-- `read_be16`. -/
def readBe16 (p : Nat → UInt8) : Nat := byteSwap 2 (leNat (slice p 0 2))

/-- `read_be32`. -/
def readBe32 (p : Nat → UInt8) : Nat := byteSwap 4 (leNat (slice p 0 4))

/-- `read_be48`: the loop `v = (v << 8) | p[i]` over six bytes. -/
def readBe48 (p : Nat → UInt8) : Nat :=
  (List.range 6).foldl (fun v i => (v <<< 8) % 2 ^ 64 ||| (p i).toNat) 0

/-- `read_be64`. -/
def readBe64 (p : Nat → UInt8) : Nat := byteSwap 8 (leNat (slice p 0 8))

namespace Mold

/-- `kSessionSize`. -/
def kSessionSize : Nat := 10

/-- `kHeaderSize`. -/
def kHeaderSize : Nat := 20

/-- The bytes `write_be16` stores. -/
def writeBe16 (v : Nat) : List UInt8 := leBytes 2 (byteSwap 2 v)

/-- The bytes `write_be64` stores. -/
def writeBe64 (v : Nat) : List UInt8 := leBytes 8 (byteSwap 8 v)

@[simp] theorem length_write_be16 (v : Nat) : (writeBe16 v).length = 2 := length_le_bytes _ _

@[simp] theorem length_write_be64 (v : Nat) : (writeBe64 v).length = 8 := length_le_bytes _ _

end Mold

@[simp] theorem advance_zero (p : Nat → UInt8) : advance p 0 = p := by
  funext i
  simp [advance]

theorem slice_congr {p q : Nat → UInt8} {addr n m : Nat} (h : ∀ i, i < m → p i = q i)
    (hle : addr + n ≤ m) : slice p addr n = slice q addr n := by
  refine List.map_congr_left fun i hi => h _ ?_
  have := List.mem_range.mp hi
  omega

theorem slice_advance (p : Nat → UInt8) (k n : Nat) : slice (advance p k) 0 n = slice p k n := by
  simp [slice, advance]

theorem read_be16_lt (p : Nat → UInt8) : readBe16 p < 2 ^ 16 := byte_swap_lt 2 _

/-- A pointer to the bytes `write_be16` stored reads the number back. -/
theorem read_be16_write {p : Nat → UInt8} {k v : Nat} (hv : v < 2 ^ 16)
    (h : slice p k 2 = Mold.writeBe16 v) : readBe16 (advance p k) = v := by
  rw [readBe16, slice_advance, h, Mold.writeBe16, le_nat_le_bytes (byte_swap_lt 2 v),
    byte_swap_byte_swap hv]

/-- A pointer to the bytes `write_be64` stored reads the number back. -/
theorem read_be64_write {p : Nat → UInt8} {k v : Nat} (hv : v < 2 ^ 64)
    (h : slice p k 8 = Mold.writeBe64 v) : readBe64 (advance p k) = v := by
  rw [readBe64, slice_advance, h, Mold.writeBe64, le_nat_le_bytes (byte_swap_lt 8 v),
    byte_swap_byte_swap hv]

/-! The readers return the number that the bytes stand for in network order. -/

theorem read_be16_eq (p : Nat → UInt8) (k : Nat) :
    readBe16 (advance p k) = beNat (slice p k 2) := by
  rw [readBe16, slice_advance, byte_swap_le_nat (length_slice _ _ _)]

theorem read_be32_eq (p : Nat → UInt8) (k : Nat) :
    readBe32 (advance p k) = beNat (slice p k 4) := by
  rw [readBe32, slice_advance, byte_swap_le_nat (length_slice _ _ _)]

theorem read_be48_eq (p : Nat → UInt8) (k : Nat) :
    readBe48 (advance p k) = beNat (slice p k 6) := by
  have h := foldl_shift_or (slice p k 6) 0 (by simp)
  rw [slice, List.foldl_map, Nat.zero_mul, Nat.zero_add] at h
  exact h

theorem read_be64_eq (p : Nat → UInt8) (k : Nat) :
    readBe64 (advance p k) = beNat (slice p k 8) := by
  rw [readBe64, slice_advance, byte_swap_le_nat (length_slice _ _ _)]

/-- The length a reader finds determines the two bytes it stands in. -/
theorem write_be16_read (p : Nat → UInt8) : Mold.writeBe16 (readBe16 p) = slice p 0 2 := by
  have hlen : (slice p 0 2).length = 2 := length_slice _ _ _
  have hlt : leNat (slice p 0 2) < 256 ^ 2 := by simpa [hlen] using le_nat_lt (slice p 0 2)
  have hback := le_bytes_le_nat (slice p 0 2)
  rw [hlen] at hback
  rw [Mold.writeBe16, readBe16, byte_swap_byte_swap hlt, hback]

end FeedHandler
