import Mathlib.Data.List.Basic
import Mathlib.Algebra.Order.Group.Nat
import Mathlib.Tactic.Ring

/-!
# Byte strings of numbers

Fixed-width numbers in memory on a little-endian machine, and the byte swap that turns them into
network order. Memory is a function from addresses to bytes. Read `le_bytes_le_nat`,
`le_nat_le_bytes` and `byte_swap_byte_swap` first.
-/

namespace FeedHandler.Bytes

/-- The number whose bytes are given, least significant first. -/
def leNat : List UInt8 → Nat
  | [] => 0
  | b :: bs => b.toNat + 256 * leNat bs

/-- The bytes of a number of `w` bytes, least significant first. -/
def leBytes : Nat → Nat → List UInt8
  | 0, _ => []
  | w + 1, v => UInt8.ofNat (v % 256) :: leBytes w (v / 256)

/-- The number whose bytes are given in network order. -/
def beNat (bs : List UInt8) : Nat := leNat bs.reverse

/-- A number of `w` bytes in network order. -/
def beBytes (w v : Nat) : List UInt8 := (leBytes w v).reverse

/-- The number with its `w` bytes in the opposite order. -/
def byteSwap (w v : Nat) : Nat := leNat (leBytes w v).reverse

/-- `n` bytes of memory from an address on. -/
def slice (mem : Nat → UInt8) (addr n : Nat) : List UInt8 :=
  (List.range n).map fun i => mem (addr + i)

/-- Memory that holds a byte string at address 0 and is otherwise as before. -/
def fill (bytes : List UInt8) (old : Nat → UInt8) : Nat → UInt8 := fun i => bytes.getD i (old i)

@[simp] theorem length_le_bytes (w v : Nat) : (leBytes w v).length = w := by
  induction w generalizing v with
  | zero => rfl
  | succ w ih => simp [leBytes, ih]

theorem le_nat_lt (bs : List UInt8) : leNat bs < 256 ^ bs.length := by
  induction bs with
  | nil => simp [leNat]
  | cons b bs ih =>
      have hb := b.toNat_lt
      simp only [leNat, List.length_cons, Nat.pow_succ]
      omega

/-- Reading back what was written. -/
theorem le_nat_le_bytes {w v : Nat} (h : v < 256 ^ w) : leNat (leBytes w v) = v := by
  induction w generalizing v with
  | zero =>
      simp only [Nat.pow_zero] at h
      simp [leBytes, leNat]
      omega
  | succ w ih =>
      rw [Nat.pow_succ] at h
      have hrest := ih (show v / 256 < 256 ^ w by omega)
      simp only [leBytes, leNat, hrest, UInt8.toNat_ofNat']
      omega

/-- Writing back what was read. -/
theorem le_bytes_le_nat (bs : List UInt8) : leBytes bs.length (leNat bs) = bs := by
  induction bs with
  | nil => rfl
  | cons b bs ih =>
      have hb := b.toNat_lt
      have hlow : (b.toNat + 256 * leNat bs) % 256 = b.toNat := by omega
      have hhigh : (b.toNat + 256 * leNat bs) / 256 = leNat bs := by omega
      simp only [List.length_cons, leBytes, leNat, hlow, hhigh, ih, UInt8.ofNat_toNat]

@[simp] theorem length_be_bytes (w v : Nat) : (beBytes w v).length = w := by simp [beBytes]

theorem be_nat_lt (bs : List UInt8) : beNat bs < 256 ^ bs.length := by
  simpa [beNat] using le_nat_lt bs.reverse

/-- Writing back what was read in network order. -/
theorem be_bytes_be_nat (bs : List UInt8) : beBytes bs.length (beNat bs) = bs := by
  have h := le_bytes_le_nat bs.reverse
  rw [List.length_reverse] at h
  rw [beBytes, beNat, h, List.reverse_reverse]

theorem le_nat_append (bs cs : List UInt8) :
    leNat (bs ++ cs) = leNat bs + 256 ^ bs.length * leNat cs := by
  induction bs with
  | nil => simp [leNat]
  | cons b bs ih =>
      rw [List.cons_append, leNat, leNat, ih, List.length_cons, Nat.pow_succ]
      ring

theorem be_nat_cons (b : UInt8) (bs : List UInt8) :
    beNat (b :: bs) = b.toNat * 256 ^ bs.length + beNat bs := by
  rw [beNat, beNat, List.reverse_cons, le_nat_append, List.length_reverse]
  simp only [leNat]
  ring

/-- A loop that shifts bytes into a 64-bit number reads them in network order. -/
theorem foldl_shift_or (bs : List UInt8) (v : Nat) (h : (v + 1) * 256 ^ bs.length ≤ 2 ^ 64) :
    bs.foldl (fun v b => (v <<< 8) % 2 ^ 64 ||| b.toNat) v = v * 256 ^ bs.length + beNat bs := by
  induction bs generalizing v with
  | nil => simp [beNat, leNat]
  | cons b bs ih =>
      have hb := b.toNat_lt
      have hpow : 0 < 256 ^ bs.length := Nat.pow_pos (by decide)
      rw [List.length_cons, Nat.pow_succ] at h
      have hnext : (v * 256 + b.toNat + 1) * 256 ^ bs.length ≤ 2 ^ 64 :=
        calc (v * 256 + b.toNat + 1) * 256 ^ bs.length
            ≤ ((v + 1) * 256) * 256 ^ bs.length := Nat.mul_le_mul_right _ (by omega)
          _ = (v + 1) * (256 ^ bs.length * 256) := by ring
          _ ≤ 2 ^ 64 := h
      have hv : v * 256 + b.toNat + 1 ≤ 2 ^ 64 := (Nat.le_mul_of_pos_right _ hpow).trans hnext
      have hshift : (v <<< 8) % 2 ^ 64 ||| b.toNat = v * 256 + b.toNat := by
        rw [Nat.shiftLeft_eq, Nat.mod_eq_of_lt (by omega), Nat.mul_comm v,
          Nat.two_pow_add_eq_or_of_lt hb]
      rw [List.foldl_cons, hshift, ih _ hnext, be_nat_cons, List.length_cons, Nat.pow_succ]
      ring

theorem byte_swap_le_nat {w : Nat} {bs : List UInt8} (h : bs.length = w) :
    byteSwap w (leNat bs) = beNat bs := by
  rw [byteSwap, beNat, ← h, le_bytes_le_nat]

theorem byte_swap_lt (w v : Nat) : byteSwap w v < 256 ^ w := by
  simpa [byteSwap] using le_nat_lt (leBytes w v).reverse

theorem le_bytes_byte_swap (w v : Nat) : leBytes w (byteSwap w v) = (leBytes w v).reverse := by
  simpa [byteSwap] using le_bytes_le_nat (leBytes w v).reverse

/-- Swapping twice restores the number. -/
theorem byte_swap_byte_swap {w v : Nat} (h : v < 256 ^ w) : byteSwap w (byteSwap w v) = v := by
  rw [byteSwap, le_bytes_byte_swap, List.reverse_reverse, le_nat_le_bytes h]

@[simp] theorem length_slice (mem : Nat → UInt8) (addr n : Nat) :
    (slice mem addr n).length = n := by simp [slice]

theorem slice_eq_iff {p q : Nat → UInt8} {addr n : Nat} :
    slice p addr n = slice q addr n ↔ ∀ i, addr ≤ i → i < addr + n → p i = q i := by
  rw [slice, slice, List.map_inj_left]
  constructor
  · intro h i hle hlt
    have hi := h (i - addr) (List.mem_range.mpr (by omega))
    rwa [Nat.add_sub_cancel' hle] at hi
  · intro h i hi
    have := List.mem_range.mp hi
    exact h _ (by omega) (by omega)

/-- A slice in two parts. -/
theorem slice_add (mem : Nat → UInt8) (addr m n : Nat) :
    slice mem addr (m + n) = slice mem addr m ++ slice mem (addr + m) n := by
  simp [slice, List.range_add, Nat.add_assoc]

/-- The bytes of a filled memory are the corresponding part of the byte string. -/
theorem slice_fill (bytes : List UInt8) (old : Nat → UInt8) {addr n : Nat}
    (h : addr + n ≤ bytes.length) :
    slice (fill bytes old) addr n = (bytes.drop addr).take n := by
  apply List.ext_getElem
  · simp
    omega
  · intro i hi _
    simp only [length_slice] at hi
    have hlt : addr + i < bytes.length := by omega
    simp [slice, fill, hlt]

/-- A slice of a filled memory that is a known middle part of the byte string. -/
theorem slice_fill_append (front mid back : List UInt8) (old : Nat → UInt8) {addr n : Nat}
    (haddr : addr = front.length) (hn : n = mid.length) :
    slice (fill (front ++ (mid ++ back)) old) addr n = mid := by
  subst haddr hn
  rw [slice_fill _ _ (by simp), List.drop_left, List.take_left]

end FeedHandler.Bytes
