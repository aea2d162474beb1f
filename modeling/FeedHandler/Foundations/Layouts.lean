import FeedHandler.Foundations.Bytes

/-!
# Layouts of fixed-width fields

Fields that stand one behind the other in memory, each a number in network order. `Tiles` says that
a list of fields is what memory holds from an address on. Read `Tiles.bytes` and `Tiles.eq_iff`: the
bytes can be written back, and equal fields mean equal bytes.
-/

namespace FeedHandler.Bytes

/-- A field: its width in bytes and its value. -/
@[ext] structure Field where
  width : Nat
  value : Nat

/-- The bytes of a field. -/
def Field.bytes (f : Field) : List UInt8 := beBytes f.width f.value

/-- Memory holds fields one behind the other from an address on. -/
def Tiles (p : Nat → UInt8) : Nat → List Field → Prop
  | _, [] => True
  | off, f :: fs => f.value = beNat (slice p off f.width) ∧ Tiles p (off + f.width) fs

namespace Tiles

variable {p q : Nat → UInt8} {off : Nat} {fs gs : List Field}

/-- Writing the fields back gives the bytes they were read from. -/
theorem bytes (h : Tiles p off fs) :
    fs.flatMap Field.bytes = slice p off (fs.map Field.width).sum := by
  induction fs generalizing off with
  | nil => rfl
  | cons f fs ih =>
      obtain ⟨hvalue, hrest⟩ := h
      have hbytes := be_bytes_be_nat (slice p off f.width)
      rw [length_slice] at hbytes
      rw [List.flatMap_cons, ih hrest, List.map_cons, List.sum_cons, slice_add, Field.bytes, hvalue,
        hbytes]

/-- The same bytes hold the same fields. -/
theorem eq_of_slice_eq (hp : Tiles p off fs) (hq : Tiles q off gs)
    (hwidth : fs.map Field.width = gs.map Field.width)
    (hslice : slice p off (fs.map Field.width).sum = slice q off (fs.map Field.width).sum) :
    fs = gs := by
  induction fs generalizing gs off with
  | nil =>
      cases gs with
      | nil => rfl
      | cons _ _ => cases hwidth
  | cons f fs ih =>
      cases gs with
      | nil => cases hwidth
      | cons g gs =>
          obtain ⟨hf, hfs⟩ := hp
          obtain ⟨hg, hgs⟩ := hq
          rw [List.map_cons, List.map_cons, List.cons.injEq] at hwidth
          obtain ⟨hhead, htail⟩ := hwidth
          rw [List.map_cons, List.sum_cons, slice_add, slice_add] at hslice
          obtain ⟨hfirst, hrest⟩ := List.append_inj hslice (by simp)
          rw [← hhead] at hg hgs
          have hvalue : f.value = g.value := by rw [hf, hg, hfirst]
          rw [Field.ext hhead hvalue, ih hfs hgs htail hrest]

/-- Two memories hold the same fields exactly if they agree on the bytes. -/
theorem eq_iff (hp : Tiles p off fs) (hq : Tiles q off gs)
    (hwidth : fs.map Field.width = gs.map Field.width) :
    fs = gs ↔ ∀ i, off ≤ i → i < off + (fs.map Field.width).sum → p i = q i := by
  rw [← slice_eq_iff]
  constructor
  · intro h
    subst h
    rw [← hp.bytes, hq.bytes]
  · exact hp.eq_of_slice_eq hq hwidth

end Tiles

end FeedHandler.Bytes
