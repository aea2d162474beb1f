import FeedHandler.Common.MoldUdp64

/-!
# The ITCH file reader

`src/common/itch_reader.cpp` over the bytes of a mapped file: frames of a 2-byte big-endian length
and a payload. `IsFrames` says what the frames of a file are, independently of the reader, and
`drain_spec` that the reader yields them. The results about readers of a file hold of an empty file
too, which has no frames; the constructor refuses it.
-/

namespace FeedHandler.Itch

open Bytes

/-- A frame: its payload, whose length is a 16-bit number. -/
structure Frame where
  payload : List UInt8
  length_lt : payload.length < 2 ^ 16
  deriving DecidableEq

/-- A frame as it stands in a file or a packet. -/
def Frame.bytes (f : Frame) : List UInt8 := Mold.writeBe16 f.payload.length ++ f.payload

/-- The bytes of consecutive frames. -/
def framesBytes (fs : List Frame) : List UInt8 := (fs.map Frame.bytes).flatten

/-- `ItchFileReader`: the mapped bytes (fewer than an offset can count) and the offset of the next
frame. -/
structure ItchFileReader where
  base : List UInt8
  offset : Nat
  size_lt : base.length < 2 ^ 63

/-- The constructor over the bytes of a file; it throws for an empty one, which cannot be mapped. -/
def ItchFileReader.new (file : List UInt8) (hsize : file.length < 2 ^ 63) : Option ItchFileReader :=
  if file = [] then none else some ⟨file, 0, hsize⟩

/-- The mapping as a pointer. What it gives behind the mapping stands for nothing: `next` does not
read there, and the programs that parse a message check it. -/
def ItchFileReader.mem (r : ItchFileReader) : Nat → UInt8 := fill r.base fun _ => 0

/-- `next`: the frame at the offset, if it is complete. -/
def ItchFileReader.next (r : ItchFileReader) : Option (Frame × ItchFileReader) :=
  if r.offset + 2 > r.base.length then none
  else
    let len := readBe16 (advance r.mem r.offset)
    if r.offset + 2 + len > r.base.length then none
    else some (⟨slice r.mem (r.offset + 2) len, by simpa [len] using read_be16_lt _⟩,
      { r with offset := r.offset + 2 + len })

/-- The frames of a loop `while (reader.next(...))` of at most `fuel` rounds. -/
def ItchFileReader.drain : Nat → ItchFileReader → List Frame
  | 0, _ => []
  | fuel + 1, r =>
      match r.next with
      | none => []
      | some (f, r') => f :: drain fuel r'

/-- The complete frames of a file from its start up to the first incomplete one. -/
def IsFrames (file : List UInt8) (fs : List Frame) : Prop :=
  ∃ rest, file = framesBytes fs ++ rest ∧
    (rest.length < 2 ∨
      rest.length < 2 + readBe16 (fill rest fun _ => 0))

@[simp] theorem Frame.length_bytes (f : Frame) : f.bytes.length = 2 + f.payload.length := by
  simp [Frame.bytes]

@[simp] theorem frames_bytes_nil : framesBytes [] = [] := rfl

@[simp] theorem frames_bytes_cons (f : Frame) (fs : List Frame) :
    framesBytes (f :: fs) = f.bytes ++ framesBytes fs := rfl

@[simp] theorem frames_bytes_append (fs gs : List Frame) :
    framesBytes (fs ++ gs) = framesBytes fs ++ framesBytes gs := by simp [framesBytes]

/-- The two bytes at an address inside a filled memory, seen from there. -/
theorem read_be16_fill (bytes : List UInt8) (old old' : Nat → UInt8) {k : Nat}
    (h : k + 2 ≤ bytes.length) :
    readBe16 (advance (fill bytes old) k) = readBe16 (fill (bytes.drop k) old') := by
  rw [readBe16, readBe16, slice_advance, slice_fill _ _ h, slice_fill _ _ (by simp; omega),
    List.drop_zero]

/-- The length in front of a frame. -/
theorem read_be16_frame (f : Frame) (back : List UInt8) (old : Nat → UInt8) :
    readBe16 (fill (f.bytes ++ back) old) = f.payload.length := by
  have hslice : slice (fill (f.bytes ++ back) old) 0 2 = Mold.writeBe16 f.payload.length := by
    have h : slice (fill ([] ++ (Mold.writeBe16 f.payload.length ++ (f.payload ++ back))) old) 0 2 =
        Mold.writeBe16 f.payload.length := slice_fill_append _ _ _ old rfl (by simp)
    simpa [Frame.bytes, List.append_assoc] using h
  have h := read_be16_write f.length_lt hslice
  rwa [advance_zero] at h

/-- A file has one list of complete frames. -/
theorem IsFrames.unique {file : List UInt8} {fs gs : List Frame} (hf : IsFrames file fs)
    (hg : IsFrames file gs) : fs = gs := by
  induction fs generalizing file gs with
  | nil =>
      cases gs with
      | nil => rfl
      | cons g gs =>
          obtain ⟨rest, hrest, hstop⟩ := hf
          obtain ⟨rest', rfl, _⟩ := hg
          rw [frames_bytes_nil, List.nil_append] at hrest
          -- The rest of the first list begins with a complete frame, which it must not.
          rw [← hrest, frames_bytes_cons, List.append_assoc, read_be16_frame] at hstop
          simp only [List.length_append, Frame.length_bytes] at hstop
          omega
  | cons f fs ih =>
      obtain ⟨rest, rfl, hstop⟩ := hf
      obtain ⟨rest', hfile, hstop'⟩ := hg
      cases gs with
      | nil =>
          simp only [frames_bytes_nil, List.nil_append, frames_bytes_cons,
            List.append_assoc] at hfile
          rw [← hfile, read_be16_frame] at hstop'
          simp only [List.length_append, Frame.length_bytes] at hstop'
          omega
      | cons g gs =>
          simp only [frames_bytes_cons, List.append_assoc] at hfile
          -- The length prefixes are read from the same bytes.
          have hlen : f.payload.length = g.payload.length := by
            rw [← read_be16_frame f (framesBytes fs ++ rest) fun _ => 0, hfile, read_be16_frame]
          obtain ⟨hfg, htail⟩ := List.append_inj hfile (by simp [hlen])
          have hpayload : f.payload = g.payload := (List.append_inj hfg (by simp)).2
          obtain rfl : f = g := by
            cases f
            cases g
            cases hpayload
            rfl
          rw [ih ⟨rest, rfl, hstop⟩ ⟨rest', htail, hstop'⟩]

/-- The reader at an offset yields the frames of the bytes from there on. -/
theorem drain_from (fuel : Nat) (r : ItchFileReader) (hoff : r.offset ≤ r.base.length)
    (hfuel : r.base.length < r.offset + fuel) :
    IsFrames (r.base.drop r.offset) (r.drain fuel) := by
  induction fuel generalizing r with
  | zero => omega
  | succ fuel ih =>
      rw [ItchFileReader.drain, ItchFileReader.next]
      by_cases hshort : r.offset + 2 > r.base.length
      · rw [if_pos hshort]
        refine ⟨r.base.drop r.offset, rfl, .inl ?_⟩
        simp only [List.length_drop]
        omega
      rw [if_neg hshort]
      by_cases hcut : r.offset + 2 + readBe16 (advance r.mem r.offset) > r.base.length
      · simp only [if_pos hcut]
        refine ⟨r.base.drop r.offset, rfl, .inr ?_⟩
        rw [ItchFileReader.mem, read_be16_fill _ _ (fun _ => 0) (by omega)] at hcut
        simp only [List.length_drop]
        omega
      simp only [if_neg hcut]
      obtain ⟨rest, hrest, hstop⟩ := ih
        { r with offset := r.offset + 2 + readBe16 (advance r.mem r.offset) }
        (by simpa using hcut) (by simp only; omega)
      refine ⟨rest, ?_, hstop⟩
      -- The two reads together give back the bytes of the frame.
      have hprefix : Mold.writeBe16 (readBe16 (advance r.mem r.offset)) =
          (r.base.drop r.offset).take 2 := by
        rw [write_be16_read, slice_advance, ItchFileReader.mem, slice_fill _ _ (by omega)]
      have hpayload : slice r.mem (r.offset + 2) (readBe16 (advance r.mem r.offset)) =
          (r.base.drop (r.offset + 2)).take (readBe16 (advance r.mem r.offset)) := by
        rw [ItchFileReader.mem, slice_fill]
        simpa [ItchFileReader.mem] using hcut
      simp only [frames_bytes_cons, Frame.bytes, length_slice, List.append_assoc, hprefix]
      simp only at hrest
      have hdrop : r.base.drop (r.offset + 2) = (r.base.drop r.offset).drop 2 := by
        rw [List.drop_drop]
      have hdrop' : r.base.drop (r.offset + 2 + readBe16 (advance r.mem r.offset)) =
          ((r.base.drop r.offset).drop 2).drop (readBe16 (advance r.mem r.offset)) := by
        rw [List.drop_drop, List.drop_drop, Nat.add_assoc]
      rw [← hrest, hpayload, hdrop, hdrop', List.take_append_drop, List.take_append_drop]

/-- The reader yields the complete frames of its file. -/
theorem drain_spec (file : List UInt8) (hsize : file.length < 2 ^ 63) :
    IsFrames file ((ItchFileReader.mk file 0 hsize).drain (file.length + 1)) := by
  simpa using drain_from (file.length + 1) ⟨file, 0, hsize⟩ (by simp) (by simp)

end FeedHandler.Itch
