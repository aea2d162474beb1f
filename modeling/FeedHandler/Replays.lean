import FeedHandler.Common.WireReads
import FeedHandler.Network
import Mathlib.Data.List.ReduceOption

/-!
# The programs that replay a file

`src/v1/main.cpp`, `src/v3/main.cpp`, `tests/v3/test_v1_v3_equivalence.cpp` and
`tests/v3/trace_symbol.cpp` have one loop over the frames of a file, with different bodies. The
constructor of the reader throws for an empty file, and a parser may read behind the file if a frame
at its end is shorter than the message; both are `none`.
`comparison_passes` says on which files the comparison of the two books finds no mismatch, and
`trace_faithful` that the trace of one symbol shows what the replay of the whole file has.
`pipeline_matches_main` relates the receivers to the replays.
-/

namespace FeedHandler

open Itch Book Runs Receiver V3

section Rounds

/-- The messages that the rounds of `while (reader.next(msg, len)) switch (msg[0])` decode, over at
most `fuel` rounds, if no read goes behind the mapping. A message of another type is `none`. -/
def Itch.ItchFileReader.decoded : Nat → ItchFileReader → Option (List (Option Message))
  | 0, _ => some []
  | fuel + 1, r =>
      match r.next with
      | none => some []
      | some (_, r') => do
          let m ← (Message.dispatchAt (r.offset + 2)).runWithin r.mem r.base.length
          let ms ← decoded fuel r'
          return m :: ms

/-- The rounds over a whole file. -/
def rounds (file : List UInt8) (hsize : file.length < 2 ^ 63) :
    Option (List (Option Message)) := do
  let r ← ItchFileReader.new file hsize
  r.decoded (file.length + 1)

-- The last frame has a type and no more, so that its parser reads behind the file.
example : rounds [0, 1, 0x44] (by decide) = none := by decide +kernel

/-- A frame that the reader yields stands in the mapping. -/
theorem Itch.ItchFileReader.next_frame {r r' : ItchFileReader} {f : Frame}
    (hnext : r.next = some (f, r')) :
    Bytes.slice r.mem (r.offset + 2) f.payload.length = f.payload ∧
      r.offset + 2 + f.payload.length ≤ r.base.length := by
  rw [ItchFileReader.next] at hnext
  split at hnext
  · cases hnext
  · simp only at hnext
    split at hnext
    · cases hnext
    next hfits =>
      cases hnext
      simp only [Bytes.length_slice, true_and]
      omega

/-- Complete frames are decoded from their own bytes. -/
theorem Itch.ItchFileReader.decoded_eq {fuel : Nat} {r : ItchFileReader}
    (h : ∀ f ∈ r.drain fuel, f.Complete) :
    r.decoded fuel = some ((r.drain fuel).map Frame.message) := by
  induction fuel generalizing r with
  | zero => rfl
  | succ fuel ih =>
      rw [drain] at h
      rw [decoded, drain]
      cases hnext : r.next with
      | none => rfl
      | some next =>
          obtain ⟨f, r'⟩ := next
          rw [hnext] at h
          obtain ⟨hframe, hfits⟩ := next_frame hnext
          have hcomplete := h f List.mem_cons_self
          have hread : (Message.dispatchAt (r.offset + 2)).runWithin r.mem r.base.length =
              some f.message := by
            rw [Bytes.Reader.run_within_eq_some_iff, Message.trace_dispatch_lt_iff,
              Message.run_dispatch_at, hcomplete.decode_eq hframe]
            have hsize := hcomplete.wire_size_le hframe
            exact ⟨by omega, rfl⟩
          have hrest := ih fun g hg => h g (.tail _ hg)
          simp only [hread, hrest, Option.bind_eq_bind, Option.bind_some]
          rfl

/-- The rounds over a file of complete frames. -/
theorem rounds_eq {file : List UInt8} {frames : List Frame} (hsize : file.length < 2 ^ 63)
    (hfile : file ≠ []) (hframes : IsFrames file frames) (hcomplete : ∀ f ∈ frames, f.Complete) :
    rounds file hsize = some (frames.map Frame.message) := by
  have hdrain := (drain_spec file hsize).unique hframes
  rw [rounds, ItchFileReader.new, if_neg hfile, Option.bind_eq_bind, Option.bind_some,
    ItchFileReader.decoded_eq (by rwa [hdrain]), hdrain]

variable {β : Type}

/-- One round of the replays: the books and `msg_count`. -/
def mainRound (step : β → Message → Option β) (s : β × Nat) : Option Message → Option (β × Nat)
  | some m => do
      let books ← step s.1 m
      return (books, s.2 + 1)
  | none => some (s.1, s.2 + 1)

theorem run_main_round (step : β → Message → Option β) (b : β) (n : Nat)
    (ms : List (Option Message)) :
    run (mainRound step) (b, n) ms = (run step b ms.reduceOption).map (·, n + ms.length) := by
  induction ms generalizing b n with
  | nil => rfl
  | cons m ms ih =>
      cases m with
      | none =>
          rw [run_cons, mainRound, Option.bind_some, ih, List.reduceOption_cons_of_none,
            List.length_cons, Nat.add_right_comm, Nat.add_assoc]
      | some m =>
          rw [run_cons, mainRound, List.reduceOption_cons_of_some, run_cons]
          cases step b m with
          | none => rfl
          | some b' =>
              show run (mainRound step) (b', n + 1) ms = (run step b' ms.reduceOption).map _
              rw [ih, List.length_cons, Nat.add_right_comm, Nat.add_assoc]

/-- `main` of `src/v1/main.cpp`. -/
def v1Main (file : List UInt8) (hsize : file.length < 2 ^ 63) : Option (V1.Store × Nat) := do
  let ms ← rounds file hsize
  run (mainRound V1.Store.step) (∅, 0) ms

/-- `kPoolCapacity` of `src/v3/main.cpp`. -/
def kPoolCapacity : Nat := 2 ^ 20

/-- `kRefCapacity` of `src/v3/main.cpp`. -/
def kRefCapacity : Nat := 2 ^ 18

/-- `main` of `src/v3/main.cpp`. -/
def v3Main (file : List UInt8) (hsize : file.length < 2 ^ 63) : Option (V3.Store × Nat) := do
  let ms ← rounds file hsize
  let s ← V3.Store.new kPoolCapacity kRefCapacity
  run (mainRound (V3.Store.step RefTable.hash)) (s, 0) ms

/-- A file of three messages, of which the second is about another symbol. -/
def shortFile : List UInt8 :=
  framesBytes [(Message.add 1 10 kBid 5 10000).frame, (Message.add 2 20 0x53 7 10200).frame,
    (Message.execute 1 10 2).frame]

theorem short_file_lt : shortFile.length < 2 ^ 63 := by decide +kernel

theorem rounds_short_file : rounds shortFile short_file_lt = some
    [some (.add 1 10 kBid 5 10000), some (.add 2 20 0x53 7 10200), some (.execute 1 10 2)] := by
  decide +kernel

end Rounds

section Comparison

/-- The variables of `tests/v3/test_v1_v3_equivalence.cpp`. -/
structure Comparison where
  v1Books : V1.Store
  v3Books : V3.Store
  msgCount : Nat
  compared : Nat
  mismatches : Nat

/-- One round of the comparison. After a message both books of its symbol are asked for their
top. -/
def Comparison.round (s : Comparison) : Option Message → Option Comparison
  | some m => do
      let v1Books ← s.v1Books.step m
      let v3Books ← s.v3Books.step RefTable.hash m
      let a := (v1Books.bookOf m.stockLocate).bestBidAsk
      let b ← (v3Books.bookOf m.stockLocate).bestBidAsk
      return ⟨v1Books, v3Books, s.msgCount + 1, s.compared + 1,
        if a ≠ b then s.mismatches + 1 else s.mismatches⟩
  | none => some { s with msgCount := s.msgCount + 1 }

/-- `main` of the comparison. -/
def compare (file : List UInt8) (hsize : file.length < 2 ^ 63) : Option Comparison := do
  let ms ← rounds file hsize
  let s ← V3.Store.new kPoolCapacity kRefCapacity
  run Comparison.round ⟨∅, s, 0, 0, 0⟩ ms

/-- The books are equivalent after every part of a feed. -/
def AgreeAlong (s : V3.Store) (msgs : List Message) : Prop :=
  ∀ got, got <+: msgs → ∃ s' t, run (V3.Store.step RefTable.hash) s got = some s' ∧
    run V1.Store.step ∅ got = some t ∧ Equivalent RefTable.hash s' t

theorem AgreeAlong.mono {s : V3.Store} {msgs msgs' : List Message} (h : AgreeAlong s msgs')
    (hpre : msgs <+: msgs') : AgreeAlong s msgs := fun got hgot => h got (hgot.trans hpre)

/-- Books that are equivalent after every part of a feed make no mismatch. -/
theorem run_comparison {s : V3.Store} {ms : List (Option Message)}
    (hagree : AgreeAlong s ms.reduceOption) :
    ∃ s' t, run (V3.Store.step RefTable.hash) s ms.reduceOption = some s' ∧
      run V1.Store.step ∅ ms.reduceOption = some t ∧
      run Comparison.round ⟨∅, s, 0, 0, 0⟩ ms =
        some ⟨t, s', ms.length, ms.reduceOption.length, 0⟩ := by
  induction ms using List.reverseRecOn with
  | nil => exact ⟨s, ∅, rfl, rfl, rfl⟩
  | append_singleton ms m ih =>
      rw [List.reduceOption_append] at hagree
      obtain ⟨s', t, hs', ht, hrun⟩ := ih (hagree.mono (List.prefix_append _ _))
      rw [List.reduceOption_append, List.length_append, List.length_append, run_concat, hrun,
        Option.bind_some]
      cases m with
      | none =>
          refine ⟨s', t, ?_, ?_, rfl⟩
          · rw [List.reduceOption_singleton, Option.toList_none, List.append_nil, hs']
          · rw [List.reduceOption_singleton, Option.toList_none, List.append_nil, ht]
      | some m =>
          obtain ⟨s'', t', hs'', ht', hequiv⟩ := hagree _ (List.prefix_refl _)
          rw [List.reduceOption_singleton, Option.toList_some] at hs'' ht' ⊢
          refine ⟨s'', t', hs'', ht', ?_⟩
          rw [run_concat, hs', Option.bind_some] at hs''
          rw [run_concat, ht, Option.bind_some] at ht'
          simp only [Comparison.round, ht', hs'', hequiv.best, Option.bind_eq_bind,
            Option.bind_some, ne_eq, not_true_eq_false, if_false]
          rfl

/-- The pool and the table can be created. -/
theorem exists_new : ∃ s, V3.Store.new kPoolCapacity kRefCapacity = some s := by
  rw [V3.Store.new, OrderPool.new, if_neg (by decide)]
  exact ⟨_, rfl⟩

/-- The books are equivalent along a selection of a valid history whose peak fits half of the
table. -/
theorem agree_along {s : V3.Store} (hnew : V3.Store.new kPoolCapacity kRefCapacity = some s)
    {msgs got : List Message} (hvalid : ValidHistory msgs) (hkeys : Keyed msgs)
    (hpart : got.Subperm msgs) (hpeak : 2 * (AnalyzeData.analyze got).maxLive ≤ kRefCapacity)
    (hshort : 2 * kWindow + got.length ≤ 2 ^ 31) : AgreeAlong s got := by
  intro seen hseen
  have hfits : Fits kPoolCapacity (2 ^ 18) (AnalyzeData.analyze got) := by
    refine ⟨?_, hpeak⟩
    simp only [kRefCapacity] at hpeak
    simp only [kPoolCapacity, kNullIdx]
    omega
  have hlen := hseen.length_le
  obtain ⟨s', t, lists, os, hs', ht, h⟩ := in_step_of_selection RefTable.hash (by decide) hnew
    hvalid hkeys (hseen.sublist.subperm.trans hpart) (hfits.mono hseen) (by omega)
  exact ⟨s', t, hs', ht, equivalent_of_follows h.v3 h.v1⟩

/-- Take a file that the program can read, that is, a file that is not empty and on which no parser
reads behind the last byte. If its order messages are a valid history, no reference is the empty key
and the peak of `analyze_data` is at most half of the table, the program compares the tops of book
after every order message, finds no mismatch and exits with 0. -/
theorem comparison_passes (file : List UInt8) (hsize : file.length < 2 ^ 63)
    {ms : List (Option Message)} (hread : rounds file hsize = some ms)
    (hvalid : ValidHistory ms.reduceOption) (hkeys : Keyed ms.reduceOption)
    (hpeak : 2 * (AnalyzeData.analyze ms.reduceOption).maxLive ≤ kRefCapacity)
    (hshort : 2 * kWindow + ms.reduceOption.length ≤ 2 ^ 31) :
    ∃ c, compare file hsize = some c ∧ c.mismatches = 0 ∧ c.compared = ms.reduceOption.length ∧
      c.msgCount = ms.length ∧ v1Main file hsize = some (c.v1Books, c.msgCount) ∧
      v3Main file hsize = some (c.v3Books, c.msgCount) := by
  obtain ⟨s, hnew⟩ := exists_new
  obtain ⟨s', t, hs', ht, hrun⟩ :=
    run_comparison (agree_along hnew hvalid hkeys (List.Subperm.refl _) hpeak hshort)
  refine ⟨⟨t, s', _, _, 0⟩, ?_, rfl, rfl, rfl, ?_, ?_⟩
  · rw [compare, hread, hnew]
    exact hrun
  · rw [v1Main, hread]
    show run _ _ _ = _
    rw [run_main_round, ht, Option.map_some, Nat.zero_add]
  · rw [v3Main, hread, hnew]
    show run _ _ _ = _
    rw [run_main_round, hs', Option.map_some, Nat.zero_add]

theorem comparison_passes_short_file :
    ∃ c, compare shortFile short_file_lt = some c ∧ c.mismatches = 0 ∧ c.compared = 3 := by
  obtain ⟨c, hc, hmismatches, hcompared, _⟩ := comparison_passes shortFile short_file_lt
    rounds_short_file (by decide) (by decide) (by decide) (by decide)
  exact ⟨c, hc, hmismatches, hcompared⟩

end Comparison

section Trace

/-- The variables of `tests/v3/trace_symbol.cpp`. A line is the number of its message and the tops
of the two books; `shown` is the number of lines. -/
structure Trace where
  v1 : V1.OrderBook
  shared : Shared
  v3b : V3.OrderBook
  n : Nat
  lines : List (Nat × Option (Nat × Nat) × Option (Nat × Nat))
  diverged : Bool

/-- The variables before the first message. -/
def Trace.new (s : Shared) : Trace := ⟨.new, s, .new, 0, [], false⟩

/-- One round of the trace of a symbol. The program returns at the first divergence. -/
def Trace.round (want : Nat) (s : Trace) (m : Option Message) : Option Trace :=
  if s.diverged then some s
  else
    match m with
    | none => some { s with n := s.n + 1 }
    | some m =>
        if m.stockLocate ≠ want then some { s with n := s.n + 1 }
        else do
          let v1 ← s.v1.apply m
          let (shared, v3b) ← s.v3b.apply RefTable.hash s.shared m
          let a := v1.bestBidAsk
          let b ← v3b.bestBidAsk
          let bad := decide (a ≠ b)
          let lines := if s.lines.length < 60 || bad then s.lines ++ [(s.n + 1, a, b)] else s.lines
          return ⟨v1, shared, v3b, s.n + 1, lines, bad⟩

/-- A line tells the top of book that the v1 replay of all messages has at that message. -/
def Trace.Told (want : Nat) (ms : List (Option Message))
    (line : Nat × Option (Nat × Nat) × Option (Nat × Nat)) : Prop :=
  line.1 ≤ ms.length ∧ ∃ t : V1.Store, run V1.Store.step ∅ (ms.take line.1).reduceOption = some t ∧
    line.2 = ((t.bookOf want).bestBidAsk, (t.bookOf want).bestBidAsk)

/-- The trace of a symbol after some rounds, beside the v1 replay of all messages and a v3 replay of
those of the symbol. -/
structure Trace.Faithful (want : Nat) (ms : List (Option Message)) (tr : Trace) (s : V3.Store)
    (t : V1.Store) : Prop where
  v1 : tr.v1 = t.bookOf want
  shared : tr.shared = s.toShared
  v3b : tr.v3b = s.bookOf want
  count : tr.n = ms.length
  agrees : tr.diverged = false
  shown : tr.lines.length = min 60 (messagesOf want ms.reduceOption).length
  lines : ∀ line ∈ tr.lines, Told want ms line

section Faithful

variable {want : Nat} {s s' : V3.Store} {t t' : V1.Store} {tr : Trace}
  {ms : List (Option Message)} {m : Message}

theorem Trace.Told.append {line : Nat × Option (Nat × Nat) × Option (Nat × Nat)}
    (h : Trace.Told want ms line) (ms' : List (Option Message)) :
    Trace.Told want (ms ++ ms') line := by
  obtain ⟨hle, t, ht, hline⟩ := h
  refine ⟨hle.trans (by simp), t, ?_, hline⟩
  rwa [List.take_append_of_le_length hle]

/-- The messages of a symbol after one more round. -/
theorem messages_of_concat (want : Nat) (ms : List (Option Message)) (m : Option Message) :
    messagesOf want (ms ++ [m]).reduceOption =
      messagesOf want ms.reduceOption ++ messagesOf want m.toList := by
  rw [List.reduceOption_append, List.reduceOption_singleton, messagesOf, List.filter_append]
  rfl

/-- A round about the symbol. -/
theorem Trace.Faithful.follow (h : tr.Faithful want ms s t) (hwant : m.stockLocate = want)
    (hall : run V1.Store.step ∅ (ms ++ [some m]).reduceOption = some t') (ht : t.step m = some t')
    (hs : s.step RefTable.hash m = some s')
    (hbest : (s'.bookOf want).bestBidAsk = some (t'.bookOf want).bestBidAsk) :
    ∃ tr', tr.round want (some m) = some tr' ∧ tr'.Faithful want (ms ++ [some m]) s' t' := by
  have hv1 : tr.v1.apply m = some (t'.bookOf want) := by
    simp only [V1.Store.step, Option.bind_eq_bind, Option.bind_eq_some_iff, Option.pure_def,
      Option.some.injEq] at ht
    obtain ⟨b, hb, rfl⟩ := ht
    rw [h.v1, ← hwant, hb, V1.Store.book_of_assign, Function.update_self]
  have hv3 : tr.v3b.apply RefTable.hash tr.shared m = some (s'.toShared, s'.bookOf want) := by
    simp only [V3.Store.step, Option.bind_eq_bind, Option.bind_eq_some_iff, Option.pure_def,
      Option.some.injEq] at hs
    obtain ⟨⟨shared, b⟩, hb, rfl⟩ := hs
    rw [h.v3b, h.shared, ← hwant, hb, V3.Store.book_of_assign, Function.update_self]
  have hline : Told want (ms ++ [some m]) (tr.n + 1, (t'.bookOf want).bestBidAsk,
      (t'.bookOf want).bestBidAsk) := by
    have hlen : tr.n + 1 = (ms ++ [some m]).length := by simp [h.count]
    exact ⟨hlen.le, t', by rw [hlen, List.take_length, hall], rfl⟩
  have hround : tr.round want (some m) = some ⟨t'.bookOf want, s'.toShared, s'.bookOf want,
      tr.n + 1, if tr.lines.length < 60 then tr.lines ++ [(tr.n + 1, (t'.bookOf want).bestBidAsk,
        (t'.bookOf want).bestBidAsk)] else tr.lines, false⟩ := by
    simp [Trace.round, h.agrees, hwant, hv1, hv3, hbest]
  have hshown := h.shown
  have hmsgs : (messagesOf want (ms ++ [some m]).reduceOption).length =
      (messagesOf want ms.reduceOption).length + 1 := by
    rw [messages_of_concat, List.length_append]
    simp [messagesOf, hwant]
  refine ⟨_, hround, rfl, rfl, rfl, by simp [h.count], rfl, ?_, fun line hmem => ?_⟩
  · rw [hmsgs]
    split
    · rw [List.length_append, List.length_singleton]
      omega
    · show tr.lines.length = _
      omega
  · split at hmem
    · rcases List.mem_append.mp hmem with hold | hnew
      · exact (h.lines line hold).append _
      · rw [List.mem_singleton.mp hnew]
        exact hline
    · exact (h.lines line hmem).append _

end Faithful

end Trace

section Pipeline

/-- A receiver applies all packets of a partition in order. -/
theorem applied_in_sequence {τ : Type} {receive : τ → Packet → τ × Bool} {next gaps dups : τ → Nat}
    (h : Receiver.Follows receive next gaps dups) {t : τ} {ds : List Datagram} {lo hi : Nat}
    (hlong : ∀ d ∈ ds, Mold.kHeaderSize ≤ d.n) (hpart : Partition (ds.map Datagram.header) lo hi)
    (hnext : next t = 0 ∨ next t = lo) (hhi : hi < 2 ^ 64) : applied receive t ds = ds := by
  induction ds generalizing t lo with
  | nil => rfl
  | cons d ds ih =>
      obtain ⟨rfl, _, hrest⟩ := hpart
      have hend := hrest.bounds.1
      obtain ⟨t', ht', hnext', _, _⟩ := h.step t d.header hnext (by omega)
      have hn := Nat.not_lt.mpr (hlong d List.mem_cons_self)
      rw [applied, if_neg hn, ht']
      exact congrArg _ (ih (fun d' hd' => hlong d' (.tail _ hd')) hrest (.inr hnext'))

/-- What the v1, v2 and v3 receivers have after a delivery: the books and the message count. -/
def received {τ β : Type} (r : Option (Counters τ × β)) : Option (β × Nat) :=
  r.map fun r => (r.2, r.1.messages)

/-- The replay of the messages of complete frames. -/
theorem run_frames {β : Type} (step : β → Message → Option β) (b : β) (frames : List Frame) :
    run (mainRound step) (b, 0) (frames.map Frame.message) =
      (run step b (frames.filterMap Frame.message)).map (·, frames.length) := by
  have hmsgs : (frames.map Frame.message).reduceOption = frames.filterMap Frame.message := by
    rw [List.reduceOption, List.filterMap_map]
    rfl
  rw [run_main_round, hmsgs, List.length_map, Nat.zero_add]

/-- A receiver that gets all packets in order applies the messages of all frames. -/
theorem received_in_sequence {τ β : Type} {receive : τ → Packet → τ × Bool}
    {next gaps dups : τ → Nat} (h : Receiver.Follows receive next gaps dups) {t : τ}
    (hnext : next t = 0) (step : β → Message → Option β) (b : β) {ds : List Datagram}
    {frames : List Frame} (hpart : Partition (ds.map Datagram.header) 1 (1 + frames.length))
    (hlong : ∀ d ∈ ds, Mold.kHeaderSize ≤ d.n)
    (hcounts : ∀ d ∈ ds, d.messages.length = d.header.count)
    (hdecoded : ds.flatMap Datagram.decoded = frames.filterMap Frame.message)
    (hhi : 1 + frames.length < 2 ^ 64) :
    received (run (handle receive step) (⟨t, 0, 0⟩, b) ds) =
      (run step b (frames.filterMap Frame.message)).map (·, frames.length) := by
  obtain ⟨c, hc, _, _, hmessages, _⟩ :=
    h.on_datagrams (c := ⟨t, 0, 0⟩) hpart hcounts (.inl hnext) hhi
  have hcount : c.messages = frames.length := by
    simp only at hmessages
    omega
  rw [received, run_handle_applied, processed, applied_in_sequence h hlong hpart (.inl hnext) hhi,
    hdecoded, hc, Option.map_map]
  simp only [Function.comp_def, hcount]

/-- Take a file that is not empty, of complete frames that fit a packet. A receiver that gets the
packets that the sender makes of it in order and without loss ends with the very books and the
message count that the replay of the file on its own ends with, whatever the messages do to the
books; it goes wrong if the replay does. The v3 receiver has empty books beside them, which it has
created in advance. -/
theorem pipeline_matches_main {file : List UInt8} {frames : List Frame}
    (hsize : file.length < 2 ^ 63) (hfile : file ≠ []) (hframes : IsFrames file frames)
    (hcomplete : ∀ f ∈ frames, f.payload.length ≤ 1378 ∧ f.Complete)
    {stale : Sender.PacketBuffer} {s : Sender.ReplaySender}
    (hs : Sender.ReplaySender.replay stale ⟨file, 0, hsize⟩ = some s) {ds : List Datagram}
    (hds : List.Forall₂ Datagram.Holds ds s.sent) :
    received (run receiveV1 (⟨V1Tracker.initial, 0, 0⟩, ∅) ds) = v1Main file hsize ∧
      received (run receiveV2 (.initial, ∅) ds) = v1Main file hsize ∧
      ∀ s₀, V3.Store.new kPoolCapacity kRefCapacity = some s₀ →
        Option.Rel (fun r r' => r.1.Same r'.1 ∧ r.2 = r'.2) (v3Main file hsize)
          (received (run (receiveV3 RefTable.hash) (.initial, s₀.precreate kMaxSymbols) ds)) := by
  have hsent := packets_of_replay hsize hframes hcomplete hs
  obtain ⟨hlong, hheader, hdecoded⟩ := Datagram.read_packets hds hsent.packet
  have hpart : Partition (ds.map Datagram.header) 1 (1 + frames.length) := hheader ▸ hsent.part
  have hcounts : ∀ d ∈ ds, d.messages.length = d.header.count := fun d hd =>
    (hsent.header_mem (bytes_of_mem hds hd)).2
  have hseq := hsent.short
  rw [hsent.decoded] at hdecoded
  have hread := rounds_eq hsize hfile hframes fun f hf => (hcomplete f hf).2
  have hv1 : v1Main file hsize = (run V1.Store.step ∅ (frames.filterMap Frame.message)).map
      (·, frames.length) := by
    rw [v1Main, hread]
    exact run_frames _ _ frames
  rw [hv1]
  refine ⟨?_, ?_, ?_⟩
  · exact received_in_sequence follows_v1 rfl _ _ hpart hlong hcounts hdecoded hseq
  · exact received_in_sequence follows_v2 rfl _ _ hpart hlong hcounts hdecoded hseq
  · intro s₀ hnew
    have hv3 : v3Main file hsize = (run (V3.Store.step RefTable.hash) s₀
        (frames.filterMap Frame.message)).map (·, frames.length) := by
      rw [v3Main, hread, hnew]
      exact run_frames _ _ frames
    have hreceived := received_in_sequence (t := Tracker.initial) follows_v2 rfl
      (V3.Store.step RefTable.hash) (s₀.precreate kMaxSymbols) hpart hlong hcounts hdecoded hseq
    rw [hv3, receiveV3, Counters.initial, hreceived]
    have hmap : ∀ {r r' : Option V3.Store}, Option.Rel V3.Store.Same r r' →
        Option.Rel (fun r r' : V3.Store × Nat => r.1.Same r'.1 ∧ r.2 = r'.2)
          (r.map (·, frames.length)) (r'.map (·, frames.length)) := by
      intro r r' hrel
      cases hrel with
      | none => exact .none
      | some hsame => exact .some ⟨hsame, rfl⟩
    exact hmap ((V3.Store.same_precreate s₀ kMaxSymbols).run_rel RefTable.hash _)

theorem pipeline_matches_main_short_file :
    ∃ ds, ds ≠ [] ∧
      received (run receiveV1 (⟨V1Tracker.initial, 0, 0⟩, ∅) ds) =
        v1Main shortFile short_file_lt := by
  have hframes : IsFrames shortFile [(Message.add 1 10 kBid 5 10000).frame,
      (Message.add 2 20 0x53 7 10200).frame, (Message.execute 1 10 2).frame] :=
    ⟨[], by rw [List.append_nil]; rfl, .inl (by simp)⟩
  have hcomplete : ∀ f ∈ [(Message.add 1 10 kBid 5 10000).frame,
      (Message.add 2 20 0x53 7 10200).frame, (Message.execute 1 10 2).frame],
      f.payload.length ≤ 1378 ∧ f.Complete := by decide +kernel
  obtain ⟨s, hs, hsent, _⟩ := replay_file short_file_lt hframes (fun f hf => (hcomplete f hf).1)
    ⟨List.replicate Sender.kMaxPacketSize 0, List.length_replicate⟩
  obtain ⟨hv1, _, _⟩ := pipeline_matches_main short_file_lt (by decide) hframes hcomplete hs
    (Datagram.holds_map_of s.sent)
  refine ⟨_, ?_, hv1⟩
  rw [hsent]
  decide +kernel

end Pipeline

end FeedHandler
