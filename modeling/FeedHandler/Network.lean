import FeedHandler.Agreement
import FeedHandler.Receiver.EventLoop
import FeedHandler.Receiver.Lossless
import FeedHandler.V3.Precreated

/-!
# The receivers behind any network

A file goes through the sender, a network that may lose, repeat and reorder its packets, and one of
the receivers. `v1_sound` says what the v1 receiver is left with, and `receivers_agree` that the
books of the v2 and the v3 receiver still answer alike and that their report balances.
`losses_isolated` compares them with the books of the whole file: a loss stays in the books whose
messages are lost. By `repetitions_tolerated`, packets that arrive late or twice change nothing at
the end. `loop_agrees` is about the v3 receiver as it runs on its rings.
-/

namespace FeedHandler

open Itch Book Runs Receiver V3

/-- A datagram at the v1 receiver. -/
def receiveV1 : Counters V1Tracker × V1.Store → Datagram → Option (Counters V1Tracker × V1.Store) :=
  handle V1Tracker.receive V1.Store.step

section Selections

variable {msgs got : List Message}

/-- The v1 books follow the orders of every selection of a history. -/
theorem v1_selected (hmsgs : Coherent msgs) (hpart : got.Subperm msgs) :
    ∃ t os, run V1.Store.step ∅ got = some t ∧ run dispatch (fun _ => []) got = some os ∧
      t.Follows os ∧ Selected msgs got os := by
  induction got using List.reverseRecOn with
  | nil => exact ⟨∅, _, rfl, rfl, V1.Store.follows_new, selected_nil msgs⟩
  | append_singleton got m ih =>
      obtain ⟨t, os, ht, hos, hfollows, hselected⟩ :=
        ih ((List.sublist_append_left _ _).subperm.trans hpart)
      obtain ⟨t', ht', hfollows'⟩ := hfollows.step (hselected.within hmsgs hpart)
      exact ⟨t', _, by rw [run_concat, ht, Option.bind_some, ht'],
        by rw [run_concat, hos, Option.bind_some]; rfl, hfollows', hselected.concat hpart rfl⟩

/-- The messages of a book. -/
def messagesOf (locate : Nat) (msgs : List Message) : List Message :=
  msgs.filter fun m => m.stockLocate = locate

/-- A v1 book is changed by its own messages only. -/
theorem V1.Store.book_of_run {t t' : V1.Store} (h : run V1.Store.step t msgs = some t')
    (locate : Nat) :
    run V1.OrderBook.apply (t.bookOf locate) (messagesOf locate msgs) =
      some (t'.bookOf locate) := by
  have hstep : ∀ (t : V1.Store) (m : Message) (t' : V1.Store), t.step m = some t' →
      ∃ b, (t.bookOf m.stockLocate).apply m = some b ∧
        t'.bookOf = Function.update t.bookOf m.stockLocate b := by
    intro t m t' h
    simp only [V1.Store.step, Option.bind_eq_bind, Option.bind_eq_some_iff, Option.pure_def,
      Option.some.injEq] at h
    obtain ⟨b, hb, rfl⟩ := h
    exact ⟨b, hb, V1.Store.book_of_assign _ _ _⟩
  refine run_part (fun t => V1.Store.bookOf t locate) (fun t m t' h hkind => ?_)
    (fun t m t' h hother => ?_) h
  · obtain ⟨b, hb, hbooks⟩ := hstep t m t' h
    obtain rfl := of_decide_eq_true hkind
    rw [hb, hbooks, Function.update_self]
  · obtain ⟨b, hb, hbooks⟩ := hstep t m t' h
    rw [hbooks, Function.update_of_ne (Ne.symm (of_decide_eq_false hother))]

end Selections

section ThreePackets

/-- Three order messages, each with a message of another type behind it that fills the packet. -/
def threeFrames : List Frame :=
  [Message.add 1 10 kBid 5 10000, .add 2 20 0x53 7 10200, .execute 1 10 2].flatMap fun m =>
    [m.frame, ⟨0x49 :: List.replicate 1330 0, by
      rw [List.length_cons, List.length_replicate]
      decide⟩]

/-- Deliveries of their three packets. -/
def threePackets (order : List Nat) : List Datagram :=
  order.filterMap fun i =>
    ((Sender.packetsBytes 1 (Sender.cut [] threeFrames)).map Datagram.of)[i]?

theorem carried_three_packets (order : List Nat) : ∃ file frames,
    Carried file frames (threePackets order) ∧ frames.filterMap Frame.message =
      [.add 1 10 kBid 5 10000, .add 2 20 0x53 7 10200, .execute 1 10 2] ∧ frames.length = 6 := by
  have hcomplete : ∀ f ∈ threeFrames, f.payload.length ≤ 1378 ∧ f.Complete := by decide +kernel
  refine ⟨_, _, carried_of_cut hcomplete (by decide) fun d hd => ?_, by decide +kernel, rfl⟩
  obtain ⟨i, _, hi⟩ := List.mem_filterMap.mp hd
  obtain ⟨bytes, hbytes, rfl⟩ := List.mem_map.mp (List.mem_of_getElem? hi)
  exact ⟨bytes, hbytes, Datagram.holds_of bytes⟩

/-- The second packet is lost, and the first comes again behind the third. -/
def lossy : List Datagram := threePackets [0, 2, 0]

theorem carried_lossy : ∃ file frames, Carried file frames lossy ∧
    frames.filterMap Frame.message =
      [.add 1 10 kBid 5 10000, .add 2 20 0x53 7 10200, .execute 1 10 2] ∧ frames.length = 6 :=
  carried_three_packets _

theorem headers_lossy : headers lossy = [⟨1, 2⟩, ⟨5, 2⟩, ⟨1, 2⟩] := by decide +kernel

theorem processed_lossy :
    processed V1Tracker.receive .initial lossy = [.add 1 10 kBid 5 10000, .execute 1 10 2] ∧
      processed Tracker.receive .initial lossy = [.add 1 10 kBid 5 10000, .execute 1 10 2] := by
  decide +kernel

theorem fits_lossy :
    Fits 4 (2 ^ 2) (AnalyzeData.analyze (processed Tracker.receive .initial lossy)) := by
  rw [processed_lossy.2]
  exact ⟨by decide, by decide⟩

end ThreePackets

section Receivers

variable {file : List UInt8} {frames : List Frame} {ds : List Datagram}

/-- Whatever a network loses, repeats and reorders of the packets of a valid history, the v1
receiver applies a part of its messages, in the order of the file. Its books never take more shares
than remain: they follow the orders of these messages. The messages and the losses it reports add up
to the distance it has moved. -/
theorem v1_sound (h : Carried file frames ds)
    (hvalid : ValidHistory (frames.filterMap Frame.message)) :
    ∃ c t os, run receiveV1 (⟨V1Tracker.initial, 0, 0⟩, ∅) ds = some (c, t) ∧
      (processed V1Tracker.receive .initial ds).Sublist (frames.filterMap Frame.message) ∧
      run dispatch (fun _ => []) (processed V1Tracker.receive .initial ds) = some os ∧
      t.Follows os ∧
      ∀ p ps, headers ds = p :: ps →
        p.seq + c.messages + c.tracker.lost = c.tracker.expectedSeq := by
  have hpart := h.applied_in_order
  obtain ⟨t, os, ht, hos, hfollows, _⟩ := v1_selected hvalid.good.2 hpart.subperm
  have hr : run receiveV1 (⟨V1Tracker.initial, 0, 0⟩, ∅) ds =
      some ((onDatagrams V1Tracker.receive ⟨V1Tracker.initial, 0, 0⟩ ds).1, t) := by
    rw [receiveV1, run_handle_applied, ht, Option.map_some]
  refine ⟨_, t, os, hr, hpart, hos, hfollows, fun p ps hheaders => ?_⟩
  simp only [counters_applied, Nat.zero_add]
  exact h.v1_report hheaders

theorem v1_sound_lossy :
    ∃ c t os, run receiveV1 (⟨V1Tracker.initial, 0, 0⟩, ∅) lossy = some (c, t) ∧
      run dispatch (fun _ => []) [.add 1 10 kBid 5 10000, .execute 1 10 2] = some os ∧
      t.Follows os ∧ 1 + c.messages + c.tracker.lost = c.tracker.expectedSeq := by
  obtain ⟨file, frames, h, hframes, _⟩ := carried_lossy
  obtain ⟨c, t, os, ht, _, hos, hfollows, hreport⟩ := v1_sound h (by rw [hframes]; decide)
  rw [processed_lossy.1] at hos
  exact ⟨c, t, os, ht, hos, hfollows, hreport _ _ headers_lossy⟩

section InStep

variable {hash : Nat → Nat} {capacity refCapacity : Nat} {msgs seen : List Message}
  {s s' : V3.Store} {t : V1.Store} {lists : Lists} {os : Nat → Orders}

/-- Books in step have the same live orders. -/
theorem InStep.live_eq (h : InStep hash capacity refCapacity msgs seen s t lists os)
    (locate : Nat) :
    s.live locate = (t.bookOf locate).live := by
  ext o
  rw [h.v3.inv.live_eq, (h.v1 locate).1.live_eq, (h.v3.shows locate).mem_live_iff,
    (h.v1 locate).2.mem_live_iff]

/-- Books created in advance stay in step. -/
theorem InStep.congr (h : InStep hash capacity refCapacity msgs seen s t lists os)
    (hsame : s.Same s') : InStep hash capacity refCapacity msgs seen s' t lists os := by
  obtain ⟨hshared, hbooks⟩ := hsame
  obtain ⟨shared, books⟩ := s
  obtain ⟨shared', books'⟩ := s'
  obtain rfl : shared = shared' := hshared
  have hv3 : V3.Store.Follows hash capacity ⟨shared, books'⟩ lists os := by
    refine ⟨?_, fun locate => ?_, fun locate => ?_⟩
    · exact hbooks ▸ h.v3.inv
    · exact hbooks ▸ h.v3.exact locate
    · have hshows := h.v3.shows locate
      rw [V3.Store.view, hbooks] at hshows
      exact hshows
  have hbalanced : Balanced ⟨shared, books'⟩ := by
    have hlists := h.balanced
    simp only [V3.Balanced, V3.Store.LevelList, hbooks] at hlists ⊢
    exact hlists
  exact ⟨hv3, h.v1, h.selected, hbalanced, h.known, h.table, hbooks ▸ h.small⟩

end InStep

/-- The v2 and the v3 receiver end in step. -/
theorem receivers_in_step (hash : Nat → Nat) {capacity refExp : Nat} {s : V3.Store}
    (hexp : 1 ≤ refExp) (hnew : V3.Store.new capacity (2 ^ refExp) = some s)
    (h : Carried file frames ds) (hvalid : ValidHistory (frames.filterMap Frame.message))
    (hkeys : Keyed (frames.filterMap Frame.message))
    (hfits : Fits capacity (2 ^ refExp)
      (AnalyzeData.analyze (processed Tracker.receive .initial ds)))
    (hshort : 2 * kWindow + frames.length ≤ 2 ^ 31) :
    ∃ t s' lists os,
      run receiveV2 (.initial, ∅) ds = some ((onDatagrams Tracker.receive .initial ds).1, t) ∧
      run (receiveV3 hash) (.initial, s.precreate kMaxSymbols) ds =
        some ((onDatagrams Tracker.receive .initial ds).1, s') ∧
      run V1.Store.step ∅ (processed Tracker.receive .initial ds) = some t ∧
      InStep hash capacity (2 ^ refExp) (frames.filterMap Frame.message)
        (processed Tracker.receive .initial ds) s' t lists os := by
  have hpart := h.applied_part
  have hlen := hpart.length_le.trans (List.length_filterMap_le _ _)
  obtain ⟨s₀, t, lists, os, hs₀, ht, hstep⟩ :=
    in_step_of_selection hash hexp hnew hvalid hkeys hpart hfits (by omega)
  obtain ⟨s', hs', hsame⟩ := (V3.Store.same_precreate s kMaxSymbols).run hs₀
  refine ⟨t, s', lists, os, ?_, ?_, ht, hstep.congr hsame⟩
  · rw [receiveV2, run_handle_applied, Counters.initial, ht, Option.map_some]
  · rw [receiveV3, run_handle_applied, Counters.initial, hs', Option.map_some]

/-- If the file is a valid history without the empty key and the peak of live references in what
arrives fits the pool and half of the table, the v2 and the v3 receiver end with the same counters
and with books that answer every question alike. Without a long jump the messages and the losses
they report add up to the distance from the first packet to the mark. -/
theorem receivers_agree (hash : Nat → Nat) {capacity refExp : Nat} {s : V3.Store}
    (hexp : 1 ≤ refExp) (hnew : V3.Store.new capacity (2 ^ refExp) = some s)
    (h : Carried file frames ds) (hvalid : ValidHistory (frames.filterMap Frame.message))
    (hkeys : Keyed (frames.filterMap Frame.message))
    (hfits : Fits capacity (2 ^ refExp)
      (AnalyzeData.analyze (processed Tracker.receive .initial ds)))
    (hshort : 2 * kWindow + frames.length ≤ 2 ^ 31) :
    ∃ c t s', run receiveV2 (.initial, ∅) ds = some (c, t) ∧
      run (receiveV3 hash) (.initial, s.precreate kMaxSymbols) ds = some (c, s') ∧
      Equivalent hash s' t ∧ ∀ p ps, headers ds = p :: ps → Tracker.NoLongJump (headers ds) →
        p.seq + c.messages + c.tracker.trulyLost = c.tracker.highSeq := by
  obtain ⟨t, s', lists, os, ht, hs', _, hstep⟩ :=
    receivers_in_step hash hexp hnew h hvalid hkeys hfits hshort
  refine ⟨_, t, s', ht, hs', equivalent_of_follows hstep.v3 hstep.v1, ?_⟩
  intro p ps hheaders hjumps
  simp only [counters_applied, Counters.initial, Nat.zero_add]
  exact h.report hheaders hjumps

theorem receivers_agree_lossy :
    ∃ s c t s', V3.Store.new 4 (2 ^ 2) = some s ∧ run receiveV2 (.initial, ∅) lossy = some (c, t) ∧
      run (receiveV3 RefTable.hash) (.initial, s.precreate kMaxSymbols) lossy = some (c, s') ∧
      Equivalent RefTable.hash s' t ∧ 1 + c.messages + c.tracker.trulyLost = c.tracker.highSeq := by
  obtain ⟨s, hnew⟩ : ∃ s, V3.Store.new 4 (2 ^ 2) = some s := ⟨_, rfl⟩
  obtain ⟨file, frames, h, hframes, hlen⟩ := carried_lossy
  obtain ⟨c, t, s', ht, hs', hequiv, hreport⟩ := receivers_agree RefTable.hash (by decide) hnew h
    (by rw [hframes]; decide) (by rw [hframes]; decide) fits_lossy (by rw [hlen]; decide)
  refine ⟨s, c, t, s', hnew, ht, hs', hequiv,
    hreport _ _ headers_lossy (Tracker.no_long_jump_of_lt ?_)⟩
  rw [headers_lossy]
  decide

/-- If the network brings every packet of a valid history at least once, the first one first and
without a long jump, no message is applied before the introduction of the reference it names, and
the peak of live references in what is applied fits, then the v2 and the v3 receiver apply every
message once, report no loss, and end with the live orders and the tops of book that a replay of the
file ends with. -/
theorem repetitions_tolerated (hash : Nat → Nat) {capacity refExp : Nat} {s : V3.Store}
    (hexp : 1 ≤ refExp) (hnew : V3.Store.new capacity (2 ^ refExp) = some s)
    (h : Carried file frames ds) (hcover : Covering frames ds)
    (hjumps : Tracker.NoLongJump (headers ds))
    (hvalid : ValidHistory (frames.filterMap Frame.message))
    (hkeys : Keyed (frames.filterMap Frame.message))
    (hcausal : Causal (processed Tracker.receive .initial ds))
    (hfits : Fits capacity (2 ^ refExp)
      (AnalyzeData.analyze (processed Tracker.receive .initial ds)))
    (hshort : 2 * kWindow + frames.length ≤ 2 ^ 31) :
    ∃ c t s' whole, run receiveV2 (.initial, ∅) ds = some (c, t) ∧
      run (receiveV3 hash) (.initial, s.precreate kMaxSymbols) ds = some (c, s') ∧
      run V1.Store.step ∅ (frames.filterMap Frame.message) = some whole ∧
      c.messages = frames.length ∧ c.tracker.trulyLost = 0 ∧ t.Agree whole ∧
      ∀ locate, s'.live locate = (whole.bookOf locate).live ∧
        (s'.bookOf locate).bestBidAsk = some (whole.bookOf locate).bestBidAsk := by
  have hperm := h.applied_all hcover hjumps
  obtain ⟨hmessages, hlost⟩ := h.no_loss hcover hjumps
  obtain ⟨hgood, hcoherent⟩ := hvalid.good
  obtain ⟨whole, os, hwhole, hfollows, hdesc⟩ := v1_describes hgood
  obtain ⟨t, os', ht, hfollows', hdesc'⟩ :=
    v1_describes ((hcoherent.perm hperm.symm).good hcausal)
  obtain ⟨t', s', lists, os'', hrun, hrun', ht', hstep⟩ :=
    receivers_in_step hash hexp hnew h hvalid hkeys hfits hshort
  obtain rfl := Option.some.inj (ht'.symm.trans ht)
  have hagree : t'.Agree whole := by
    refine fun locate => ⟨?_, ?_⟩
    · rw [(hfollows locate).1.live_eq, (hfollows' locate).1.live_eq]
      exact same_live (hfollows' locate).2 (hfollows locate).2 hdesc' hdesc hperm
    · have htop := hfollows'.best locate
      rw [same_prices hdesc' hdesc hperm, same_prices hdesc' hdesc hperm] at htop
      exact htop.unique (hfollows.best locate)
  refine ⟨_, t', s', whole, hrun, hrun', hwhole, ?_, ?_, hagree, fun locate => ⟨?_, ?_⟩⟩
  · simp only [counters_applied, Counters.initial, Nat.zero_add]
    exact hmessages
  · simp only [counters_applied, Counters.initial]
    exact hlost
  · rw [← (hagree locate).1, hstep.live_eq]
  · rw [← (hagree locate).2]
    exact (equivalent_of_follows hstep.v3 hstep.v1).best locate

/-- The second packet comes last, and the third twice. -/
theorem repetitions_tolerated_late_packet :
    ∃ s c t s' whole, V3.Store.new 4 (2 ^ 2) = some s ∧
      run receiveV2 (.initial, ∅) (threePackets [0, 2, 2, 1]) = some (c, t) ∧
      run (receiveV3 RefTable.hash) (.initial, s.precreate kMaxSymbols)
        (threePackets [0, 2, 2, 1]) = some (c, s') ∧
      run V1.Store.step ∅ [.add 1 10 kBid 5 10000, .add 2 20 0x53 7 10200, .execute 1 10 2] =
        some whole ∧ c.messages = 6 ∧ c.tracker.trulyLost = 0 ∧ t.Agree whole := by
  obtain ⟨s, hnew⟩ : ∃ s, V3.Store.new 4 (2 ^ 2) = some s := ⟨_, rfl⟩
  obtain ⟨file, frames, h, hframes, hlen⟩ := carried_three_packets [0, 2, 2, 1]
  have hheaders : headers (threePackets [0, 2, 2, 1]) =
      [⟨1, 2⟩, ⟨5, 2⟩, ⟨5, 2⟩, ⟨3, 2⟩] := by decide +kernel
  have hprocessed : processed Tracker.receive .initial (threePackets [0, 2, 2, 1]) =
      [.add 1 10 kBid 5 10000, .execute 1 10 2, .add 2 20 0x53 7 10200] := by decide +kernel
  have hcover : Covering frames (threePackets [0, 2, 2, 1]) := by
    refine ⟨?_, fun n hlo hhi => ?_⟩
    · rw [hheaders]
      exact ⟨⟨1, 2⟩, rfl, rfl⟩
    · rw [hlen] at hhi
      simp only [hheaders, Packet.Covers, List.mem_cons, List.not_mem_nil, or_false,
        exists_eq_or_imp, exists_eq_left]
      omega
  have hjumps : Tracker.NoLongJump (headers (threePackets [0, 2, 2, 1])) := by
    refine Tracker.no_long_jump_of_lt ?_
    rw [hheaders]
    decide
  obtain ⟨c, t, s', whole, ht, hs', hwhole, hmessages, hlost, hagree, _⟩ :=
    repetitions_tolerated RefTable.hash (by decide) hnew h hcover hjumps (by rw [hframes]; decide)
      (by rw [hframes]; decide) (by rw [hprocessed]; decide)
      (by rw [hprocessed]; exact ⟨by decide, by decide⟩) (by rw [hlen]; decide)
  rw [hframes] at hwhole
  exact ⟨s, c, t, s', whole, hnew, ht, hs', hwhole, hmessages.trans hlen, hlost, hagree⟩

/-- Where all messages of a book are applied, in the order of the file, the book ends as if nothing
had been lost: at the v1 and the v2 receiver it is the book of the whole file, and at the v3
receiver it has the same live orders and the same top. The v3 books share a pool and a table, which
the peak of live references in what is applied has to fit. -/
theorem losses_isolated (hash : Nat → Nat) {capacity refExp : Nat} {s : V3.Store}
    (hexp : 1 ≤ refExp) (hnew : V3.Store.new capacity (2 ^ refExp) = some s)
    (h : Carried file frames ds) (hvalid : ValidHistory (frames.filterMap Frame.message))
    (hkeys : Keyed (frames.filterMap Frame.message))
    (hfits : Fits capacity (2 ^ refExp)
      (AnalyzeData.analyze (processed Tracker.receive .initial ds)))
    (hshort : 2 * kWindow + frames.length ≤ 2 ^ 31) :
    ∃ r₁ r₂ r₃ whole, run receiveV1 (⟨V1Tracker.initial, 0, 0⟩, ∅) ds = some r₁ ∧
      run receiveV2 (.initial, ∅) ds = some r₂ ∧
      run (receiveV3 hash) (.initial, s.precreate kMaxSymbols) ds = some r₃ ∧
      run V1.Store.step ∅ (frames.filterMap Frame.message) = some whole ∧
      ∀ locate,
        (messagesOf locate (processed V1Tracker.receive .initial ds) =
            messagesOf locate (frames.filterMap Frame.message) →
          r₁.2.bookOf locate = whole.bookOf locate) ∧
        (messagesOf locate (processed Tracker.receive .initial ds) =
            messagesOf locate (frames.filterMap Frame.message) →
          r₂.2.bookOf locate = whole.bookOf locate ∧
          r₃.2.live locate = (whole.bookOf locate).live ∧
          (r₃.2.bookOf locate).bestBidAsk = some (whole.bookOf locate).bestBidAsk) := by
  obtain ⟨whole, hwhole⟩ := v1_selected hvalid.good.2 (List.Subperm.refl _)
  obtain ⟨_, hwhole, _, _, _⟩ := hwhole
  obtain ⟨t₁, os₁, ht₁, _⟩ := v1_selected hvalid.good.2 h.applied_in_order.subperm
  obtain ⟨t, s', lists, os, ht, hs', hbooks, hstep⟩ :=
    receivers_in_step hash hexp hnew h hvalid hkeys hfits hshort
  -- the book of a store is what its messages make of the empty book
  have hsame : ∀ {t t' : V1.Store} {msgs msgs' : List Message} {locate : Nat},
      run V1.Store.step ∅ msgs = some t → run V1.Store.step ∅ msgs' = some t' →
      messagesOf locate msgs = messagesOf locate msgs' → t.bookOf locate = t'.bookOf locate := by
    intro t t' msgs msgs' locate ht ht' heq
    have hbook := V1.Store.book_of_run ht locate
    rw [heq, V1.Store.book_of_run ht' locate] at hbook
    exact (Option.some.inj hbook).symm
  have hr₁ : run receiveV1 (⟨V1Tracker.initial, 0, 0⟩, ∅) ds =
      some ((onDatagrams V1Tracker.receive ⟨V1Tracker.initial, 0, 0⟩ ds).1, t₁) := by
    rw [receiveV1, run_handle_applied, ht₁, Option.map_some]
  refine ⟨_, _, _, whole, hr₁, ht, hs', hwhole, fun locate => ⟨hsame ht₁ hwhole, fun heq => ?_⟩⟩
  have hbook := hsame hbooks hwhole heq
  refine ⟨hbook, ?_, ?_⟩
  · rw [← hbook, hstep.live_eq]
  · rw [← hbook]
    exact (equivalent_of_follows hstep.v3 hstep.v1).best locate

theorem losses_isolated_lossy :
    ∃ s r₁ r₂ r₃ whole, V3.Store.new 4 (2 ^ 2) = some s ∧
      run receiveV1 (⟨V1Tracker.initial, 0, 0⟩, ∅) lossy = some r₁ ∧
      run receiveV2 (.initial, ∅) lossy = some r₂ ∧
      run (receiveV3 RefTable.hash) (.initial, s.precreate kMaxSymbols) lossy = some r₃ ∧
      run V1.Store.step ∅ [.add 1 10 kBid 5 10000, .add 2 20 0x53 7 10200, .execute 1 10 2] =
        some whole ∧
      r₁.2.bookOf 1 = whole.bookOf 1 ∧ r₂.2.bookOf 1 = whole.bookOf 1 ∧
      r₃.2.live 1 = (whole.bookOf 1).live := by
  obtain ⟨s, hnew⟩ : ∃ s, V3.Store.new 4 (2 ^ 2) = some s := ⟨_, rfl⟩
  obtain ⟨file, frames, h, hframes, hlen⟩ := carried_lossy
  obtain ⟨r₁, r₂, r₃, whole, hr₁, hr₂, hr₃, hwhole, hbooks⟩ :=
    losses_isolated RefTable.hash (by decide) hnew h (by rw [hframes]; decide)
      (by rw [hframes]; decide) fits_lossy (by rw [hlen]; decide)
  rw [hframes] at hwhole
  obtain ⟨hv1, hv2⟩ := hbooks 1
  rw [hframes, processed_lossy.1] at hv1
  rw [hframes, processed_lossy.2] at hv2
  obtain ⟨hbook, hlive, _⟩ := hv2 (by decide)
  exact ⟨s, r₁, r₂, r₃, whole, hnew, hr₁, hr₂, hr₃, hwhole, hv1 (by decide), hbook, hlive⟩

/-- What the v3 receiver does with a completed datagram. -/
def loopV3 (hash : Nat → Nat) (r : Option (Counters Tracker × V3.Store)) (d : Datagram) :
    Option (Counters Tracker × V3.Store) := r.bind fun r => receiveV3 hash r d

/-- However the program and the kernel take turns, and in whichever order the receives complete, if
what they complete with are packets of a valid history that a network has carried, and what is
applied of it fits, then at every time the v3 books answer every question like the books of a v2
receiver that gets the handled datagrams one by one; and when the wait times out all datagrams are
handled. -/
theorem loop_agrees (hash : Nat → Nat) {capacity refExp : Nat} {s : V3.Store}
    (hexp : 1 ≤ refExp) (hnew : V3.Store.new capacity (2 ^ refExp) = some s)
    {bufs : Nat → Nat → UInt8} {events : List Event}
    (hok : Along (EventLoop.step (loopV3 hash)) EventLoop.Permitted
      (EventLoop.initial bufs (some (.initial, s.precreate kMaxSymbols))) events)
    (h : Carried file frames
      (EventLoop.completions (loopV3 hash) bufs (some (.initial, s.precreate kMaxSymbols)) events))
    (hvalid : ValidHistory (frames.filterMap Frame.message))
    (hkeys : Keyed (frames.filterMap Frame.message))
    (hfits : Fits capacity (2 ^ refExp) (AnalyzeData.analyze (processed Tracker.receive .initial
      (EventLoop.completions (loopV3 hash) bufs (some (.initial, s.precreate kMaxSymbols))
        events))))
    (hshort : 2 * kWindow + frames.length ≤ 2 ^ 31) :
    ∃ l past c s' t,
      run (EventLoop.step (loopV3 hash))
        (EventLoop.initial bufs (some (.initial, s.precreate kMaxSymbols))) events = some l ∧
      EventLoop.completions (loopV3 hash) bufs (some (.initial, s.precreate kMaxSymbols)) events =
        past ++ l.unhandled.map l.datagram ∧
      l.receiver = some (c, s') ∧ run receiveV2 (.initial, ∅) past = some (c, t) ∧
      Equivalent hash s' t ∧ (l.Permitted .timeout → l.unhandled = []) := by
  obtain ⟨l, hl, haccounted⟩ := EventLoop.accounted_run hok
  obtain ⟨past, hlog, hreceiver⟩ := haccounted.receiver
  change EventLoop.completions _ _ _ _ = _ at hlog
  rw [hlog] at h hfits
  have hpast := h.of_subset fun d hd => List.mem_append_left _ hd
  have hfits' := hfits.mono (processed_begin _ _ past _)
  obtain ⟨t, s', lists, os, ht, hs', _, hstep⟩ :=
    receivers_in_step hash hexp hnew hpast hvalid hkeys hfits' hshort
  refine ⟨l, past, _, s', t, hl, hlog, ?_, ht, equivalent_of_follows hstep.v3 hstep.v1, ?_⟩
  · rw [hreceiver]
    exact (foldl_bind _ _).trans hs'
  · intro htimeout
    rw [EventLoop.unhandled, htimeout.2, List.drop_nil]

/-- One packet of two messages. -/
def onePacket : List UInt8 :=
  Sender.packetBytes 1 [(Message.add 1 10 kBid 5 10000).frame, (Message.execute 1 10 2).frame]

/-- All receives are submitted, and one completes with the packet and is handled. -/
def onePacketEvents : List Event :=
  List.replicate 33 .go ++ [.submitted 32] ++ onePacket.mapIdx (fun i b => .write 3 i b) ++
    [.complete 3 onePacket.length, .go, .go, .go]

theorem loop_agrees_one_packet :
    ∃ s l c s', V3.Store.new 4 (2 ^ 2) = some s ∧
      run (EventLoop.step (loopV3 RefTable.hash))
        (EventLoop.initial (fun _ _ => 0) (some (.initial, s.precreate kMaxSymbols)))
        onePacketEvents = some l ∧
      l.receiver = some (c, s') ∧ ∃ past t, run receiveV2 (.initial, ∅) past = some (c, t) ∧
        Equivalent RefTable.hash s' t := by
  obtain ⟨s, hnew⟩ : ∃ s, V3.Store.new 4 (2 ^ 2) = some s := ⟨_, rfl⟩
  have hok : Along (EventLoop.step (loopV3 RefTable.hash)) EventLoop.Permitted
      (EventLoop.initial (fun _ _ => 0) (some (.initial, s.precreate kMaxSymbols)))
      onePacketEvents := by
    cases hnew
    decide +kernel
  have hheld : ∀ d ∈ EventLoop.completions (loopV3 RefTable.hash) (fun _ _ => 0)
      (some (.initial, s.precreate kMaxSymbols)) onePacketEvents, d.Holds onePacket := by
    cases hnew
    unfold Datagram.Holds
    decide +kernel
  have hfits : Fits 4 (2 ^ 2) (AnalyzeData.analyze (processed Tracker.receive .initial
      (EventLoop.completions (loopV3 RefTable.hash) (fun _ _ => 0)
        (some (.initial, s.precreate kMaxSymbols)) onePacketEvents))) := by
    cases hnew
    exact ⟨by decide +kernel, by decide +kernel⟩
  have hcomplete : ∀ f ∈ [(Message.add 1 10 kBid 5 10000).frame, (Message.execute 1 10 2).frame],
      f.payload.length ≤ 1378 ∧ f.Complete := by decide +kernel
  obtain ⟨l, past, c, s', t, hl, _, hreceiver, ht, hequiv, _⟩ := loop_agrees RefTable.hash
    (by decide) hnew hok (carried_of_cut hcomplete (by decide) fun d hd =>
      ⟨onePacket, by decide +kernel, hheld d hd⟩) (by decide +kernel) (by decide +kernel) hfits
    (by decide)
  exact ⟨s, l, c, s', hnew, hl, hreceiver, past, t, ht, hequiv⟩

end Receivers

end FeedHandler
