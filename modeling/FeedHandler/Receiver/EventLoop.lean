import FeedHandler.Receiver.Dispatch

/-!
# The io_uring loop of the v2 and the v3 receiver

The receive loop as one machine with the kernel: the program points of `main`, the two rings, the
receives in flight and the buffers they write. The program and the kernel take turns in any order.
What the kernel does is not under the program's control; `Permitted` says what its interface
promises. A step is `none` where the program would go wrong: no submission entry is left, or the
completion ring is full. The wait takes no submission entry, as on kernels with
`IORING_FEAT_EXT_ARG`; on older ones the library prepares one for its time-out. Read `Accounted`
first.

`slots_accounted` says that this does not happen and that no buffer is read while the kernel may
write it, and `loop_delivers` that the receiver handles every completed receive once, in the order
of completion, with the bytes it completed with.
-/

namespace FeedHandler.Receiver

open Runs

universe u

/-- `kQueueDepth`. -/
def kQueueDepth : Nat := 32

/-- The completion ring has twice as many entries as the submission ring. -/
def kCqEntries : Nat := 2 * kQueueDepth

/-- `kBufSize`. -/
def kBufSize : Nat := 2048

/-- The program points of `main`. `prepare` and `start` are the loop and the submission before the
receive loop. In the receive loop, `each` is the head of `io_uring_for_each_cqe` and `rearm` the
call of `prep_recv` behind the parsing. -/
inductive Control where
  | prepare (i : Nat)
  | start
  | wait
  | each
  | rearm (idx : Nat)
  | advance
  | submit
  | stopped
  deriving DecidableEq, Repr

/-- The state of the program and of the rings. A receive is the index of its buffer, which is also
its user data, and a completion an index and a result. `sq` are the receives that are prepared and
not submitted; `cq` keeps the entries that are handled until `io_uring_cq_advance`. -/
structure EventLoop (ρ : Type u) where
  control : Control
  sq : List Nat
  inFlight : List Nat
  cq : List (Nat × Int)
  completed : Nat
  bufs : Nat → Nat → UInt8
  receiver : ρ

/-- What happens next: the program goes on, or a call into the kernel returns, or the kernel writes
a byte of a receive or completes it. A submission takes some of the prepared receives. -/
inductive Event where
  | go
  | submitted (k : Nat)
  | timeout
  | failed
  | write (idx addr : Nat) (byte : UInt8)
  | complete (idx : Nat) (res : Int)
  deriving DecidableEq, Repr

namespace EventLoop

variable {ρ : Type u} (handler : ρ → Datagram → ρ)

/-- The variables before the first receive is prepared. -/
def initial (bufs : Nat → Nat → UInt8) (r : ρ) : EventLoop ρ where
  control := .prepare 0
  sq := []
  inFlight := []
  cq := []
  completed := 0
  bufs := bufs
  receiver := r

/-- `prep_recv`. Without a free submission entry `io_uring_get_sqe` returns a null pointer. -/
def prepRecv (s : EventLoop ρ) (idx : Nat) : Option (EventLoop ρ) :=
  if s.sq.length < kQueueDepth then some { s with sq := s.sq ++ [idx] } else none

/-- What a completion stands for: its buffer and the received length. A result below zero is an
error, and such a datagram is skipped like one that is shorter than a header. -/
def datagram (s : EventLoop ρ) (c : Nat × Int) : Datagram := ⟨s.bufs c.1, c.2.toNat⟩

/-- The program goes on from its program point. -/
def go (s : EventLoop ρ) : Option (EventLoop ρ) :=
  match s.control with
  | .prepare i =>
      if i < kQueueDepth then do
        let s ← s.prepRecv i
        return { s with control := .prepare (i + 1) }
      else some { s with control := .start }
  | .wait => some { s with control := .each, completed := 0 }
  | .each =>
      match s.cq[s.completed]? with
      | some c =>
          some { s with control := .rearm c.1, receiver := handler s.receiver (s.datagram c) }
      | none => some { s with control := .advance }
  | .rearm idx => do
      let s ← s.prepRecv idx
      return { s with control := .each, completed := s.completed + 1 }
  | .advance => some { s with control := .submit, cq := s.cq.drop s.completed }
  | .submit => if s.completed = 0 then some { s with control := .wait } else none
  | .start | .stopped => none

/-- One event. -/
def step (s : EventLoop ρ) : Event → Option (EventLoop ρ)
  | .go => s.go handler
  | .submitted k =>
      some { s with control := .wait, sq := s.sq.drop k, inFlight := s.inFlight ++ s.sq.take k }
  | .timeout | .failed => some { s with control := .stopped }
  | .write idx addr byte =>
      some { s with bufs := Function.update s.bufs idx (Function.update (s.bufs idx) addr byte) }
  | .complete idx res =>
      if s.cq.length < kCqEntries then
        some { s with inFlight := s.inFlight.erase idx, cq := s.cq ++ [(idx, res)] }
      else none

/-- What the interface of the kernel promises. A wait returns when there is a completion, and times
out when there is none; it may fail at any time. A submission takes the oldest prepared receives,
all or only some. Only receives in flight are written and completed, in any order, and with no more
bytes than the buffer has. -/
def Permitted (s : EventLoop ρ) : Event → Prop
  | .go => s.control ≠ .start ∧ s.control ≠ .stopped ∧ (s.control = .wait → s.cq ≠ []) ∧
      (s.control = .submit → s.completed = 0)
  | .submitted k => (s.control = .start ∨ s.control = .submit ∧ 0 < s.completed) ∧ k ≤ s.sq.length
  | .timeout => s.control = .wait ∧ s.cq = []
  | .failed => s.control = .wait
  | .write idx addr _ => idx ∈ s.inFlight ∧ addr < kBufSize
  | .complete idx res => idx ∈ s.inFlight ∧ res ≤ kBufSize

instance (s : EventLoop ρ) : ∀ e, Decidable (s.Permitted e)
  | .go => inferInstanceAs (Decidable (_ ∧ _ ∧ (_ → _) ∧ (_ → _)))
  | .submitted _ => inferInstanceAs (Decidable ((_ ∨ _ ∧ _) ∧ _))
  | .timeout => inferInstanceAs (Decidable (_ ∧ _))
  | .failed => inferInstanceAs (Decidable (_ = _))
  | .write .. => inferInstanceAs (Decidable (_ ∧ _))
  | .complete .. => inferInstanceAs (Decidable (_ ∧ _))

/-- The datagrams that the kernel has completed, in order and with the bytes they had then. -/
def delivered (s : EventLoop ρ) (log : List Datagram) : Event → List Datagram
  | .complete idx res => log ++ [s.datagram (idx, res)]
  | _ => log

/-- The datagrams that the kernel has completed during a run. -/
def completions (bufs : Nat → Nat → UInt8) (r : ρ) (events : List Event) : List Datagram :=
  beside (step handler) delivered (initial bufs r) [] events

/-- How many receives are prepared at first. -/
def prepared (s : EventLoop ρ) : Nat :=
  match s.control with
  | .prepare i => i
  | _ => kQueueDepth

/-- How many entries of the completion ring are handled and not given back. -/
def handled (s : EventLoop ρ) : Nat :=
  match s.control with
  | .each | .advance => s.completed
  | .rearm _ => s.completed + 1
  | _ => 0

/-- The buffer between its parsing and `prep_recv`. -/
def held (s : EventLoop ρ) : List Nat :=
  match s.control with
  | .rearm idx => [idx]
  | _ => []

/-- The completions that are not handled. -/
def unhandled (s : EventLoop ρ) : List (Nat × Int) := s.cq.drop s.handled

/-- Every buffer is in one place: prepared, in flight, completed, or held by the program. The
receiver has handled the completed datagrams but those of the unhandled completions, whose buffers
are as they were. -/
structure Accounted (handler : ρ → Datagram → ρ) (r : ρ) (s : EventLoop ρ) (log : List Datagram) :
    Prop where
  slots : (s.sq ++ (s.inFlight ++ (s.unhandled.map Prod.fst ++ s.held))).Perm
    (List.range s.prepared)
  prepared_le : s.prepared ≤ kQueueDepth
  handled_le : s.handled ≤ s.sq.length + s.held.length
  handled_cq : s.handled ≤ s.cq.length
  receiver : ∃ past, log = past ++ s.unhandled.map s.datagram ∧
    s.receiver = past.foldl handler r

variable {handler} {r : ρ} {s : EventLoop ρ} {log : List Datagram}

section Counts

/-- The buffers are all there is to count. -/
theorem Accounted.count (h : s.Accounted handler r log) :
    s.sq.length + s.inFlight.length + s.unhandled.length + s.held.length = s.prepared := by
  have hlen := h.slots.length_eq
  simp only [List.length_append, List.length_map, List.length_range] at hlen
  omega

theorem Accounted.nodup (h : s.Accounted handler r log) :
    (s.sq ++ (s.inFlight ++ (s.unhandled.map Prod.fst ++ s.held))).Nodup :=
  h.slots.nodup_iff.mpr List.nodup_range

/-- The completion ring is never more than half full. -/
theorem Accounted.cq_le (h : s.Accounted handler r log) : s.cq.length ≤ kQueueDepth := by
  have hcount := h.count
  have hle := h.handled_le
  have hcq := h.handled_cq
  have hprepared := h.prepared_le
  have hlen : s.unhandled.length = s.cq.length - s.handled := List.length_drop
  omega

/-- A receive in flight is neither completed nor held. -/
theorem Accounted.not_unhandled (h : s.Accounted handler r log) {idx : Nat}
    (hidx : idx ∈ s.inFlight) : idx ∉ s.unhandled.map Prod.fst ++ s.held := by
  have hnodup := (List.nodup_append.mp h.nodup).2.1
  intro hmem
  exact (List.nodup_append.mp hnodup).2.2 idx hidx idx hmem rfl

end Counts

section Steps

/-- Before the first receive is prepared. -/
theorem accounted_initial (bufs : Nat → Nat → UInt8) :
    (initial bufs r).Accounted handler r [] where
  slots := List.Perm.refl []
  prepared_le := Nat.zero_le _
  handled_le := Nat.zero_le _
  handled_cq := Nat.zero_le _
  receiver := ⟨[], rfl, rfl⟩

/-- The loop before the first submission. -/
theorem Accounted.go_prepare (h : s.Accounted handler r log) {i : Nat}
    (hcontrol : s.control = .prepare i) : ∃ s', s.go handler = some s' ∧
      s'.Accounted handler r log := by
  have hcount := h.count
  obtain ⟨hslots, hle, hhandled, hcq, hreceiver⟩ := h
  simp only [prepared, handled, held, unhandled, hcontrol, List.drop_zero, List.append_nil]
    at hcount hslots hle hreceiver
  rw [go, hcontrol]
  simp only
  split
  next hlt =>
    rw [prepRecv, if_pos (by omega)]
    refine ⟨_, rfl, ?_, ?_, ?_, ?_, ?_⟩
    · -- the new receive comes after the others
      simp only [prepared, unhandled, handled, held, List.drop_zero, List.append_nil,
        List.append_assoc, List.range_succ]
      exact (List.perm_append_comm.append_left _).trans
        (by simpa using hslots.append_right [i])
    · exact hlt
    · exact Nat.zero_le _
    · exact Nat.zero_le _
    · exact hreceiver
  next hge =>
    obtain rfl : i = kQueueDepth := by omega
    refine ⟨_, rfl, ?_, le_rfl, Nat.zero_le _, Nat.zero_le _, hreceiver⟩
    simpa [prepared, unhandled, handled, held] using hslots

/-- A change of the program point alone, between points of the receive loop that keep no completion
back and hold no buffer. -/
theorem Accounted.move (h : s.Accounted handler r log) {c : Control} {n : Nat}
    (hprepared : s.prepared = kQueueDepth) (hhandled : s.handled = 0) (hheld : s.held = [])
    (hprepared' : ({ s with control := c, completed := n } : EventLoop ρ).prepared = kQueueDepth)
    (hhandled' : ({ s with control := c, completed := n } : EventLoop ρ).handled = 0)
    (hheld' : ({ s with control := c, completed := n } : EventLoop ρ).held = []) :
    ({ s with control := c, completed := n } : EventLoop ρ).Accounted handler r log := by
  obtain ⟨hslots, _, _, _, hreceiver⟩ := h
  rw [unhandled, hhandled, hheld, hprepared] at hslots
  rw [unhandled, hhandled] at hreceiver
  refine ⟨?_, hprepared'.le, ?_, ?_, ?_⟩
  · rwa [unhandled, hhandled', hheld', hprepared']
  · rw [hhandled']
    exact Nat.zero_le _
  · rw [hhandled']
    exact Nat.zero_le _
  · rwa [unhandled, hhandled']

/-- The next entry of the completion ring, or the end of the batch. -/
theorem Accounted.go_each (h : s.Accounted handler r log) (hcontrol : s.control = .each) :
    ∃ s', s.go handler = some s' ∧ s'.Accounted handler r log := by
  obtain ⟨hslots, hle, hhandled, hcq, past, hlog, hreceiver⟩ := h
  simp only [prepared, handled, held, unhandled, hcontrol, List.append_nil, List.length_nil]
    at hslots hle hhandled hcq hlog
  rw [go, hcontrol]
  simp only
  split
  next c hc =>
    obtain ⟨hlt, hget⟩ := List.getElem?_eq_some_iff.mp hc
    rw [List.drop_eq_getElem_cons hlt, hget] at hslots hlog
    refine ⟨_, rfl, ?_, le_rfl, ?_, ?_, past ++ [s.datagram c], ?_, ?_⟩
    · -- the buffer is held now
      refine (List.Perm.append_left _ (List.Perm.append_left _ ?_)).trans hslots
      exact List.perm_append_comm
    · show s.completed + 1 ≤ s.sq.length + 1
      omega
    · exact hlt
    · rw [hlog, List.append_assoc]
      rfl
    · rw [List.foldl_append, ← hreceiver]
      rfl
  next => exact ⟨_, rfl, by simpa [prepared, unhandled, handled, held] using hslots, le_rfl,
      hhandled, hcq, past, hlog, hreceiver⟩

/-- `prep_recv` behind the parsing, where a submission entry is free. -/
theorem Accounted.go_rearm (h : s.Accounted handler r log) {idx : Nat}
    (hcontrol : s.control = .rearm idx) :
    ∃ s', s.go handler = some s' ∧ s'.Accounted handler r log := by
  have hcount := h.count
  obtain ⟨hslots, hle, hhandled, hcq, hreceiver⟩ := h
  simp only [prepared, handled, held, unhandled, hcontrol, List.length_singleton]
    at hcount hslots hle hhandled hcq hreceiver
  rw [go, hcontrol]
  simp only
  rw [prepRecv, if_pos (by omega)]
  refine ⟨_, rfl, ?_, le_rfl, ?_, hcq, hreceiver⟩
  · refine List.perm_iff_count.mpr fun i => ?_
    have hi := hslots.count_eq i
    simp only [prepared, unhandled, handled, held, List.count_append, List.append_nil] at hi ⊢
    omega
  · show s.completed + 1 ≤ (s.sq ++ [idx]).length + 0
    rw [List.length_append, List.length_singleton]
    omega

/-- `io_uring_cq_advance`. -/
theorem Accounted.go_advance (h : s.Accounted handler r log) (hcontrol : s.control = .advance) :
    ∃ s', s.go handler = some s' ∧ s'.Accounted handler r log := by
  obtain ⟨hslots, _, _, _, hreceiver⟩ := h
  simp only [prepared, handled, held, unhandled, hcontrol] at hslots hreceiver
  rw [go, hcontrol]
  exact ⟨_, rfl, hslots, le_rfl, Nat.zero_le _, Nat.zero_le _, hreceiver⟩

/-- The program goes on. -/
theorem Accounted.go (h : s.Accounted handler r log) (hok : s.Permitted .go) :
    ∃ s', s.go handler = some s' ∧ s'.Accounted handler r log := by
  obtain ⟨hstart, hstopped, _, hsubmit⟩ := hok
  cases hcontrol : s.control with
  | prepare i => exact h.go_prepare hcontrol
  | each => exact h.go_each hcontrol
  | rearm idx => exact h.go_rearm hcontrol
  | advance => exact h.go_advance hcontrol
  | start => exact absurd hcontrol hstart
  | stopped => exact absurd hcontrol hstopped
  | wait =>
      rw [EventLoop.go, hcontrol]
      refine ⟨_, rfl, h.move ?_ ?_ ?_ rfl rfl rfl⟩ <;> simp [prepared, handled, held, hcontrol]
  | submit =>
      rw [EventLoop.go, hcontrol]
      simp only [if_pos (hsubmit hcontrol)]
      refine ⟨_, rfl, h.move ?_ ?_ ?_ rfl rfl rfl⟩ <;> simp [prepared, handled, held, hcontrol]

/-- A submission. -/
theorem Accounted.submitted (h : s.Accounted handler r log) {k : Nat}
    (hok : s.Permitted (.submitted k)) :
    ∃ s', s.step handler (.submitted k) = some s' ∧ s'.Accounted handler r log := by
  obtain ⟨hcontrol, _⟩ := hok
  obtain ⟨hslots, _, _, _, hreceiver⟩ := h
  have hat : s.prepared = kQueueDepth ∧ s.handled = 0 ∧ s.held = [] := by
    rcases hcontrol with heq | ⟨heq, _⟩ <;> simp [prepared, handled, held, heq]
  obtain ⟨hprepared, hhandled, hheld⟩ := hat
  rw [unhandled, hhandled, hheld, hprepared] at hslots
  rw [unhandled, hhandled] at hreceiver
  refine ⟨_, rfl, ?_, le_rfl, Nat.zero_le _, Nat.zero_le _, hreceiver⟩
  -- the taken receives go from the one list to the other
  refine List.perm_iff_count.mpr fun i => ?_
  have hi := hslots.count_eq i
  have htaken := congrArg (List.count i) (List.take_append_drop k s.sq)
  simp only [prepared, unhandled, handled, held, List.count_append, List.append_nil] at hi htaken ⊢
  omega

/-- The kernel writes a buffer of a receive in flight. -/
theorem Accounted.write (h : s.Accounted handler r log) {idx addr : Nat} {byte : UInt8}
    (hidx : idx ∈ s.inFlight) :
    ∃ s', s.step handler (.write idx addr byte) = some s' ∧ s'.Accounted handler r log := by
  have hfree := h.not_unhandled hidx
  obtain ⟨past, hlog, hreceiver⟩ := h.receiver
  refine ⟨_, rfl, h.slots, h.prepared_le, h.handled_le, h.handled_cq, past, ?_, hreceiver⟩
  rw [hlog]
  -- the buffers of the unhandled completions are others
  refine congrArg (past ++ ·) (List.map_congr_left fun c hc => ?_)
  have hne : c.1 ≠ idx := by
    intro heq
    exact hfree (heq ▸ List.mem_append_left _ (List.mem_map_of_mem hc))
  show _ = Datagram.mk (Function.update s.bufs idx _ c.1) c.2.toNat
  rw [Function.update_of_ne hne, datagram]

/-- The kernel completes a receive in flight. -/
theorem Accounted.complete (h : s.Accounted handler r log) {idx : Nat} {res : Int}
    (hidx : idx ∈ s.inFlight) :
    ∃ s', s.step handler (.complete idx res) = some s' ∧
      s'.Accounted handler r (log ++ [s.datagram (idx, res)]) := by
  have hcq := h.cq_le
  have hcqle := h.handled_cq
  obtain ⟨past, hlog, hreceiver⟩ := h.receiver
  have hspace : s.cq.length < kCqEntries := by
    unfold kCqEntries kQueueDepth at *
    omega
  have hunhandled : (s.cq ++ [(idx, res)]).drop s.handled = s.unhandled ++ [(idx, res)] :=
    List.drop_append_of_le_length hcqle
  rw [step, if_pos hspace]
  refine ⟨_, rfl, ?_, h.prepared_le, h.handled_le, ?_, past, ?_, hreceiver⟩
  · refine List.perm_iff_count.mpr fun i => ?_
    have hi := h.slots.count_eq i
    have herase := (List.perm_cons_erase hidx).count_eq i
    show List.count i (s.sq ++ (s.inFlight.erase idx ++
      (((s.cq ++ [(idx, res)]).drop s.handled).map Prod.fst ++ s.held))) = _
    rw [hunhandled]
    simp only [List.count_append, List.map_append, List.map_cons, List.map_nil, List.count_cons,
      List.count_nil] at hi herase ⊢
    show _ = List.count i (List.range s.prepared)
    omega
  · show s.handled ≤ (s.cq ++ [(idx, res)]).length
    rw [List.length_append]
    omega
  · show log ++ _ = past ++ (((s.cq ++ [(idx, res)]).drop s.handled).map s.datagram)
    rw [hunhandled, hlog, List.append_assoc, List.map_append]
    rfl

/-- One event that the kernel's interface permits. -/
theorem Accounted.step (h : s.Accounted handler r log) {e : Event} (hok : s.Permitted e) :
    ∃ s', s.step handler e = some s' ∧ s'.Accounted handler r (s.delivered log e) := by
  cases e with
  | go => exact h.go hok
  | submitted k => exact h.submitted hok
  | timeout =>
      obtain ⟨hcontrol, _⟩ := hok
      refine ⟨_, rfl, h.move (n := s.completed) ?_ ?_ ?_ rfl rfl rfl⟩ <;>
        simp [prepared, handled, held, hcontrol]
  | failed =>
      have hcontrol : s.control = .wait := hok
      refine ⟨_, rfl, h.move (n := s.completed) ?_ ?_ ?_ rfl rfl rfl⟩ <;>
        simp [prepared, handled, held, hcontrol]
  | write idx addr byte => exact h.write hok.1
  | complete idx res => exact h.complete hok.1

/-- Every run that the kernel's interface permits. -/
theorem accounted_run {bufs : Nat → Nat → UInt8} {events : List Event}
    (hok : Along (step handler) Permitted (initial bufs r) events) :
    ∃ s', run (step handler) (initial bufs r) events = some s' ∧
      s'.Accounted handler r (completions handler bufs r events) :=
  run_beside (fun _ _ _ h he => h.step he) (accounted_initial bufs) hok

end Steps

section Idle

/-- A submission that takes all prepared receives. -/
def TakesAll (s : EventLoop ρ) (e : Event) : Prop := ∀ k, e = .submitted k → k = s.sq.length

instance (s : EventLoop ρ) : ∀ e, Decidable (s.TakesAll e)
  | .submitted k => decidable_of_iff (k = s.sq.length) (by simp [TakesAll])
  | .go | .timeout | .failed | .write .. | .complete .. => isTrue fun _ h => nomatch h

/-- Between two submissions as many receives are prepared as completions are handled. -/
def Rearmed (s : EventLoop ρ) : Prop :=
  match s.control with
  | .prepare _ | .start => True
  | .wait | .stopped => s.sq = []
  | .each | .rearm _ | .advance | .submit => s.sq.length = s.completed

/-- One event, if submissions take all. -/
theorem Rearmed.step (h : s.Rearmed) {e : Event} (hok : s.Permitted e) (hall : s.TakesAll e)
    {s' : EventLoop ρ} (hs' : s.step handler e = some s') : s'.Rearmed := by
  cases e with
  | go =>
      obtain ⟨_, _, _, hsubmit⟩ := hok
      rw [EventLoop.step, EventLoop.go] at hs'
      cases hcontrol : s.control with
      | prepare i =>
          simp only [hcontrol, prepRecv] at hs'
          split at hs'
          · split at hs'
            · cases hs'
              trivial
            · cases hs'
          · cases hs'
            trivial
      | start => simp [hcontrol] at hs'
      | stopped => simp [hcontrol] at hs'
      | wait =>
          simp only [hcontrol, Option.some.injEq] at hs'
          subst hs'
          rw [Rearmed, hcontrol] at h
          exact congrArg List.length h
      | each =>
          rw [Rearmed, hcontrol] at h
          simp only [hcontrol] at hs'
          split at hs' <;> cases hs' <;> exact h
      | rearm idx =>
          rw [Rearmed, hcontrol] at h
          simp only [hcontrol, prepRecv] at hs'
          split at hs'
          · cases hs'
            show (s.sq ++ [idx]).length = s.completed + 1
            rw [List.length_append, List.length_singleton, h]
          · cases hs'
      | advance =>
          rw [Rearmed, hcontrol] at h
          simp only [hcontrol, Option.some.injEq] at hs'
          subst hs'
          exact h
      | submit =>
          have hnone := hsubmit hcontrol
          rw [Rearmed, hcontrol] at h
          simp only [hcontrol, if_pos hnone, Option.some.injEq] at hs'
          subst hs'
          exact List.length_eq_zero_iff.mp (h.trans hnone)
  | submitted k =>
      cases hs'
      show s.sq.drop k = []
      rw [hall k rfl, List.drop_length]
  | timeout =>
      cases hs'
      rw [Rearmed, hok.1] at h
      exact h
  | failed =>
      cases hs'
      rw [Rearmed, show s.control = .wait from hok] at h
      exact h
  | write idx addr byte =>
      cases hs'
      exact h
  | complete idx res =>
      rw [EventLoop.step] at hs'
      split at hs'
      · cases hs'
        exact h
      · cases hs'

end Idle

section Runs

variable {bufs : Nat → Nat → UInt8} {events : List Event}

/-- However the program and the kernel take turns, `io_uring_get_sqe` finds a free entry, the
completion ring does not overflow, and at every time every buffer is in one place only: prepared, in
flight, completed, or held. So the buffer that is parsed is not in flight, and a batch has at most
as many completions as there are buffers. -/
theorem slots_accounted (hok : Along (step handler) Permitted (initial bufs r) events) :
    ∃ s', run (step handler) (initial bufs r) events = some s' ∧
      (s'.sq ++ (s'.inFlight ++ (s'.unhandled.map Prod.fst ++ s'.held))).Perm
        (List.range s'.prepared) ∧
      s'.cq.length ≤ kQueueDepth ∧ s'.handled ≤ kQueueDepth ∧
      (∀ c, s'.control = .each → s'.cq[s'.completed]? = some c → c.1 ∉ s'.inFlight) ∧
      ∀ idx, s'.control = .rearm idx → idx ∉ s'.inFlight := by
  obtain ⟨s', hs', h⟩ := accounted_run hok
  refine ⟨s', hs', h.slots, h.cq_le, h.handled_cq.trans h.cq_le, ?_, ?_⟩
  · intro c hcontrol hc hflight
    refine h.not_unhandled hflight (List.mem_append_left _ (List.mem_map_of_mem ?_))
    obtain ⟨hlt, rfl⟩ := List.getElem?_eq_some_iff.mp hc
    simp only [unhandled, handled, hcontrol]
    rw [List.drop_eq_getElem_cons hlt]
    exact List.mem_cons_self
  · intro idx hcontrol hflight
    refine h.not_unhandled hflight (List.mem_append_right _ ?_)
    simp [held, hcontrol]

/-- At every time the receiver has handled the datagrams of the completed receives once each, in the
order of completion and with the bytes they were completed with, but for those of the unhandled
completions; and when the wait times out there are none. -/
theorem loop_delivers (hok : Along (step handler) Permitted (initial bufs r) events) :
    ∃ s' past, run (step handler) (initial bufs r) events = some s' ∧
      completions handler bufs r events = past ++ s'.unhandled.map s'.datagram ∧
      s'.receiver = past.foldl handler r ∧
      (s'.Permitted .timeout →
        s'.receiver = (completions handler bufs r events).foldl handler r) := by
  obtain ⟨s', hs', h⟩ := accounted_run hok
  obtain ⟨past, hlog, hreceiver⟩ := h.receiver
  refine ⟨s', past, hs', hlog, hreceiver, fun hgiven => ?_⟩
  obtain ⟨_, hcq⟩ := hgiven
  have hnone : s'.unhandled = [] := by rw [unhandled, hcq, List.drop_nil]
  rw [hlog, hnone, List.map_nil, List.append_nil, hreceiver]

/-- If submissions take all prepared receives, every buffer is in flight or completed whenever the
program waits. -/
theorem nothing_idle
    (hok : Along (step handler) (fun s e => s.Permitted e ∧ s.TakesAll e) (initial bufs r) events) :
    ∃ s', run (step handler) (initial bufs r) events = some s' ∧
      (s'.control = .wait → (s'.inFlight ++ s'.cq.map Prod.fst).Perm (List.range kQueueDepth)) := by
  have hpermitted := hok.imp fun _ _ h => h.1
  obtain ⟨s', hs', h⟩ := accounted_run hpermitted
  have hstep : ∀ (s : EventLoop ρ) e s₁, s.Rearmed → s.Permitted e ∧ s.TakesAll e →
      s.step handler e = some s₁ → s₁.Rearmed := fun _ _ _ h he hs₁ => h.step he.1 he.2 hs₁
  have hinitial : (initial bufs r).Rearmed := trivial
  have hrearmed : s'.Rearmed := invariant_of_run hstep hinitial hok hs'
  refine ⟨s', hs', fun hcontrol => ?_⟩
  have hslots := h.slots
  rw [Rearmed, hcontrol] at hrearmed
  simpa [unhandled, handled, held, prepared, hcontrol, hrearmed] using hslots

/-- The length of all datagrams. -/
def totalLength (n : Nat) (d : Datagram) : Nat := n + d.n

/-- Two receives complete out of order, the second while the batch of the first is handled. -/
def outOfOrder : List Event :=
  List.replicate 33 .go ++ [.submitted 32, .write 3 0 7, .complete 3 20, .go, .go, .write 1 0 5,
    .complete 1 21, .go, .go, .go, .go, .go, .submitted 2]

theorem slots_accounted_out_of_order :
    ∃ s', run (step totalLength) (initial (fun _ _ => 0) 0) outOfOrder = some s' ∧
      s'.cq.length ≤ kQueueDepth := by
  have hok : Along (step totalLength) Permitted (initial (fun _ _ => 0) 0) outOfOrder := by
    decide +kernel
  obtain ⟨s', hs', _, hcq, _⟩ := slots_accounted hok
  exact ⟨s', hs', hcq⟩

theorem loop_delivers_out_of_order :
    ∃ s' past, run (step totalLength) (initial (fun _ _ => 0) 0) outOfOrder = some s' ∧
      completions totalLength (fun _ _ => 0) 0 outOfOrder =
        past ++ s'.unhandled.map s'.datagram ∧
      s'.receiver = past.foldl totalLength 0 := by
  have hok : Along (step totalLength) Permitted (initial (fun _ _ => 0) 0) outOfOrder := by
    decide +kernel
  obtain ⟨s', past, hs', hlog, hreceiver, _⟩ := loop_delivers hok
  exact ⟨s', past, hs', hlog, hreceiver⟩

theorem nothing_idle_out_of_order :
    ∃ s', run (step totalLength) (initial (fun _ _ => 0) 0) outOfOrder = some s' ∧
      (s'.control = .wait →
        (s'.inFlight ++ s'.cq.map Prod.fst).Perm (List.range kQueueDepth)) := by
  have hok : Along (step totalLength) (fun s e => s.Permitted e ∧ s.TakesAll e)
      (initial (fun _ _ => 0) 0) outOfOrder := by
    decide +kernel
  exact nothing_idle hok

end Runs

end EventLoop

end FeedHandler.Receiver
