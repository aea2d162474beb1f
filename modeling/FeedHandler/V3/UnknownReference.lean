import FeedHandler.V3.Store

/-!
# Messages about unknown references

Any history of messages to the books of a store, in whatever state it leaves the pool and the lists.
`Store.stepLive` follows which references are live, from the messages that take effect; `Tracks`
says that they are those the table holds. `unknown_reference_ignored_iff` is the result: messages
about references that are not live change nothing as long as no message looks up the reference that
marks free slots of the table, which every lookup finds.
-/

namespace FeedHandler.V3

open Itch OrderBook OrderPool RefTable Runs

/-- The quantity that is left of the order the table finds under a reference. -/
def Shared.remaining (hash : Nat → Nat) (s : Shared) (ref : Nat) : Option Nat := do
  let idx ← s.refs.find hash ref
  if idx = kNullIdx then none else (s.pool.slots[idx]?).map PooledOrder.qty

/-- The live references after an execution or a cancellation: one that takes all that is left of the
order ends it. -/
def Shared.liveAfterTaking (hash : Nat → Nat) (s : Shared) (live : List Nat) (ref qty : Nat) :
    List Nat :=
  match s.remaining hash ref with
  | some left => if qty ≥ left then live.filter (· ≠ ref) else live
  | none => live

/-- The live references after a message. An addition is dropped when the pool has no free slot and
its reference is refused when the table is at half load; a replacement always finds room. -/
def Shared.liveAfter (hash : Nat → Nat) (s : Shared) (live : List Nat) : Message → List Nat
  | .addOrder m =>
      if s.pool.freeHead = kNullIdx ∨ s.refs.size * 2 ≥ s.refs.slots.size then live
      else m.orderRef.toNat :: live
  | .orderExecuted m => s.liveAfterTaking hash live m.orderRef.toNat m.executedShares.toNat
  | .orderCancel m => s.liveAfterTaking hash live m.orderRef.toNat m.canceledShares.toNat
  | .orderDelete m => live.filter (· ≠ m.orderRef.toNat)
  | .orderReplace m =>
      if m.originalOrderRef.toNat ∈ live then
        m.newOrderRef.toNat :: live.filter (· ≠ m.originalOrderRef.toNat)
      else live

/-- One message to a store and to the references that are live in it. -/
def Store.stepLive (hash : Nat → Nat) (x : Store × List Nat) (m : Message) :
    Option (Store × List Nat) := do
  let s ← x.1.step hash m
  return (s, x.1.liveAfter hash x.2 m)

/-- A message leaves the pool, the table and every book as they are. -/
def Store.Ignores (hash : Nat → Nat) (s : Store) (m : Message) : Prop :=
  ∃ s', s.step hash m = some s' ∧ s'.toShared = s.toShared ∧ s'.bookOf = s.bookOf

/-- All messages about a reference leave everything as it is. -/
def Store.IgnoresAbout (hash : Nat → Nat) (s : Store) (ref : Nat) : Prop :=
  ∀ m : Message, m.target = some ref → s.Ignores hash m

/-- A table whose `size` counts `extra` references that none of its slots holds. An insertion of the
empty key leaves one: it takes a slot, which stays free. -/
def RefTable.padded (t : RefTable) (extra : Nat) : RefTable := { t with size := t.size + extra }

/-- A table holds the live references but for the empty key, and no slot of it, used or free, has
the null index. -/
structure Tracks (hash : Nat → Nat) (t : RefTable) (live : List Nat) : Prop where
  padded : ∃ t₀ extra, RefTable.WF hash t₀ ∧ t = t₀.padded extra
  half : t.size * 2 ≤ t.slots.size
  live_iff : ∀ ref, ref ≠ kEmpty → ((∃ x, t.lookup ref = some x) ↔ ref ∈ live)
  values : ∀ (p : Nat) slot, t.slots[p]? = some slot → slot.value ≠ kNullIdx

namespace RefTable

section Padded

variable {hash : Nat → Nat} {t : RefTable} {key value extra : Nat}

/-- The size is not looked at while probing. -/
theorem probe_padded : (t.padded extra).probe hash key = t.probe hash key := by
  have hloop : ∀ fuel i, (t.padded extra).probeLoop key fuel i = t.probeLoop key fuel i := by
    intro fuel
    induction fuel with
    | zero => exact fun _ => rfl
    | succ fuel ih =>
        intro i
        simp only [probeLoop, ih]
        rfl
  exact hloop _ _

theorem find_padded : (t.padded extra).find hash key = t.find hash key := by
  simp only [find, probe_padded]
  rfl

theorem lookup_padded : (t.padded extra).lookup = t.lookup := rfl

/-- An insertion that the padded table admits is the insertion. -/
theorem insert_padded (hroom : (t.size + extra) * 2 < t.slots.size) :
    (t.padded extra).insert hash key value =
      (t.insert hash key value).map fun t' => t'.padded extra := by
  have hpadded : ¬ (t.padded extra).size * 2 ≥ (t.padded extra).slots.size := Nat.not_le.mpr hroom
  have ht : ¬ t.size * 2 ≥ t.slots.size := by omega
  rw [RefTable.insert, RefTable.insert, if_neg hpadded, if_neg ht, probe_padded]
  show (t.probe hash key).bind _ = ((t.probe hash key).bind _).map _
  cases t.probe hash key with
  | none => rfl
  | some i =>
      show (t.slots[i]?).bind _ = ((t.slots[i]?).bind _).map _
      cases t.slots[i]? with
      | none => rfl
      | some s =>
          simp only [Option.bind_some]
          split
          · simp only [RefTable.padded, Option.map_some, Nat.add_right_comm]
          · rfl

/-- An erasure does not look at the size. -/
theorem erase_padded (hpos : t.size ≠ 0) :
    (t.padded extra).erase hash key = (t.erase hash key).map fun t' => t'.padded extra := by
  have hsize : (if (t.padded extra).size = 0 then 2 ^ 64 - 1 else (t.padded extra).size - 1) =
      (if t.size = 0 then 2 ^ 64 - 1 else t.size - 1) + extra := by
    show (if t.size + extra = 0 then 2 ^ 64 - 1 else t.size + extra - 1) = _
    rw [if_neg (by omega), if_neg hpos]
    omega
  simp only [erase, probe_padded, hsize]
  show (t.probe hash key).bind _ = ((t.probe hash key).bind _).map _
  cases t.probe hash key with
  | none => rfl
  | some i =>
      show (t.slots[i]?).bind _ = ((t.slots[i]?).bind _).map _
      cases t.slots[i]? with
      | none => rfl
      | some s =>
          simp only [Option.bind_some]
          split
          · rfl
          · show (eraseLoop hash t.mask t.slots.size t.slots i i).bind _ =
              ((eraseLoop hash t.mask t.slots.size t.slots i i).bind _).map _
            cases eraseLoop hash t.mask t.slots.size t.slots i i with
            | none => rfl
            | some slots =>
                simp only [Option.bind_some]
                cases slots.1[slots.2]? <;> rfl

/-- What `insert` does to a padded table that has room. -/
theorem insert_padded_spec (h : t.WF hash) (hkey : key ≠ kEmpty) (value : Nat)
    (hroom : (t.size + extra) * 2 < t.slots.size) :
    ∃ t', (t.padded extra).insert hash key value = some (t'.padded extra) ∧ WF hash t' ∧
      t'.lookup = Function.update t.lookup key (some value) := by
  obtain ⟨t', hinsert, hwf, _, hlookup, _⟩ := insert_spec h hkey value (by omega)
  exact ⟨t', by rw [insert_padded hroom, hinsert, Option.map_some], hwf, hlookup⟩

/-- What `erase` does to a padded table that maps the key. -/
theorem erase_padded_spec (h : t.WF hash) (extra : Nat) (hname : t.lookup key = some value) :
    ∃ t', (t.padded extra).erase hash key = some (t'.padded extra) ∧ WF hash t' ∧
      t'.slots.size = t.slots.size ∧ t'.lookup = Function.update t.lookup key none ∧
      t.size = t'.size + 1 := by
  obtain ⟨t', herase, hwf, hcapacity, hlookup, hsize⟩ := erase_spec h hname
  have hpos : t.size ≠ 0 := by omega
  exact ⟨t', by rw [erase_padded hpos, herase, Option.map_some], hwf, hcapacity, hlookup, hsize⟩

/-- What `erase` does to a padded table that does not map the key. -/
theorem erase_padded_absent (h : t.WF hash) (hkey : key ≠ kEmpty) (hname : t.lookup key = none) :
    (t.padded extra).erase hash key = some (t.padded extra) := by
  obtain ⟨p, hprobe, hstop⟩ := probe_spec h key
  obtain ⟨s, hslot, hs⟩ := slot_of_lookup_none h hstop hname
  have hne : s.key ≠ key := by rwa [hs, ne_comm]
  have hslot' : (t.padded extra).slots[p]? = some s := hslot
  simp [RefTable.erase, probe_padded, hprobe, hslot', hne]

/-- An insertion of the empty key counts a reference and maps none. -/
theorem insert_empty (h : t.WF hash) (value : Nat) (hroom : (t.size + extra) * 2 < t.slots.size) :
    ∃ t' : RefTable, (t.padded extra).insert hash kEmpty value = some (t'.padded (extra + 1)) ∧
      t'.WF hash ∧ t'.lookup = t.lookup := by
  obtain ⟨p, hprobe, hstop⟩ := probe_spec h kEmpty
  obtain ⟨s, hslot, hkey⟩ := slot_of_lookup_none h hstop (lookup_empty_key t)
  have hview : view (t.slots.setIfInBounds p ⟨kEmpty, value, s.pad⟩) = view t.slots := by
    rw [view_set hstop.lt, if_pos rfl, ← (view_eq_none_iff hslot).mpr hkey, Function.update_eq_self]
  have hwf : WF hash { t with slots := t.slots.setIfInBounds p ⟨kEmpty, value, s.pad⟩ } := by
    refine ⟨?_, ?_, ?_, ?_, ?_⟩
    · simpa using h.capacity
    · simpa using h.mask_eq
    · simpa [hview] using h.probing
    · simpa [hview] using h.size_eq
    · simpa using h.half
  refine ⟨{ t with slots := t.slots.setIfInBounds p ⟨kEmpty, value, s.pad⟩ }, ?_, hwf,
    funext fun k => Option.ext fun v => ?_⟩
  · have hpadded : ¬ (t.padded extra).size * 2 ≥ (t.padded extra).slots.size :=
      Nat.not_le.mpr hroom
    have hslot' : (t.padded extra).slots[p]? = some s := hslot
    rw [RefTable.insert, if_neg hpadded, probe_padded, hprobe, Option.bind_eq_bind,
      Option.bind_some, hslot', Option.bind_eq_bind, Option.bind_some, if_pos hkey]
    rfl
  · rw [lookup_eq_some_iff hwf, lookup_eq_some_iff h]
    simp only [Array.size_setIfInBounds, hview]

end Padded

end RefTable

section Table

variable {hash : Nat → Nat} {t t' : RefTable} {live : List Nat} {ref x : Nat}

theorem Tracks.lookup_eq_none (h : Tracks hash t live) (href : ref ≠ kEmpty)
    (hdead : ref ∉ live) : t.lookup ref = none := by
  rw [← h.live_iff ref href] at hdead
  exact Option.eq_none_iff_forall_ne_some.mpr fun x hx => hdead ⟨x, hx⟩

/-- The table does not map references to the null index. -/
theorem Tracks.lookup_ne_null (h : Tracks hash t live) (hname : t.lookup ref = some x) :
    x ≠ kNullIdx := by
  obtain ⟨t₀, extra, hwf, rfl⟩ := h.padded
  obtain ⟨p, _, hstop⟩ := probe_spec hwf ref
  obtain ⟨slot, hslot, _, rfl, _⟩ := slot_of_lookup hwf hstop hname
  exact h.values p slot hslot

theorem Tracks.find_eq (h : Tracks hash t live) (href : ref ≠ kEmpty) :
    t.find hash ref = some ((t.lookup ref).getD kNullIdx) := by
  obtain ⟨t₀, extra, hwf, rfl⟩ := h.padded
  rw [find_padded, lookup_padded, find_spec hwf href]

theorem tracks_new (hash : Nat → Nat) {e : Nat} (he : 1 ≤ e) :
    Tracks hash (RefTable.new (2 ^ e)) [] := by
  obtain ⟨hwf, hlookup⟩ := RefTable.new_spec hash he
  refine ⟨⟨_, 0, hwf, rfl⟩, hwf.half, fun ref _ => by simp [hlookup], fun p slot hslot => ?_⟩
  obtain ⟨_, hslot⟩ := Array.getElem?_eq_some_iff.mp hslot
  simp only [RefTable.new, Array.getElem_replicate] at hslot
  rw [← hslot]
  show 0 ≠ kNullIdx
  decide

/-- Writing a slot keeps a property of all values. -/
theorem values_set {slots : Array Slot} {i : Nat} {new : Slot}
    (h : ∀ (p : Nat) slot, slots[p]? = some slot → slot.value ≠ kNullIdx)
    (hnew : new.value ≠ kNullIdx) (p : Nat) (slot : Slot)
    (hslot : (slots.setIfInBounds i new)[p]? = some slot) : slot.value ≠ kNullIdx := by
  rw [Array.getElem?_setIfInBounds] at hslot
  split at hslot
  next =>
    split at hslot
    next => exact Option.some.inj hslot ▸ hnew
    next => cases hslot
  next => exact h p slot hslot

/-- The shifts of `erase` move slots as they are. -/
theorem erase_loop_values {mask fuel i i' j : Nat} {slots slots' : Array Slot}
    (h : ∀ (p : Nat) slot, slots[p]? = some slot → slot.value ≠ kNullIdx)
    (hloop : eraseLoop hash mask fuel slots i j = some (slots', i')) (p : Nat) (slot : Slot)
    (hslot : slots'[p]? = some slot) : slot.value ≠ kNullIdx := by
  induction fuel generalizing slots i j with
  | zero => cases hloop
  | succ fuel ih =>
      simp only [eraseLoop, Option.bind_eq_bind, Option.bind_eq_some_iff] at hloop
      obtain ⟨next, hnext, hloop⟩ := hloop
      split at hloop
      · cases hloop
        exact h p slot hslot
      · split at hloop <;> split at hloop
        all_goals first
          | exact ih (values_set h (h _ _ hnext)) hloop
          | exact ih h hloop

theorem insert_values (h : ∀ (p : Nat) slot, t.slots[p]? = some slot → slot.value ≠ kNullIdx)
    (hx : x ≠ kNullIdx) (hinsert : t.insert hash ref x = some t') (p : Nat) (slot : Slot)
    (hslot : t'.slots[p]? = some slot) : slot.value ≠ kNullIdx := by
  unfold RefTable.insert at hinsert
  split at hinsert
  · cases hinsert
    exact h p slot hslot
  · simp only [Option.bind_eq_bind, Option.bind_eq_some_iff] at hinsert
    obtain ⟨i, _, old, _, hinsert⟩ := hinsert
    split at hinsert <;> cases hinsert <;> exact values_set h hx p slot hslot

/-- An insertion counts at most one more reference. -/
theorem insert_size_le (hinsert : t.insert hash ref x = some t') :
    t'.size ≤ t.size + 1 ∧ t'.slots.size = t.slots.size := by
  unfold RefTable.insert at hinsert
  split at hinsert
  · cases hinsert
    exact ⟨Nat.le_succ _, rfl⟩
  · simp only [Option.bind_eq_bind, Option.bind_eq_some_iff] at hinsert
    obtain ⟨i, _, old, _, hinsert⟩ := hinsert
    split at hinsert <;> cases hinsert <;> simp

theorem erase_values (h : ∀ (p : Nat) slot, t.slots[p]? = some slot → slot.value ≠ kNullIdx)
    (herase : t.erase hash ref = some t') (p : Nat) (slot : Slot)
    (hslot : t'.slots[p]? = some slot) : slot.value ≠ kNullIdx := by
  simp only [RefTable.erase, Option.bind_eq_bind, Option.bind_eq_some_iff] at herase
  obtain ⟨i, _, old, _, herase⟩ := herase
  split at herase
  · cases herase
    exact h p slot hslot
  · simp only [Option.bind_eq_some_iff, Option.some.injEq] at herase
    obtain ⟨⟨slots', i'⟩, hloop, last, hlast, rfl⟩ := herase
    have hmoved := erase_loop_values h hloop
    have hvalue : last.value ≠ kNullIdx := hmoved _ _ hlast
    exact @values_set slots' i' { last with key := kEmpty } hmoved hvalue p slot hslot

/-- Erasing a live reference makes room. -/
theorem Tracks.erase_size (h : Tracks hash t live) (href : ref ≠ kEmpty) (hlive : ref ∈ live)
    (herase : t.erase hash ref = some t') :
    t'.slots.size = t.slots.size ∧ t.size = t'.size + 1 := by
  obtain ⟨x, hname⟩ := (h.live_iff ref href).mpr hlive
  obtain ⟨t₀, extra, hwf, rfl⟩ := h.padded
  obtain ⟨t₁, ht₁, _, hcapacity, _, hsize⟩ := erase_padded_spec hwf extra hname
  obtain rfl := Option.some.inj (ht₁.symm.trans herase)
  refine ⟨hcapacity, ?_⟩
  show t₀.size + extra = t₁.size + extra + 1
  omega

/-- A reference that the table does not map is not live. -/
theorem Tracks.filter_absent (h : Tracks hash t live) (href : ref ≠ kEmpty)
    (hname : t.lookup ref = none) : Tracks hash t (live.filter (· ≠ ref)) := by
  have hdead : ref ∉ live := by simp [← h.live_iff ref href, hname]
  have hsame : live.filter (· ≠ ref) = live := by
    rw [List.filter_eq_self]
    intro ref' hmem
    have hne : ref' ≠ ref := fun heq => hdead (heq ▸ hmem)
    simpa using hne
  rw [hsame]
  exact h

/-- Erasing a reference ends it. -/
theorem Tracks.erase (h : Tracks hash t live) (href : ref ≠ kEmpty)
    (herase : t.erase hash ref = some t') : Tracks hash t' (live.filter (· ≠ ref)) := by
  have hhalf := h.half
  obtain ⟨t₀, extra, hwf, rfl⟩ := h.padded
  cases hname : t₀.lookup ref with
  | none =>
      obtain rfl := Option.some.inj ((erase_padded_absent hwf href hname).symm.trans herase)
      exact h.filter_absent href hname
  | some x =>
      obtain ⟨t₁, ht₁, hwf₁, hcapacity, hlookup, hsize⟩ :=
        erase_padded_spec hwf extra hname
      have hvalues := erase_values h.values herase
      obtain rfl := Option.some.inj (ht₁.symm.trans herase)
      refine ⟨⟨t₁, extra, hwf₁, rfl⟩, ?_, fun ref' href' => ?_, hvalues⟩
      · show (t₁.size + extra) * 2 ≤ t₁.slots.size
        have hbefore : (t₀.size + extra) * 2 ≤ t₀.slots.size := hhalf
        omega
      · rw [lookup_padded, hlookup, List.mem_filter, ← h.live_iff ref' href', lookup_padded]
        by_cases hne : ref' = ref <;> simp [hne]

/-- Inserting a reference makes it live, if the table has room. -/
theorem Tracks.insert (h : Tracks hash t live) (hx : x ≠ kNullIdx)
    (hroom : t.size * 2 < t.slots.size) (hinsert : t.insert hash ref x = some t') :
    Tracks hash t' (ref :: live) := by
  have hvalues := insert_values h.values hx hinsert
  obtain ⟨hsize, hcapacity⟩ := insert_size_le hinsert
  obtain ⟨t₀, extra, hwf, rfl⟩ := h.padded
  have hhalf : t'.size * 2 ≤ t'.slots.size := by
    obtain ⟨e, he, heven⟩ := hwf.capacity
    obtain ⟨d, rfl⟩ : ∃ d, e = d + 1 := ⟨e - 1, by omega⟩
    rw [Nat.pow_succ] at heven
    have heven' : (t₀.padded extra).slots.size = 2 ^ d * 2 := heven
    omega
  by_cases href : ref = kEmpty
  · -- The slot stays free, so that the table maps what it did.
    subst href
    obtain ⟨t₁, ht₁, hwf₁, hlookup⟩ := insert_empty hwf x hroom
    obtain rfl := Option.some.inj (ht₁.symm.trans hinsert)
    refine ⟨⟨t₁, _, hwf₁, rfl⟩, hhalf, fun ref' href' => ?_, hvalues⟩
    rw [lookup_padded, hlookup, List.mem_cons, ← h.live_iff ref' href', lookup_padded]
    simp [href']
  · obtain ⟨t₁, ht₁, hwf₁, hlookup⟩ := insert_padded_spec hwf href x hroom
    obtain rfl := Option.some.inj (ht₁.symm.trans hinsert)
    refine ⟨⟨t₁, _, hwf₁, rfl⟩, hhalf, fun ref' href' => ?_, hvalues⟩
    rw [lookup_padded, hlookup, List.mem_cons, ← h.live_iff ref' href', lookup_padded]
    by_cases hne : ref' = ref <;> simp [hne]

/-- Every lookup of the empty key ends at a free slot and takes its value for an index. -/
theorem Tracks.find_empty (h : Tracks hash t live) :
    ∃ x, t.find hash kEmpty = some x ∧ x ≠ kNullIdx := by
  obtain ⟨t₀, extra, hwf, rfl⟩ := h.padded
  obtain ⟨p, hprobe, hstop⟩ := probe_spec hwf kEmpty
  obtain ⟨slot, hslot, hkey⟩ := slot_of_lookup_none hwf hstop (lookup_empty_key t₀)
  refine ⟨slot.value, ?_, h.values p slot hslot⟩
  rw [find_padded]
  simp [find, hprobe, hslot, hkey]

/-- Erasing the empty key changes the size. -/
theorem Tracks.erase_empty_size (h : Tracks hash t live)
    (herase : t.erase hash kEmpty = some t') : t'.size ≠ t.size := by
  obtain ⟨t₀, extra, hwf, rfl⟩ := h.padded
  obtain ⟨p, hprobe, hstop⟩ := probe_spec hwf kEmpty
  obtain ⟨slot, hslot, hkey⟩ := slot_of_lookup_none hwf hstop (lookup_empty_key t₀)
  have hslot' : (t₀.padded extra).slots[p]? = some slot := hslot
  simp only [RefTable.erase, probe_padded, hprobe, hslot', hkey, Option.bind_eq_bind,
    Option.bind_some, ne_eq, not_true_eq_false, if_false, Option.bind_eq_some_iff,
    Option.some.injEq] at herase
  obtain ⟨_, _, _, _, rfl⟩ := herase
  generalize (t₀.padded extra).size = n
  show (if n = 0 then 2 ^ 64 - 1 else n - 1) ≠ n
  split <;> omega

end Table

/-! ## What the handlers do to the table -/

section Handlers

variable {hash : Nat → Nat} {s s' : Shared} {b b' : OrderBook} {live : List Nat}
  {ref idx price shares : Nat} {side : UInt8}

theorem remove_order_refs (h : b.removeOrder hash s ref idx = some (s', b')) :
    s.refs.erase hash ref = some s'.refs ∧ s'.pool.freeHead = idx := by
  simp only [removeOrder, Option.bind_eq_bind, Option.bind_eq_some_iff, Option.pure_def,
    Option.some.injEq, Prod.mk.injEq] at h
  obtain ⟨⟨_, pool⟩, _, pool', hrelease, refs, herase, rfl, _⟩ := h
  simp only [release, Option.bind_eq_bind, Option.bind_eq_some_iff, Option.some.injEq] at hrelease
  obtain ⟨_, _, rfl⟩ := hrelease
  exact ⟨herase, rfl⟩

theorem place_order_refs (h : b.placeOrder hash s ref price shares side = some (s', b')) :
    if s.pool.freeHead = kNullIdx then s'.refs = s.refs
    else s.refs.insert hash ref s.pool.freeHead = some s'.refs := by
  simp only [placeOrder, allocate, Option.bind_eq_bind] at h
  by_cases hhead : s.pool.freeHead = kNullIdx
  · rw [if_pos hhead] at h ⊢
    simp only [Option.bind_some, if_true, Option.pure_def, Option.some.injEq, Prod.mk.injEq] at h
    rw [← h.1]
  · rw [if_neg hhead] at h ⊢
    simp only [Option.bind_eq_some_iff, Option.some.injEq, Option.pure_def] at h
    obtain ⟨_, ⟨_, _, rfl⟩, h⟩ := h
    simp only [hhead, if_false, Option.bind_eq_some_iff, Option.some.injEq, Prod.mk.injEq] at h
    obtain ⟨_, _, refs, hinsert, rfl, _⟩ := h
    exact hinsert

/-- The table after an execution or a cancellation. -/
theorem Tracks.reduce (h : Tracks hash s.refs live) (href : ref ≠ kEmpty)
    (hreduce : b.reduceOrder hash s ref shares = some (s', b')) :
    Tracks hash s'.refs (s.liveAfterTaking hash live ref shares) := by
  simp only [reduceOrder, Option.bind_eq_bind, Option.bind_eq_some_iff] at hreduce
  obtain ⟨idx, hfind, hreduce⟩ := hreduce
  rw [Shared.liveAfterTaking, Shared.remaining, hfind, Option.bind_eq_bind, Option.bind_some]
  split at hreduce
  next hnull =>
    cases hreduce
    rwa [if_pos hnull]
  next hne =>
    rw [if_neg hne]
    simp only [Option.bind_eq_some_iff] at hreduce
    obtain ⟨o, ho, hreduce⟩ := hreduce
    rw [ho]
    show Tracks hash s'.refs (if shares ≥ o.qty then live.filter (· ≠ ref) else live)
    split at hreduce
    next hall =>
      rw [if_pos hall]
      exact h.erase href (remove_order_refs hreduce).1
    next hpart =>
      rw [if_neg hpart]
      simp only [Option.bind_eq_some_iff, Option.pure_def, Option.some.injEq,
        Prod.mk.injEq] at hreduce
      obtain ⟨_, _, _, _, rfl, _⟩ := hreduce
      exact h

/-- The table after a replacement. The new reference may be any. -/
theorem Tracks.replace {m : OrderReplace} (h : Tracks hash s.refs live)
    (horig : m.originalOrderRef.toNat ≠ kEmpty)
    (hreplace : b.replaceOrder hash s m = some (s', b')) :
    Tracks hash s'.refs (s.liveAfter hash live (.orderReplace m)) := by
  have hfind := h.find_eq horig
  simp only [replaceOrder, Option.bind_eq_bind, hfind, Option.bind_some] at hreplace
  show Tracks hash s'.refs (if _ ∈ live then _ else live)
  cases hname : s.refs.lookup m.originalOrderRef.toNat with
  | none =>
      rw [hname, Option.getD_none, if_pos rfl] at hreplace
      cases hreplace
      rwa [if_neg]
      simp [← h.live_iff _ horig, hname]
  | some x =>
      have hx := h.lookup_ne_null hname
      have hlive := (h.live_iff _ horig).mp ⟨x, hname⟩
      rw [hname, Option.getD_some, if_neg hx] at hreplace
      rw [if_pos hlive]
      simp only [Option.bind_eq_some_iff] at hreplace
      obtain ⟨o, _, side, _, ⟨s₁, b₁⟩, hremove, hplace⟩ := hreplace
      obtain ⟨herase, hhead⟩ := remove_order_refs hremove
      have hinsert := place_order_refs hplace
      rw [hhead, if_neg hx] at hinsert
      -- The table is at most half full, so that it has room after the erasure.
      obtain ⟨hcapacity, hsize⟩ := h.erase_size horig hlive herase
      have hhalf := h.half
      exact (h.erase horig herase).insert hx (by omega) hinsert

/-- One message to a book that does not look up the empty key. -/
theorem Tracks.apply {m : Message} (h : Tracks hash s.refs live) (hkey : m.target ≠ some kEmpty)
    (happly : b.apply hash s m = some (s', b')) :
    Tracks hash s'.refs (s.liveAfter hash live m) := by
  cases m with
  | addOrder m =>
      have hinsert := place_order_refs happly
      show Tracks hash s'.refs (if _ then live else m.orderRef.toNat :: live)
      split at hinsert
      next hnull =>
        -- An exhausted pool places nothing, and the table is not asked.
        rw [if_pos (.inl hnull), hinsert]
        exact h
      next hhead =>
        split
        next hfull =>
          -- The order is linked, but the table refuses its reference.
          have hrefused := hfull.resolve_left hhead
          rw [insert_refused _ hrefused] at hinsert
          exact Option.some.inj hinsert ▸ h
        next hroom =>
          exact h.insert hhead (by omega) hinsert
  | orderExecuted m => exact h.reduce (fun heq => hkey (congrArg some heq)) happly
  | orderCancel m => exact h.reduce (fun heq => hkey (congrArg some heq)) happly
  | orderDelete m =>
      have href : m.orderRef.toNat ≠ kEmpty := fun heq => hkey (congrArg some heq)
      replace happly : b.deleteOrder hash s m = some (s', b') := happly
      simp only [deleteOrder, h.find_eq href, Option.bind_eq_bind, Option.bind_some] at happly
      split at happly
      next hnull =>
        cases happly
        refine h.filter_absent href ?_
        cases hname : s.refs.lookup m.orderRef.toNat with
        | none => rfl
        | some x =>
            rw [hname] at hnull
            exact absurd hnull (h.lookup_ne_null hname)
      next => exact h.erase href (remove_order_refs happly).1
  | orderReplace m => exact h.replace (fun heq => hkey (congrArg some heq)) happly

end Handlers

/-! ## Histories -/

section Histories

variable {hash : Nat → Nat} {s s' : Store} {live live' : List Nat} {m : Message} {ref : Nat}

/-- One message that does not look up the empty key keeps the table to the live references. -/
theorem Tracks.step (h : Tracks hash s.refs live) (hkey : m.target ≠ some kEmpty)
    (hs' : Store.stepLive hash (s, live) m = some (s', live')) : Tracks hash s'.refs live' := by
  simp only [Store.stepLive, Store.step, Option.bind_eq_bind, Option.bind_eq_some_iff,
    Option.pure_def, Option.some.injEq, Prod.mk.injEq] at hs'
  obtain ⟨_, ⟨⟨shared, b⟩, happly, rfl⟩, rfl, rfl⟩ := hs'
  exact h.apply hkey happly

/-- The table holds the live references before the first message. -/
theorem tracks_start {capacity refExp : Nat} (hexp : 1 ≤ refExp)
    (hnew : Store.new capacity (2 ^ refExp) = some s) : Tracks hash s.refs [] := by
  simp only [Store.new, Option.bind_eq_bind, Option.bind_eq_some_iff, Option.pure_def,
    Option.some.injEq] at hnew
  obtain ⟨_, _, rfl⟩ := hnew
  exact tracks_new hash hexp

/-- The messages about a reference that is not live change nothing, unless it is the empty key. -/
theorem ignores_about (h : Tracks hash s.refs live) (href : ref ≠ kEmpty) (hdead : ref ∉ live) :
    s.IgnoresAbout hash ref := by
  intro m hm
  have hfind : s.refs.find hash ref = some kNullIdx := by
    rw [h.find_eq href, h.lookup_eq_none href hdead]
    rfl
  have happly : (s.bookOf m.stockLocate).apply hash s.toShared m =
      some (s.toShared, s.bookOf m.stockLocate) := by
    cases m with
    | addOrder m => cases hm
    | orderExecuted m =>
        cases hm
        simp [OrderBook.apply, executeOrder, reduceOrder, hfind]
    | orderCancel m =>
        cases hm
        simp [OrderBook.apply, cancelOrder, reduceOrder, hfind]
    | orderDelete m =>
        cases hm
        simp [OrderBook.apply, deleteOrder, hfind]
    | orderReplace m =>
        cases hm
        simp [OrderBook.apply, replaceOrder, hfind]
  refine ⟨⟨s.toShared, s.books.assign m.stockLocate (s.bookOf m.stockLocate)⟩, ?_, rfl, ?_⟩
  · rw [Store.step, happly]
    rfl
  · rw [Store.book_of_assign, Function.update_eq_self]

/-- A deletion of the empty key is never without effect. -/
theorem not_ignores_about_empty (h : Tracks hash s.refs live) : ¬ s.IgnoresAbout hash kEmpty := by
  intro hall
  obtain ⟨s', hs', hshared, _⟩ := hall (.delete 1 0xFFFFFFFFFFFFFFFF) rfl
  obtain ⟨x, hfind, hx⟩ := h.find_empty
  have href : (0xFFFFFFFFFFFFFFFF : UInt64).toNat = kEmpty := rfl
  simp only [Store.step, OrderBook.apply, Message.delete, deleteOrder, href, hfind, hx,
    Option.bind_eq_bind, Option.bind_some, if_false, Option.bind_eq_some_iff, Option.pure_def,
    Option.some.injEq] at hs'
  obtain ⟨⟨shared, b⟩, hremove, rfl⟩ := hs'
  have hsize := h.erase_empty_size (remove_order_refs hremove).1
  exact hsize (congrArg (fun s => s.refs.size) hshared)

/-- What a message of a history should do: if the reference that it looks up is not live, neither it
nor any other message about this reference has an effect. -/
def IgnoresUnknown (hash : Nat → Nat) (x : Store × List Nat) (m : Message) : Prop :=
  ∀ ref, m.target = some ref → ref ∉ x.2 → x.1.IgnoresAbout hash ref

/-- Take any history of messages to any books, whatever state it leaves the pool and the lists in.
Messages about references that are not live have no effect, at every step and in the state that is
left, exactly if no message looks up the empty key. The empty key may be introduced, even into the
table, and is then live; lookups of it while it is live are in neither case. -/
theorem unknown_reference_ignored_iff (hash : Nat → Nat) {capacity refExp : Nat} (hexp : 1 ≤ refExp)
    {s₀ : Store} (hnew : Store.new capacity (2 ^ refExp) = some s₀) (msgs : List Message) :
    (Along (Store.stepLive hash) (fun x m => IgnoresUnknown hash x m ∧
          (kEmpty ∈ x.2 → m.target ≠ some kEmpty)) (s₀, []) msgs ∧
        ∀ s live, run (Store.stepLive hash) (s₀, []) msgs = some (s, live) →
          ∀ ref, ref ∉ live → ref ≠ kEmpty → s.IgnoresAbout hash ref) ↔
      Along (Store.stepLive hash) (fun _ m => m.target ≠ some kEmpty) (s₀, []) msgs := by
  have hstart : Tracks hash s₀.refs [] := tracks_start hexp hnew
  have hstep : ∀ (x : Store × List Nat) m x', Tracks hash x.1.refs x.2 → m.target ≠ some kEmpty →
      Store.stepLive hash x m = some x' → Tracks hash x'.1.refs x'.2 :=
    fun _ _ _ h hkey hx' => h.step hkey hx'
  have hspares : ∀ (x : Store × List Nat) (m : Message), Tracks hash x.1.refs x.2 →
      IgnoresUnknown hash x m ∧ (kEmpty ∈ x.2 → m.target ≠ some kEmpty) →
      m.target ≠ some kEmpty := by
    intro x m h hm hkey
    obtain ⟨hignores, hlive⟩ := hm
    by_cases hmem : kEmpty ∈ x.2
    · exact hlive hmem hkey
    · exact not_ignores_about_empty h (hignores kEmpty hkey hmem)
  constructor
  · intro hgiven
    obtain ⟨halong, _⟩ := hgiven
    exact Along.imp_of_inv (fun x m x' h hm hx' => hstep x m x' h (hspares x m h hm) hx')
      (fun x m h hm _ => hspares x m h hm) hstart halong halong
  · intro halong
    refine ⟨Along.imp_of_inv hstep (fun x m h hkey _ => ?_) hstart halong halong,
      fun s live hrun ref hdead href => ?_⟩
    · refine ⟨fun ref hm hdead => ignores_about h ?_ hdead, fun _ => hkey⟩
      intro heq
      exact hkey (heq ▸ hm)
    · exact ignores_about (invariant_of_run hstep hstart halong hrun) href hdead

/-- A pool of one slot and a table of four. The addition of the empty key finds the pool full, its
introduction by a replacement looks up an unknown reference, and the order is executed in full. -/
theorem unknown_reference_ignored_executed :
    ∃ s₀ s, Store.new 1 (2 ^ 2) = some s₀ ∧ run (Store.stepLive RefTable.hash) (s₀, [])
        [.add 1 10 kBid 5 10000, .add 1 0xFFFFFFFFFFFFFFFF kBid 5 10000,
          .replace 2 55 0xFFFFFFFFFFFFFFFF 5 10000, .execute 1 10 2, .execute 1 10 3] =
          some (s, []) ∧
      s.IgnoresAbout RefTable.hash 10 := by
  have hread : (do
      let s₀ ← Store.new 1 (2 ^ 2)
      let x ← run (Store.stepLive RefTable.hash) (s₀, [])
        [.add 1 10 kBid 5 10000, .add 1 0xFFFFFFFFFFFFFFFF kBid 5 10000,
          .replace 2 55 0xFFFFFFFFFFFFFFFF 5 10000, .execute 1 10 2, .execute 1 10 3]
      return x.2) = some [] := by decide +kernel
  simp only [Option.bind_eq_bind, Option.bind_eq_some_iff, Option.pure_def,
    Option.some.injEq] at hread
  obtain ⟨s₀, hnew, ⟨s, live⟩, hrun, rfl⟩ := hread
  have hspares : Along (Store.stepLive RefTable.hash) (fun _ m => m.target ≠ some kEmpty) (s₀, [])
      [.add 1 10 kBid 5 10000, .add 1 0xFFFFFFFFFFFFFFFF kBid 5 10000,
        .replace 2 55 0xFFFFFFFFFFFFFFFF 5 10000, .execute 1 10 2, .execute 1 10 3] :=
    along_of_forall (by decide) _
  obtain ⟨_, hleft⟩ :=
    (unknown_reference_ignored_iff RefTable.hash (by decide) hnew _).mpr hspares
  exact ⟨s₀, s, hnew, hrun, hleft s [] hrun 10 List.not_mem_nil (by decide)⟩

/-- The store has one order, of reference 10. An execution of the reference `2 ^ 64 - 1`, which is
not live, takes that order off its level and out of the count of references. -/
theorem unknown_reference_executes_order :
    ∃ s₀ s live s', Store.new 4 (2 ^ 2) = some s₀ ∧
      run (Store.stepLive RefTable.hash) (s₀, []) [.add 1 10 kBid 100 10000] = some (s, live) ∧
      2 ^ 64 - 1 ∉ live ∧ s.step RefTable.hash (.execute 1 0xFFFFFFFFFFFFFFFF 100) = some s' ∧
      ((s.bookOf 1).bestBidIdx, s.refs.size) = (512, 1) ∧
      ((s'.bookOf 1).bestBidIdx, s'.refs.size) = (-1, 0) ∧
      ¬ s.Ignores RefTable.hash (.execute 1 0xFFFFFFFFFFFFFFFF 100) := by
  have hread : (do
      let s₀ ← Store.new 4 (2 ^ 2)
      let x ← run (Store.stepLive RefTable.hash) (s₀, []) [.add 1 10 kBid 100 10000]
      let s' ← x.1.step RefTable.hash (.execute 1 0xFFFFFFFFFFFFFFFF 100)
      return (x.2, ((x.1.bookOf 1).bestBidIdx, x.1.refs.size), (s'.bookOf 1).bestBidIdx,
        s'.refs.size)) = some ([10], (512, 1), -1, 0) := by decide +kernel
  simp only [Option.bind_eq_bind, Option.bind_eq_some_iff, Option.pure_def, Option.some.injEq,
    Prod.mk.injEq] at hread
  obtain ⟨s₀, hnew, ⟨s, live⟩, hrun, s', hs', hlive, ⟨hbid, hsize⟩, hbid', hsize'⟩ := hread
  obtain rfl : live = [10] := hlive
  refine ⟨s₀, s, [10], s', hnew, hrun, by decide, hs', by rw [hbid, hsize],
    by rw [hbid', hsize'], ?_⟩
  intro ⟨s'', hs'', _, hbooks⟩
  obtain rfl := Option.some.inj (hs'.symm.trans hs'')
  rw [hbooks, hbid] at hbid'
  exact absurd hbid' (by decide)

end Histories

end FeedHandler.V3
