import FeedHandler.Foundations.LinearProbing
import FeedHandler.Foundations.OrderedMap
import FeedHandler.V3.ObjectPool

/-!
# The order reference table

`include/v3/ref_table.hpp`: an open-addressing map from 64-bit order references to pool indices,
with linear probing and backward-shift deletion. The hash is a parameter of every operation, so
the results hold for any hash values; `RefTable.hash` is the mixer of the source. A loop carries
fuel equal to the capacity and returns `none` when it would run on.

Read `RefTable.find_spec`, `RefTable.insert_spec` and `RefTable.erase_spec` first.
-/

namespace FeedHandler.V3

open LinearProbing

/-- `RefTable::kEmpty`: the key that marks a free slot. -/
def kEmpty : Nat := 2 ^ 64 - 1

/-- `RefTable::Slot`. -/
structure Slot where
  key : Nat
  value : Nat
  pad : Nat
  deriving DecidableEq, Repr, Inhabited

/-- `RefTable`. `size * 2` is compared as a natural number: no table of addressable size makes
the product overflow. -/
structure RefTable where
  slots : Array Slot
  mask : Nat
  size : Nat
  deriving DecidableEq, Repr

namespace RefTable

/-- The constructor, for a capacity that should be a power of two. -/
def new (capacity : Nat) : RefTable where
  slots := Array.replicate capacity ⟨kEmpty, 0, 0⟩
  mask := capacity - 1
  size := 0

/-- `hash`: the 64-bit finalizer of the source. -/
def hash (x : Nat) : Nat :=
  let x := x ^^^ (x >>> 30)
  let x := x * 0xbf58476d1ce4e5b9 % 2 ^ 64
  let x := x ^^^ (x >>> 27)
  let x := x * 0x94d049bb133111eb % 2 ^ 64
  x ^^^ (x >>> 31)

/-- The loop of `probe`. -/
def probeLoop (t : RefTable) (key : Nat) : Nat → Nat → Option Nat
  | 0, _ => none
  | fuel + 1, i => do
      let s ← t.slots[i]?
      if s.key ≠ kEmpty ∧ s.key ≠ key then probeLoop t key fuel ((i + 1) &&& t.mask)
      else some i

/-- `probe`: the slot of a key, or the free slot where its scan ends. -/
def probe (hash : Nat → Nat) (t : RefTable) (key : Nat) : Option Nat :=
  t.probeLoop key t.slots.size (hash key &&& t.mask)

/-- `insert`: refused without a trace at half load. -/
def insert (hash : Nat → Nat) (t : RefTable) (key value : Nat) : Option RefTable :=
  if t.size * 2 ≥ t.slots.size then some t
  else do
    let i ← t.probe hash key
    let s ← t.slots[i]?
    if s.key = kEmpty then
      some { t with slots := t.slots.setIfInBounds i ⟨key, value, s.pad⟩, size := t.size + 1 }
    else
      some { t with slots := t.slots.setIfInBounds i { s with value := value } }

/-- `find`: the value of a key, or `kNullIdx`. -/
def find (hash : Nat → Nat) (t : RefTable) (key : Nat) : Option Nat := do
  let i ← t.probe hash key
  let s ← t.slots[i]?
  some (if s.key = key then s.value else kNullIdx)

/-- The loop of `erase`: `i` is the hole, `j` the last slot looked at. -/
def eraseLoop (hash : Nat → Nat) (mask : Nat) :
    Nat → Array Slot → Nat → Nat → Option (Array Slot × Nat)
  | 0, _, _, _ => none
  | fuel + 1, slots, i, j => do
      let j := (j + 1) &&& mask
      let s ← slots[j]?
      if s.key = kEmpty then some (slots, i)
      else
        let k := hash s.key &&& mask
        if (if j > i then k ≤ i ∨ k > j else k ≤ i ∧ k > j) then
          eraseLoop hash mask fuel (slots.setIfInBounds i s) j j
        else eraseLoop hash mask fuel slots i j

/-- `erase`: remove a key and shift later entries of its cluster back. The size is a `size_t`, so
it wraps below zero. -/
def erase (hash : Nat → Nat) (t : RefTable) (key : Nat) : Option RefTable := do
  let i ← t.probe hash key
  let s ← t.slots[i]?
  if s.key ≠ key then some t
  else
    let (slots, i) ← eraseLoop hash t.mask t.slots.size t.slots i i
    let s ← slots[i]?
    some { t with
      slots := slots.setIfInBounds i { s with key := kEmpty }
      size := if t.size = 0 then 2 ^ 64 - 1 else t.size - 1 }

/-! ## The table as a map -/

/-- A slot array as the probing library sees it: a slot with the empty key holds nothing. -/
def view (slots : Array Slot) (p : Nat) : Option (Nat × Nat) :=
  match slots[p]? with
  | some s => if s.key = kEmpty then none else some (s.key, s.value)
  | none => none

/-- The map a table stands for. -/
def lookup (t : RefTable) (key : Nat) : Option Nat :=
  if key = kEmpty then none
  else (t.slots.toList.find? fun s => s.key = key).map Slot.value

/-- The invariant of the table under a hash: the capacity is a power of two above one, the
probing invariant holds, `size` counts the entries, and at most half of the slots are used. -/
structure WF (hash : Nat → Nat) (t : RefTable) : Prop where
  capacity : ∃ e, 1 ≤ e ∧ t.slots.size = 2 ^ e
  mask_eq : t.mask = t.slots.size - 1
  probing : Probing t.slots.size (fun k => hash k &&& t.mask) (view t.slots)
  size_eq : t.size = load t.slots.size (view t.slots)
  half : t.size * 2 ≤ t.slots.size

section View

variable {slots : Array Slot} {p : Nat}

theorem view_eq_none_iff {s : Slot} (hs : slots[p]? = some s) :
    view slots p = none ↔ s.key = kEmpty := by
  simp [view, hs]

theorem view_eq_some_iff {s : Slot} (hs : slots[p]? = some s) {e : Nat × Nat} :
    view slots p = some e ↔ s.key ≠ kEmpty ∧ e = (s.key, s.value) := by
  simp [view, hs, eq_comm]

/-- Overwriting a slot overwrites its position. -/
theorem view_set (hp : p < slots.size) (s : Slot) :
    view (slots.setIfInBounds p s) =
      Function.update (view slots) p (if s.key = kEmpty then none else some (s.key, s.value)) := by
  funext q
  by_cases hq : q = p
  · simp [view, hq, hp]
  · rw [Function.update_of_ne hq]
    simp [view, Ne.symm hq]

end View

section Ring

variable {hash : Nat → Nat} {t : RefTable}

/-- Masking by a power of two minus one is the remainder. -/
theorem WF.and_mask (h : t.WF hash) (x : Nat) : x &&& t.mask = x % t.slots.size := by
  obtain ⟨e, _, hsize⟩ := h.capacity
  rw [h.mask_eq, hsize, Nat.and_two_pow_sub_one_eq_mod]

theorem WF.size_pos (h : t.WF hash) : 0 < t.slots.size := by
  obtain ⟨e, _, hsize⟩ := h.capacity
  rw [hsize]
  exact Nat.two_pow_pos e

theorem WF.home_lt (h : t.WF hash) (k : Nat) : hash k &&& t.mask < t.slots.size := by
  rw [h.and_mask]
  exact Nat.mod_lt _ h.size_pos

/-- Stepping to the next index and masking is a step on the ring. -/
theorem WF.step_eq_next (h : t.WF hash) {i : Nat} (hi : i < t.slots.size) :
    (i + 1) &&& t.mask = next t.slots.size i := by
  rw [h.and_mask, next]
  split
  next heq => rw [heq, Nat.mod_self]
  next hne => exact Nat.mod_eq_of_lt (by omega)

/-- Some slot is free. -/
theorem WF.exists_free (h : t.WF hash) :
    ∃ p, p < t.slots.size ∧ view t.slots p = none := by
  apply exists_empty
  have := h.size_eq
  have := h.half
  have := h.size_pos
  omega

end Ring

/-! ## Probing -/

section Probe

variable {hash : Nat → Nat} {t : RefTable}

/-- From a position reached without finding the key, the loop of `probe` stops where the scan
does. The fuel covers the way to the free position `z`. -/
theorem probe_loop_spec (h : t.WF hash) {key z : Nat} (hz : z < t.slots.size)
    (hfree : view t.slots z = none) (fuel i : Nat) (hi : i < t.slots.size)
    (hpassed : ∀ q, q < t.slots.size →
      dist t.slots.size (hash key &&& t.mask) q < dist t.slots.size (hash key &&& t.mask) i →
      ∃ e, view t.slots q = some e ∧ e.1 ≠ key)
    (hle : dist t.slots.size (hash key &&& t.mask) i ≤ dist t.slots.size (hash key &&& t.mask) z)
    (hfuel : dist t.slots.size (hash key &&& t.mask) z <
      dist t.slots.size (hash key &&& t.mask) i + fuel) :
    ∃ p, t.probeLoop key fuel i = some p ∧
      StopsAt t.slots.size (fun k => hash k &&& t.mask) (view t.slots) key p := by
  have hhome := h.home_lt key
  induction fuel generalizing i with
  | zero => omega
  | succ fuel ih =>
      have hslot : t.slots[i]? = some t.slots[i] := Array.getElem?_eq_getElem hi
      simp only [probeLoop, hslot, Option.bind_eq_bind, Option.bind_some]
      split
      next hgo =>
        have hview : view t.slots i = some (t.slots[i].key, t.slots[i].value) :=
          (view_eq_some_iff hslot).mpr ⟨hgo.1, rfl⟩
        have hiz : i ≠ z := by
          intro hsame
          subst hsame
          rw [hfree] at hview
          cases hview
        -- The free position has not been passed, so there is one more step to take.
        have hlt : dist t.slots.size (hash key &&& t.mask) i <
            dist t.slots.size (hash key &&& t.mask) z := by
          rcases Nat.lt_or_eq_of_le hle with hlt | heq
          · exact hlt
          · exact absurd (dist_inj hhome hi hz heq) hiz
        have hstep := dist_next hhome hi (next_ne_of_dist_lt hhome hi hz hlt)
        rw [h.step_eq_next hi]
        refine ih (next t.slots.size i) (next_lt hi) ?_ (by omega) (by omega)
        intro q hq hqlt
        rcases Nat.lt_or_eq_of_le (Nat.le_of_lt_succ (hstep ▸ hqlt)) with hqi | hqi
        · exact hpassed q hq hqi
        · obtain rfl := dist_inj hhome hq hi hqi
          exact ⟨_, hview, hgo.2⟩
      next hstop =>
        -- The loop stops at the key or at a free slot.
        refine ⟨i, rfl, hi, ?_, hpassed⟩
        intro e he
        obtain ⟨hne, rfl⟩ := (view_eq_some_iff hslot).mp he
        by_contra hother
        exact hstop ⟨hne, hother⟩

/-- `probe` ends, at the position where the scan for the key stops. -/
theorem probe_spec (h : t.WF hash) (key : Nat) :
    ∃ p, t.probe hash key = some p ∧
      StopsAt t.slots.size (fun k => hash k &&& t.mask) (view t.slots) key p := by
  obtain ⟨z, hz, hfree⟩ := h.exists_free
  have hhome := h.home_lt key
  have hzlt : dist t.slots.size (hash key &&& t.mask) z < t.slots.size := by
    have := dist_spec hhome z
    omega
  refine probe_loop_spec h hz hfree t.slots.size _ hhome ?_ (by simp) (by simpa using hzlt)
  intro q _ hlt
  simp at hlt

end Probe

/-! ## Lookup -/

section Lookup

variable {hash : Nat → Nat} {t : RefTable} {key value : Nat}

/-- In a well-formed table the lookup is the mapping of the probing library. -/
theorem lookup_eq_some_iff (h : t.WF hash) :
    t.lookup key = some value ↔ Holds t.slots.size (view t.slots) key value := by
  constructor
  · intro hlookup
    unfold lookup at hlookup
    split at hlookup
    next => cases hlookup
    next hkey =>
      obtain ⟨s, hs, rfl⟩ := Option.map_eq_some_iff.mp hlookup
      have hskey : s.key = key := by simpa using List.find?_some hs
      obtain ⟨p, hp⟩ := List.mem_iff_getElem?.mp (List.mem_of_find?_eq_some hs)
      have hslot : t.slots[p]? = some s := by simpa using hp
      refine ⟨p, (Array.getElem?_eq_some_iff.mp hslot).1, ?_⟩
      rw [view_eq_some_iff hslot, hskey]
      exact ⟨hkey, rfl⟩
  · intro hgiven
    obtain ⟨p, hp, hview⟩ := hgiven
    have hslot : t.slots[p]? = some t.slots[p] := Array.getElem?_eq_getElem hp
    obtain ⟨hne, hpair⟩ := (view_eq_some_iff hslot).mp hview
    obtain ⟨rfl, rfl⟩ := Prod.mk.inj hpair
    unfold lookup
    rw [if_neg hne]
    cases hfind : t.slots.toList.find? (fun s => s.key = t.slots[p].key) with
    | none =>
        have := List.find?_eq_none.mp hfind t.slots[p] (by simp)
        simp at this
    | some s =>
        have hskey : s.key = t.slots[p].key := by simpa using List.find?_some hfind
        obtain ⟨q, hq⟩ := List.mem_iff_getElem?.mp (List.mem_of_find?_eq_some hfind)
        have hsq : t.slots[q]? = some s := by simpa using hq
        have hqview : view t.slots q = some (s.key, s.value) :=
          (view_eq_some_iff hsq).mpr ⟨by rwa [hskey], rfl⟩
        have hqlt := (Array.getElem?_eq_some_iff.mp hsq).1
        obtain rfl := h.probing.unique q p _ _ hqlt hp hqview hview hskey
        rw [hslot] at hsq
        simp [Option.some.inj hsq]

theorem lookup_eq_none_iff (h : t.WF hash) :
    t.lookup key = none ↔ ∀ v, ¬ Holds t.slots.size (view t.slots) key v := by
  simp only [← lookup_eq_some_iff h, Option.eq_none_iff_forall_ne_some, ne_eq]

@[simp] theorem lookup_empty_key (t : RefTable) : t.lookup kEmpty = none := by simp [lookup]

/-- The slot where the scan for a mapped key stops. -/
theorem slot_of_lookup (h : t.WF hash) {p : Nat}
    (hstop : StopsAt t.slots.size (fun k => hash k &&& t.mask) (view t.slots) key p)
    (hlookup : t.lookup key = some value) :
    ∃ s, t.slots[p]? = some s ∧ s.key = key ∧ s.value = value ∧ s.key ≠ kEmpty := by
  have hview := hstop.of_holds h.probing (h.home_lt key) ((lookup_eq_some_iff h).mp hlookup)
  have hp := hstop.lt
  have hslot : t.slots[p]? = some t.slots[p] := Array.getElem?_eq_getElem hp
  obtain ⟨hne, hpair⟩ := (view_eq_some_iff hslot).mp hview
  obtain ⟨rfl, rfl⟩ := Prod.mk.inj hpair
  exact ⟨_, hslot, rfl, rfl, hne⟩

/-- The slot where the scan for an unmapped key stops. -/
theorem slot_of_lookup_none (h : t.WF hash) {p : Nat}
    (hstop : StopsAt t.slots.size (fun k => hash k &&& t.mask) (view t.slots) key p)
    (hlookup : t.lookup key = none) :
    ∃ s, t.slots[p]? = some s ∧ s.key = kEmpty := by
  have hview := hstop.of_absent ((lookup_eq_none_iff h).mp hlookup)
  have hp := hstop.lt
  have hslot : t.slots[p]? = some t.slots[p] := Array.getElem?_eq_getElem hp
  exact ⟨_, hslot, (view_eq_none_iff hslot).mp hview⟩

/-- `find` returns the mapped value, or `kNullIdx` for an unmapped key. -/
theorem find_spec (h : t.WF hash) (hkey : key ≠ kEmpty) :
    t.find hash key = some ((t.lookup key).getD kNullIdx) := by
  obtain ⟨p, hprobe, hstop⟩ := probe_spec h key
  cases hlookup : t.lookup key with
  | none =>
      obtain ⟨s, hslot, hs⟩ := slot_of_lookup_none h hstop hlookup
      have hne : s.key ≠ key := by rwa [hs, ne_comm]
      simp [find, hprobe, hslot, hne]
  | some value =>
      obtain ⟨s, hslot, hs, rfl, _⟩ := slot_of_lookup h hstop hlookup
      simp [find, hprobe, hslot, hs]

end Lookup

/-! ## Insertion -/

section Insert

variable {hash : Nat → Nat} {t : RefTable} {key : Nat}

/-- What `insert` does below half load: the mapping changes at the key only, and the size grows
when the key is new. -/
theorem insert_spec (h : t.WF hash) (hkey : key ≠ kEmpty) (value : Nat)
    (hroom : t.size * 2 < t.slots.size) :
    ∃ t', t.insert hash key value = some t' ∧ t'.WF hash ∧ t'.slots.size = t.slots.size ∧
      t'.lookup = Function.update t.lookup key (some value) ∧
      t'.size = if t.lookup key = none then t.size + 1 else t.size := by
  obtain ⟨p, hprobe, hstop⟩ := probe_spec h key
  have hp := hstop.lt
  -- The two branches write a slot with the same key and value; they differ in the size.
  have hwrite : ∀ pad size, size = load t.slots.size
        (Function.update (view t.slots) p (some (key, value))) → size * 2 ≤ t.slots.size →
      WF hash { t with slots := t.slots.setIfInBounds p ⟨key, value, pad⟩, size := size } ∧
      lookup { t with slots := t.slots.setIfInBounds p ⟨key, value, pad⟩, size := size } =
        Function.update t.lookup key (some value) := by
    intro pad size hsize hhalf
    have hview : view (t.slots.setIfInBounds p ⟨key, value, pad⟩) =
        Function.update (view t.slots) p (some (key, value)) := by
      rw [view_set hp, if_neg hkey]
    have hwf : WF hash
        { t with slots := t.slots.setIfInBounds p ⟨key, value, pad⟩, size := size } := by
      refine ⟨?_, ?_, ?_, ?_, ?_⟩
      · simpa using h.capacity
      · simpa using h.mask_eq
      · simpa [hview] using h.probing.write value hstop (h.home_lt key)
      · simpa [hview] using hsize
      · simpa using hhalf
    refine ⟨hwf, funext fun k => Option.ext fun v => ?_⟩
    rw [lookup_eq_some_iff hwf]
    simp only [Array.size_setIfInBounds, hview]
    rw [holds_write value hstop h.probing (h.home_lt key), ← lookup_eq_some_iff h]
    by_cases hk : k = key
    · simp [hk, eq_comm]
    · simp [hk]
  cases hlookup : t.lookup key with
  | none =>
      obtain ⟨s, hslot, hs⟩ := slot_of_lookup_none h hstop hlookup
      have hload := load_fill hp ((view_eq_none_iff hslot).mpr hs) (key, value)
      obtain ⟨hwf, hmap⟩ := hwrite s.pad (t.size + 1) (by rw [hload, h.size_eq]) (by
        obtain ⟨e, he, hsize⟩ := h.capacity
        obtain ⟨d, rfl⟩ : ∃ d, e = d + 1 := ⟨e - 1, by omega⟩
        rw [Nat.pow_succ] at hsize
        omega)
      refine ⟨_, ?_, hwf, by simp, hmap, by simp⟩
      simp [insert, Nat.not_le.mpr hroom, hprobe, hslot, hs]
  | some old =>
      obtain ⟨s, hslot, rfl, rfl, hs⟩ := slot_of_lookup h hstop hlookup
      have hload := load_replace (n := t.slots.size)
        ((view_eq_some_iff hslot).mpr ⟨hs, rfl⟩) (s.key, value)
      obtain ⟨hwf, hmap⟩ := hwrite s.pad t.size (by rw [hload, h.size_eq]) h.half
      refine ⟨_, ?_, hwf, by simp, hmap, by simp⟩
      simp [insert, Nat.not_le.mpr hroom, hprobe, hslot, hs]

/-- At half load `insert` does nothing. -/
theorem insert_refused (value : Nat) (hfull : t.slots.size ≤ t.size * 2) :
    t.insert hash key value = some t := by
  simp [insert, hfull]

end Insert

/-! ## Erasure -/

section Erase

variable {hash : Nat → Nat} {mask n : Nat}

/-- What the loop of `erase` leaves: with their hole cleared, the slots `slots'` are a table that
holds what `slots` with its hole cleared holds. -/
structure Refilled (n : Nat) (home : Nat → Nat) (slots : Array Slot) (i : Nat)
    (slots' : Array Slot) (i' : Nat) : Prop where
  size_eq : slots'.size = n
  hole_lt : i' < n
  probing : Probing n home (Function.update (view slots') i' none)
  load_eq : load n (Function.update (view slots') i' none) =
    load n (Function.update (view slots) i none)
  holds_iff : ∀ k v, Holds n (Function.update (view slots') i' none) k v ↔
    Holds n (Function.update (view slots) i none) k v

/-- Moving an entry into the hole only moves the hole. -/
theorem Refilled.of_move {home : Nat → Nat} {slots slots₁ slots' : Array Slot} {i i' p : Nat}
    {e : Nat × Nat} (hi : i < n) (hp : p < n)
    (hentry : Function.update (view slots) i none p = some e)
    (hmoved : Function.update (view slots₁) p none =
      Function.update (Function.update (Function.update (view slots) i none) i (some e)) p none)
    (h : Refilled n home slots₁ p slots' i') : Refilled n home slots i slots' i' where
  size_eq := h.size_eq
  hole_lt := h.hole_lt
  probing := h.probing
  load_eq := by
    rw [h.load_eq, hmoved, load_move hi (Function.update_self ..) hp hentry]
  holds_iff := by
    intro k v
    rw [h.holds_iff, hmoved, holds_move hi (Function.update_self ..) hp hentry]

/-- The loop of `erase` ends and leaves a table whose probing invariant holds once the hole is
cleared. The fuel covers the way from `j` to the free position `z`. -/
theorem erase_loop_spec (hstep : ∀ i, i < n → (i + 1) &&& mask = next n i)
    (hhome : ∀ k, hash k &&& mask < n) (fuel z : Nat) (slots : Array Slot) (i j : Nat)
    (hsize : slots.size = n) (hz : z < n) (hzi : z ≠ i) (hzj : z ≠ j)
    (hfree : view slots z = none)
    (hshift : Shifting n (fun k => hash k &&& mask) (Function.update (view slots) i none) i j)
    (hfuel : dist n j z ≤ fuel) :
    ∃ slots' i', eraseLoop hash mask fuel slots i j = some (slots', i') ∧
      Refilled n (fun k => hash k &&& mask) slots i slots' i' := by
  induction fuel generalizing slots i j with
  | zero =>
      have := dist_pos (b := z) hshift.pos_lt
      omega
  | succ fuel ih =>
      have hi := hshift.hole_lt
      have hj := hshift.pos_lt
      have hjn := next_lt hj
      have hzfree : Function.update (view slots) i none z = none := by
        rw [Function.update_of_ne hzi, hfree]
      have hne := hshift.next_ne_hole hz hzi hzfree
      have hlt : next n j < slots.size := hsize ▸ hjn
      have hslot : slots[next n j]? = some slots[next n j] := Array.getElem?_eq_getElem hlt
      simp only [eraseLoop, hstep j hj, hslot, Option.bind_eq_bind, Option.bind_some]
      split
      next hempty =>
        -- The scan stops at an empty slot: no later entry was displaced across the hole.
        refine ⟨slots, i, rfl, hsize, hi, hshift.finish hne ?_ hhome, rfl, by simp⟩
        rw [Function.update_of_ne hne, view_eq_none_iff hslot, hempty]
      next hfull =>
        have hview : view slots (next n j) = some (slots[next n j].key, slots[next n j].value) :=
          (view_eq_some_iff hslot).mpr ⟨hfull, rfl⟩
        have hentry : Function.update (view slots) i none (next n j) =
            some (slots[next n j].key, slots[next n j].value) := by
          rw [Function.update_of_ne hne, hview]
        have hznext : z ≠ next n j := by
          intro heq
          subst heq
          rw [hfree] at hview
          cases hview
        have hcloser : dist n (next n j) z ≤ fuel := by
          have hnear := dist_next_left hj hz hzj
          omega
        have hcompare := outside_iff hi (hhome slots[next n j].key) hjn hne
        by_cases hinside : 0 < dist n i (hash slots[next n j].key &&& mask) ∧
            dist n i (hash slots[next n j].key &&& mask) ≤ dist n i (next n j)
        · -- The home lies behind the hole, so that the entry stays where it is.
          rw [if_neg fun h => hcompare.mp h hinside]
          exact ih slots i (next n j) hsize hzi hznext hfree
            (hshift.keep hne hentry hinside) hcloser
        · -- The entry moves into the hole and leaves a hole of its own.
          rw [if_pos (hcompare.mpr hinside)]
          have hmoved : Function.update
              (view (slots.setIfInBounds i slots[next n j])) (next n j) none =
              Function.update (Function.update (Function.update (view slots) i none) i
                (some (slots[next n j].key, slots[next n j].value))) (next n j) none := by
            rw [view_set (hsize ▸ hi), if_neg hfull, Function.update_idem]
          have hnext := hshift.move hne hentry hhome hinside
          rw [← hmoved] at hnext
          have hzfree' : view (slots.setIfInBounds i slots[next n j]) z = none := by
            rw [view_set (hsize ▸ hi), Function.update_of_ne hzi, hfree]
          obtain ⟨slots', i', hloop, hrefilled⟩ :=
            ih (slots.setIfInBounds i slots[next n j]) (next n j) (next n j) (by simpa using hsize)
              hznext hznext hzfree' hnext hcloser
          exact ⟨slots', i', hloop, .of_move hi hjn hentry hmoved hrefilled⟩

variable {t : RefTable} {key : Nat}

/-- `erase` of a mapped key removes it and nothing else. -/
theorem erase_spec (h : t.WF hash) {value : Nat} (hlookup : t.lookup key = some value) :
    ∃ t', t.erase hash key = some t' ∧ t'.WF hash ∧ t'.slots.size = t.slots.size ∧
      t'.lookup = Function.update t.lookup key none ∧ t.size = t'.size + 1 := by
  obtain ⟨p, hprobe, hstop⟩ := probe_spec h key
  obtain ⟨s, hslot, hskey, hsvalue, hs⟩ := slot_of_lookup h hstop hlookup
  have hp := hstop.lt
  have hview : view t.slots p = some (key, value) :=
    (view_eq_some_iff hslot).mpr ⟨hs, by rw [hskey, hsvalue]⟩
  obtain ⟨z, hz, hfree⟩ := h.exists_free
  have hzp : z ≠ p := by
    intro heq
    subst heq
    rw [hfree] at hview
    cases hview
  have hfuel : dist t.slots.size p z ≤ t.slots.size := by
    have := dist_spec hp z
    omega
  obtain ⟨slots, i, hloop, hsize, hi, hprobing, hload, hholds⟩ :=
    erase_loop_spec (fun i hi => h.step_eq_next hi) h.home_lt t.slots.size z t.slots p p rfl hz
      hzp hzp hfree (Shifting.start h.probing hp) hfuel
  have hlast : slots[i]? = some slots[i] := Array.getElem?_eq_getElem (hsize ▸ hi)
  -- `erase` clears the key of the last hole.
  have hcleared : view (slots.setIfInBounds i { slots[i] with key := kEmpty }) =
      Function.update (view slots) i none := by
    rw [view_set (hsize ▸ hi), if_pos rfl]
  have hcount : load t.slots.size (view t.slots) =
      load t.slots.size (Function.update (view t.slots) p none) + 1 := load_clear hp hview
  have hpos : t.size ≠ 0 := by rw [h.size_eq]; omega
  let t' : RefTable := { t with
    slots := slots.setIfInBounds i { slots[i] with key := kEmpty }
    size := if t.size = 0 then 2 ^ 64 - 1 else t.size - 1 }
  have hsize' : t'.slots.size = t.slots.size := by simp [t', hsize]
  have htsize : t'.size = t.size - 1 := by simp [t', hpos]
  have hwf : t'.WF hash := by
    refine ⟨?_, ?_, ?_, ?_, ?_⟩
    · rw [hsize']
      exact h.capacity
    · rw [hsize']
      exact h.mask_eq
    · rw [hsize']
      simpa [t', hcleared] using hprobing
    · rw [hsize', htsize, h.size_eq]
      simp only [t', hcleared, hload]
      omega
    · rw [hsize', htsize]
      have := h.half
      omega
  refine ⟨t', ?_, hwf, hsize', funext fun k => Option.ext fun v => ?_, by omega⟩
  · simp [erase, hprobe, hslot, hskey, hloop, hlast, t']
  · rw [lookup_eq_some_iff hwf, hsize']
    simp only [t', hcleared]
    rw [hholds k v, holds_clear h.probing hp hview, ← lookup_eq_some_iff h]
    by_cases hk : k = key
    · simp [hk]
    · simp [hk]

/-- `erase` of an unmapped key does nothing. -/
theorem erase_absent (h : t.WF hash) (hkey : key ≠ kEmpty) (hlookup : t.lookup key = none) :
    t.erase hash key = some t := by
  obtain ⟨p, hprobe, hstop⟩ := probe_spec h key
  obtain ⟨s, hslot, hs⟩ := slot_of_lookup_none h hstop hlookup
  have hne : s.key ≠ key := by rwa [hs, ne_comm]
  simp [erase, hprobe, hslot, hne]

end Erase

/-- The constructed table is well formed and maps nothing. -/
theorem new_spec (hash : Nat → Nat) {e : Nat} (he : 1 ≤ e) :
    (new (2 ^ e)).WF hash ∧ (new (2 ^ e)).lookup = fun _ => none := by
  have hview : view (new (2 ^ e)).slots = fun _ => none := by
    funext p
    unfold view
    split
    next s hs =>
      obtain ⟨_, hs⟩ := Array.getElem?_eq_some_iff.mp hs
      simp [new] at hs
      simp [← hs]
    next => rfl
  have hwf : (new (2 ^ e)).WF hash := by
    refine ⟨⟨e, he, by simp [new]⟩, by simp [new], ?_, ?_, by simp [new]⟩
    · rw [hview]
      exact Probing.empty
    · rw [hview]
      simp [new, load]
  refine ⟨hwf, funext fun k => ?_⟩
  rw [lookup_eq_none_iff hwf, hview]
  intro v h
  obtain ⟨p, _, hp⟩ := h
  cases hp

end RefTable

end FeedHandler.V3
