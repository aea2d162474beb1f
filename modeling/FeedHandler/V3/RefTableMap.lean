import FeedHandler.Foundations.Runs
import FeedHandler.V3.RefTable

/-!
# The reference table is a finite map

Any sequence of calls on a fresh table, compared with the same calls on an ordered map. `Mirrors`
is the simulation relation; `calls_mirror_map` is the result, for every hash.
-/

namespace FeedHandler.V3.RefTable

open LinearProbing Runs

/-- A call on the table. -/
inductive Call where
  | insert (key value : Nat)
  | erase (key : Nat)
  | find (key : Nat)

/-- The key a call is about. -/
def Call.key : Call → Nat
  | .insert key _ => key
  | .erase key => key
  | .find key => key

/-- The table after a call; a call whose loop does not end has none. -/
def call (hash : Nat → Nat) (t : RefTable) : Call → Option RefTable
  | .insert key value => t.insert hash key value
  | .erase key => t.erase hash key
  | .find key => (t.find hash key).map fun _ => t

/-- The map after a call: insertion stops at half of the capacity. -/
def mapCall (capacity : Nat) (m : OrderedMap Nat Nat) : Call → OrderedMap Nat Nat
  | .insert key value => if m.length * 2 ≥ capacity then m else m.assign key value
  | .erase key => m.erase key
  | .find _ => m

/-- A table of a given capacity mirrors a map: the same keys, with the same values. -/
structure Mirrors (hash : Nat → Nat) (capacity : Nat) (t : RefTable) (m : OrderedMap Nat Nat) :
    Prop where
  wf : t.WF hash
  capacity_eq : t.slots.size = capacity
  lookup_eq : ∀ k, t.lookup k = m.find? k
  size_eq : t.size = m.length

variable {hash : Nat → Nat} {capacity : Nat} {t : RefTable} {m : OrderedMap Nat Nat}

/-- A call keeps the table and the map together. -/
theorem Mirrors.call (h : Mirrors hash capacity t m) (c : Call) (hkey : c.key ≠ kEmpty) :
    ∃ t', t.call hash c = some t' ∧ Mirrors hash capacity t' (mapCall capacity m c) := by
  have hcapacity := h.capacity_eq
  have hlength := h.size_eq
  cases c with
  | insert key value =>
      replace hkey : key ≠ kEmpty := hkey
      simp only [RefTable.call, mapCall]
      split
      next hfull => exact ⟨t, insert_refused value (by omega), h⟩
      next hroom =>
        obtain ⟨t', ht', hwf, hcap, hmap, hsize⟩ := insert_spec h.wf hkey value (by omega)
        refine ⟨t', ht', hwf, hcap.trans h.capacity_eq, fun k => ?_, ?_⟩
        · rw [hmap, OrderedMap.find_assign, Function.update_apply, h.lookup_eq]
        · rw [hsize, h.lookup_eq, h.size_eq, OrderedMap.length_assign]
          cases hfind : m.find? key with
          | none => rw [if_pos rfl, OrderedMap.erase_of_find_eq_none m hfind]
          | some old => rw [if_neg (by simp), OrderedMap.length_erase m hfind]
  | erase key =>
      replace hkey : key ≠ kEmpty := hkey
      simp only [RefTable.call, mapCall]
      cases hfind : m.find? key with
      | none =>
          refine ⟨t, erase_absent h.wf hkey ((h.lookup_eq key).trans hfind), ?_⟩
          rwa [OrderedMap.erase_of_find_eq_none m hfind]
      | some old =>
          obtain ⟨t', ht', hwf, hcap, hmap, hsize⟩ :=
            erase_spec h.wf ((h.lookup_eq key).trans hfind)
          refine ⟨t', ht', hwf, hcap.trans h.capacity_eq, fun k => ?_, ?_⟩
          · rw [hmap, OrderedMap.find_erase, Function.update_apply, h.lookup_eq]
          · have := OrderedMap.length_erase m hfind
            omega
  | find key =>
      have hfind := find_spec h.wf (show key ≠ kEmpty from hkey)
      exact ⟨t, by rw [RefTable.call, hfind, Option.map_some], h⟩

/-- In a mirrored table no key occupies two slots. -/
theorem Mirrors.slot_unique (h : Mirrors hash capacity t m) {p q : Nat} {s s' : Slot}
    (hs : t.slots[p]? = some s) (hs' : t.slots[q]? = some s') (hkey : s.key = s'.key)
    (hne : s.key ≠ kEmpty) : p = q :=
  h.wf.probing.unique p q _ _ (Array.getElem?_eq_some_iff.mp hs).1
    (Array.getElem?_eq_some_iff.mp hs').1 ((view_eq_some_iff hs).mpr ⟨hne, rfl⟩)
    ((view_eq_some_iff hs').mpr ⟨hkey ▸ hne, rfl⟩) hkey

/-- For every hash, every capacity that is a power of two above one and every sequence of calls
with keys other than the empty one, every loop ends, and the table then behaves as the map: `find`
returns the mapped value or `kNullIdx`, `size` is the number of keys and at most half of the
capacity, and no key occupies two slots. -/
theorem calls_mirror_map (hash : Nat → Nat) {e : Nat} (he : 1 ≤ e) (calls : List Call)
    (hkeys : ∀ c ∈ calls, c.key ≠ kEmpty) :
    ∃ t, run (RefTable.call hash) (new (2 ^ e)) calls = some t ∧
      (∀ k, k ≠ kEmpty → t.find hash k =
        some (((calls.foldl (mapCall (2 ^ e)) ∅).find? k).getD kNullIdx)) ∧
      t.size = (calls.foldl (mapCall (2 ^ e)) ∅).length ∧
      (∀ (p q : Nat) (s s' : Slot), t.slots[p]? = some s → t.slots[q]? = some s' → s.key = s'.key →
        s.key ≠ kEmpty → p = q) ∧
      t.size ≤ 2 ^ e / 2 := by
  obtain ⟨hwf, hmap⟩ := new_spec hash he
  have hstart : Mirrors hash (2 ^ e) (new (2 ^ e)) ∅ :=
    ⟨hwf, by simp [new], fun k => by rw [hmap]; rfl, rfl⟩
  have hstep : ∀ t m c, Mirrors hash (2 ^ e) t m → Call.key c ≠ kEmpty →
      ∃ t', t.call hash c = some t' ∧ Mirrors hash (2 ^ e) t' (mapCall (2 ^ e) m c) :=
    fun _ _ c h hc => h.call c hc
  obtain ⟨t, hrun, h⟩ := run_refines hstep hstart hkeys
  refine ⟨t, hrun, fun k hk => ?_, h.size_eq, fun p q s s' hs hs' => h.slot_unique hs hs', ?_⟩
  · rw [find_spec h.wf hk, h.lookup_eq]
  · have := h.wf.half
    have := h.capacity_eq
    omega

/-- Three keys of one cluster around the end of an array of eight slots, the first one erased. -/
theorem calls_mirror_map_wrapping :
    ∃ t, run (RefTable.call fun _ => 7) (new (2 ^ 3))
        [.insert 10 0, .insert 11 1, .insert 12 2, .erase 10] = some t ∧
      t.find (fun _ => 7) 12 = some 2 ∧ t.size = 2 := by
  obtain ⟨t, hrun, hfind, hsize, _⟩ := calls_mirror_map (fun _ => 7) (by decide : 1 ≤ 3)
    [.insert 10 0, .insert 11 1, .insert 12 2, .erase 10] (by decide)
  exact ⟨t, hrun, hfind 12 (by decide), hsize⟩

end FeedHandler.V3.RefTable
