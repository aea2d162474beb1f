import Mathlib.Data.Finset.Card
import Mathlib.Data.Finset.Range
import Mathlib.Data.Finset.Filter
import Mathlib.Logic.Function.Basic

/-!
# Open addressing with linear probing

The theory of a hash table whose collisions are resolved by scanning to the next position of a
ring of `n` positions, and whose deletions shift later entries back instead of leaving tombstones.
A table is a function `slot` from positions to optional entries, `home` the start of an entry's
scan. `Probing` is the invariant: no empty position lies between an entry and its home, and no key
occurs twice. `Shifting` is the loop invariant of a deletion: the table with one hole, together
with the positions already found to be unmovable. Read `Shifting.finish`, `Shifting.keep` and
`Shifting.move` first: they are the three ways one iteration of the shift can go.
-/

namespace FeedHandler.LinearProbing

universe u v

/-- The position after `i` on a ring of `n` positions. -/
def next (n i : Nat) : Nat := if i + 1 = n then 0 else i + 1

/-- The number of forward steps from `a` to `b` on a ring of `n` positions. -/
def dist (n a b : Nat) : Nat := if a ≤ b then b - a else b + n - a

variable {n : Nat}

theorem next_spec {i : Nat} (hi : i < n) :
    i + 1 < n ∧ next n i = i + 1 ∨ i + 1 = n ∧ next n i = 0 := by
  unfold next
  split <;> omega

/-- The distance in a form without subtraction. -/
theorem dist_spec {a : Nat} (ha : a < n) (b : Nat) :
    a ≤ b ∧ dist n a b + a = b ∨ b < a ∧ dist n a b + a = b + n := by
  unfold dist
  split <;> omega

theorem next_lt {i : Nat} (hi : i < n) : next n i < n := by
  have := next_spec hi
  omega

@[simp] theorem dist_self (a : Nat) : dist n a a = 0 := by simp [dist]

theorem dist_pos {a b : Nat} (ha : a < n) : 0 < dist n a b ↔ a ≠ b := by
  have := dist_spec ha b
  omega

theorem dist_inj {a b c : Nat} (ha : a < n) (hb : b < n) (hc : c < n)
    (h : dist n a b = dist n a c) : b = c := by
  have := dist_spec ha b
  have := dist_spec ha c
  omega

/-- One step forward is one step farther, unless it returns to the start. -/
theorem dist_next {a j : Nat} (ha : a < n) (hj : j < n) (hne : next n j ≠ a) :
    dist n a (next n j) = dist n a j + 1 := by
  have := next_spec hj
  have := dist_spec ha j
  have := dist_spec ha (next n j)
  omega

/-- One step toward another position is one step nearer to it. -/
theorem dist_next_left {j z : Nat} (hj : j < n) (hz : z < n) (hne : z ≠ j) :
    dist n (next n j) z + 1 = dist n j z := by
  have := next_spec hj
  have := dist_spec hj z
  have := dist_spec (next_lt hj) z
  omega

/-- A position nearer to the start than some other one is not the last before the start. -/
theorem next_ne_of_dist_lt {a j z : Nat} (ha : a < n) (hj : j < n) (hz : z < n)
    (hlt : dist n a j < dist n a z) : next n j ≠ a := by
  have := next_spec hj
  have := dist_spec ha j
  have := dist_spec ha z
  omega

/-- The comparison a shifting deletion makes on array indices says whether the home `h` lies
outside the ring segment from the hole `i` (excluded) to the position `j` (included). -/
theorem outside_iff {i h j : Nat} (hi : i < n) (hh : h < n) (hj : j < n) (hne : j ≠ i) :
    (if j > i then h ≤ i ∨ h > j else h ≤ i ∧ h > j) ↔
      ¬ (0 < dist n i h ∧ dist n i h ≤ dist n i j) := by
  have := dist_spec hi h
  have := dist_spec hi j
  split <;> omega

/-! ## Tables -/

variable {κ : Type u} {α : Type v} {home : κ → Nat} {slot : Nat → Option (κ × α)}

/-- The table maps a key to a value: some position holds the pair. -/
def Holds (n : Nat) (slot : Nat → Option (κ × α)) (k : κ) (v : α) : Prop :=
  ∃ p, p < n ∧ slot p = some (k, v)

/-- The number of occupied positions. -/
def load (n : Nat) (slot : Nat → Option (κ × α)) : Nat :=
  ((Finset.range n).filter fun p => (slot p).isSome).card

/-- The invariant of a table: a scan from an entry's home to the entry meets no empty position,
and no key occupies two positions. -/
structure Probing (n : Nat) (home : κ → Nat) (slot : Nat → Option (κ × α)) : Prop where
  path : ∀ p e, p < n → slot p = some e →
    ∀ q, q < n → dist n (home e.1) q < dist n (home e.1) p → (slot q).isSome
  unique : ∀ p q e f, p < n → q < n → slot p = some e → slot q = some f → e.1 = f.1 → p = q

/-- The empty table satisfies the invariant. -/
theorem Probing.empty : Probing n home (fun _ => (none : Option (κ × α))) where
  path := by simp
  unique := by simp

/-- A key is mapped to at most one value. -/
theorem Probing.holds_unique (h : Probing n home slot) {k : κ} {v w : α}
    (hv : Holds n slot k v) (hw : Holds n slot k w) : v = w := by
  obtain ⟨p, hp, hslot⟩ := hv
  obtain ⟨q, hq, hslot'⟩ := hw
  obtain rfl := h.unique p q _ _ hp hq hslot hslot' rfl
  exact (Prod.mk.inj (Option.some.inj (hslot.symm.trans hslot'))).2

/-- A table with fewer entries than positions has an empty position. -/
theorem exists_empty (h : load n slot < n) : ∃ p, p < n ∧ slot p = none := by
  by_contra hfull
  push Not at hfull
  have hall : (Finset.range n).filter (fun p => (slot p).isSome) = Finset.range n := by
    refine Finset.filter_true_of_mem fun p hp => ?_
    exact Option.isSome_iff_ne_none.mpr (hfull p (Finset.mem_range.mp hp))
  rw [load, hall, Finset.card_range] at h
  exact Nat.lt_irrefl n h

/-- Keys that include those of all entries bound the load. -/
theorem Probing.load_le [DecidableEq κ] (h : Probing n home slot) {keys : List κ}
    (hkeys : ∀ k v, Holds n slot k v → k ∈ keys) : load n slot ≤ keys.length := by
  have hentry : ∀ p ∈ (Finset.range n).filter fun p => (slot p).isSome,
      ∃ e, p < n ∧ slot p = some e := by
    intro p hp
    obtain ⟨hlt, hsome⟩ := Finset.mem_filter.mp hp
    obtain ⟨e, he⟩ := Option.isSome_iff_exists.mp hsome
    exact ⟨e, Finset.mem_range.mp hlt, he⟩
  -- different positions hold different keys
  refine le_trans (Finset.card_le_card_of_injOn (t := (keys.map some).toFinset)
    (fun p => (slot p).map Prod.fst) (fun p hp => ?_) ?_) ?_
  · obtain ⟨e, hlt, he⟩ := hentry p hp
    simpa [he] using hkeys e.1 e.2 ⟨p, hlt, he⟩
  · intro p hp q hq heq
    obtain ⟨e, hlt, he⟩ := hentry p hp
    obtain ⟨f, hlt', hf⟩ := hentry q hq
    refine h.unique p q e f hlt hlt' he hf ?_
    simpa [he, hf] using heq
  · exact (List.toFinset_card_le _).trans_eq (List.length_map _)

/-- Filling an empty position adds one entry to the load. -/
theorem load_fill {p : Nat} (hp : p < n) (hslot : slot p = none) (e : κ × α) :
    load n (Function.update slot p (some e)) = load n slot + 1 := by
  have hset : (Finset.range n).filter (fun q => (Function.update slot p (some e) q).isSome) =
      insert p ((Finset.range n).filter fun q => (slot q).isSome) := by
    ext q
    by_cases hq : q = p
    · simp [hq, hp]
    · simp [hq]
  rw [load, hset, Finset.card_insert_of_notMem (by simp [hslot]), load]

/-- Replacing the entry of an occupied position keeps the load. -/
theorem load_replace {p : Nat} {e : κ × α} (hslot : slot p = some e) (f : κ × α) :
    load n (Function.update slot p (some f)) = load n slot := by
  have hset : (Finset.range n).filter (fun q => (Function.update slot p (some f) q).isSome) =
      (Finset.range n).filter fun q => (slot q).isSome := by
    ext q
    by_cases hq : q = p
    · simp [hq, hslot]
    · simp [hq]
  rw [load, hset, load]

/-- Emptying an occupied position removes one entry from the load. -/
theorem load_clear {p : Nat} (hp : p < n) {e : κ × α} (hslot : slot p = some e) :
    load n slot = load n (Function.update slot p none) + 1 := by
  have hfill : load n (Function.update (Function.update slot p none) p (some e)) =
      load n (Function.update slot p none) + 1 := load_fill hp (by simp) e
  rwa [Function.update_idem, ← hslot, Function.update_eq_self] at hfill

/-! ## Scans -/

/-- A scan for key `k` stops at `p`: the position is empty or holds `k`, and every position passed
on the way from the home of `k` holds another key. -/
structure StopsAt (n : Nat) (home : κ → Nat) (slot : Nat → Option (κ × α)) (k : κ) (p : Nat) :
    Prop where
  lt : p < n
  stop : ∀ e, slot p = some e → e.1 = k
  passed : ∀ q, q < n → dist n (home k) q < dist n (home k) p → ∃ e, slot q = some e ∧ e.1 ≠ k

/-- A scan for a key the table maps stops at its entry. -/
theorem StopsAt.of_holds (h : Probing n home slot) {k : κ} {v : α} {p : Nat}
    (hstop : StopsAt n home slot k p) (hhome : home k < n) (hholds : Holds n slot k v) :
    slot p = some (k, v) := by
  obtain ⟨q, hq, hslot⟩ := hholds
  rcases Nat.lt_trichotomy (dist n (home k) q) (dist n (home k) p) with hlt | heq | hgt
  · obtain ⟨e, he, hne⟩ := hstop.passed q hq hlt
    rw [hslot] at he
    cases he
    exact absurd rfl hne
  · rw [← dist_inj hhome hq hstop.lt heq, hslot]
  · obtain ⟨e, he⟩ := Option.isSome_iff_exists.mp (h.path q _ hq hslot p hstop.lt hgt)
    have hkey : e.1 = k := hstop.stop e he
    obtain rfl := h.unique p q e _ hstop.lt hq he hslot hkey
    exact hslot

/-- A scan for a key the table does not map stops at an empty position. -/
theorem StopsAt.of_absent {k : κ} {p : Nat} (hstop : StopsAt n home slot k p)
    (habsent : ∀ v, ¬ Holds n slot k v) : slot p = none := by
  cases hslot : slot p with
  | none => rfl
  | some e =>
      obtain ⟨j, v⟩ := e
      obtain rfl : j = k := hstop.stop _ hslot
      exact absurd ⟨p, hstop.lt, hslot⟩ (habsent v)

/-- Writing an entry where the scan for its key stops keeps the invariant. -/
theorem Probing.write (h : Probing n home slot) {k : κ} {p : Nat} (v : α)
    (hstop : StopsAt n home slot k p) (hhome : home k < n) :
    Probing n home (Function.update slot p (some (k, v))) where
  path := by
    intro q e hq he r hr hlt
    by_cases hrp : r = p
    · simp [hrp]
    rw [Function.update_of_ne hrp]
    by_cases hqp : q = p
    · obtain rfl : (k, v) = e := by simpa [hqp] using he
      obtain ⟨f, hf, _⟩ := hstop.passed r hr (by simpa [hqp] using hlt)
      simp [hf]
    · rw [Function.update_of_ne hqp] at he
      exact h.path q e hq he r hr hlt
  unique := by
    -- An old entry with the written key would have stopped the scan where the new one stands.
    have hold : ∀ q e, q < n → q ≠ p → slot q = some e → e.1 ≠ k := by
      intro q e hq hqp he hkey
      obtain ⟨j, w⟩ := e
      obtain rfl : j = k := hkey
      rcases Nat.lt_or_ge (dist n (home j) q) (dist n (home j) p) with hlt | hge
      · obtain ⟨f, hf, hne⟩ := hstop.passed q hq hlt
        rw [he] at hf
        cases hf
        exact hne rfl
      · rcases Nat.lt_or_eq_of_le hge with hlt | heq
        · obtain ⟨f, hf⟩ := Option.isSome_iff_exists.mp (h.path q _ hq he p hstop.lt hlt)
          exact hqp (h.unique p q f _ hstop.lt hq hf he (hstop.stop f hf)).symm
        · exact hqp (dist_inj hhome hstop.lt hq heq).symm
    intro q r e f hq hr he hf hkey
    by_cases hqp : q = p <;> by_cases hrp : r = p
    · rw [hqp, hrp]
    · obtain rfl : (k, v) = e := by simpa [hqp] using he
      rw [Function.update_of_ne hrp] at hf
      exact absurd hkey.symm (hold r f hr hrp hf)
    · obtain rfl : (k, v) = f := by simpa [hrp] using hf
      rw [Function.update_of_ne hqp] at he
      exact absurd hkey (hold q e hq hqp he)
    · rw [Function.update_of_ne hqp] at he
      rw [Function.update_of_ne hrp] at hf
      exact h.unique q r e f hq hr he hf hkey

/-- After the write the table maps the written key to the written value and every other key as
before. -/
theorem holds_write {k : κ} {p : Nat} (v : α) (hstop : StopsAt n home slot k p) {j : κ} {w : α}
    (hprobing : Probing n home slot) (hhome : home k < n) :
    Holds n (Function.update slot p (some (k, v))) j w ↔
      j = k ∧ w = v ∨ j ≠ k ∧ Holds n slot j w := by
  by_cases hj : j = k
  · subst hj
    have hnew : Holds n (Function.update slot p (some (j, v))) j v :=
      ⟨p, hstop.lt, by simp⟩
    constructor
    · intro hw
      exact .inl ⟨rfl, (hprobing.write v hstop hhome).holds_unique hw hnew⟩
    · intro hor
      rcases hor with ⟨_, rfl⟩ | ⟨hne, _⟩
      · exact hnew
      · exact absurd rfl hne
  · constructor
    · intro h
      obtain ⟨q, hq, hslot⟩ := h
      by_cases hqp : q = p
      · rw [hqp, Function.update_self] at hslot
        cases hslot
        exact absurd rfl hj
      · rw [Function.update_of_ne hqp] at hslot
        exact .inr ⟨hj, q, hq, hslot⟩
    · intro hor
      rcases hor with ⟨heq, _⟩ | ⟨_, q, hq, hslot⟩
      · exact absurd heq hj
      have hqp : q ≠ p := by
        intro hsame
        subst hsame
        exact hj (hstop.stop _ hslot)
      exact ⟨q, hq, by rw [Function.update_of_ne hqp, hslot]⟩

/-! ## Shifting deletion -/

/-- The loop invariant of a deletion that shifts entries back: `slot` is the table with the hole
at `i`, and every position after the hole up to `j` holds an entry whose home is after the
hole, so that no scan for it passes the hole. -/
structure Shifting (n : Nat) (home : κ → Nat) (slot : Nat → Option (κ × α)) (i j : Nat) :
    Prop where
  hole_lt : i < n
  pos_lt : j < n
  hole : slot i = none
  path : ∀ p e, p < n → slot p = some e →
    ∀ q, q < n → q ≠ i → dist n (home e.1) q < dist n (home e.1) p → (slot q).isSome
  unique : ∀ p q e f, p < n → q < n → slot p = some e → slot q = some f → e.1 = f.1 → p = q
  run : ∀ q, q < n → 0 < dist n i q → dist n i q ≤ dist n i j →
    ∃ e, slot q = some e ∧ 0 < dist n i (home e.1) ∧ dist n i (home e.1) ≤ dist n i q

section Shift

variable {i j : Nat}

/-- Removing an entry starts a shift at its position. -/
theorem Shifting.start (h : Probing n home slot) (hi : i < n) :
    Shifting n home (Function.update slot i none) i i where
  hole_lt := hi
  pos_lt := hi
  hole := by simp
  path := by
    intro p e hp he q hq hqi hlt
    have hpi : p ≠ i := by
      intro heq
      subst heq
      simp at he
    rw [Function.update_of_ne hpi] at he
    rw [Function.update_of_ne hqi]
    exact h.path p e hp he q hq hlt
  unique := by
    intro p q e f hp hq he hf hkey
    have hpi : p ≠ i := by
      intro heq
      subst heq
      simp at he
    have hqi : q ≠ i := by
      intro heq
      subst heq
      simp at hf
    rw [Function.update_of_ne hpi] at he
    rw [Function.update_of_ne hqi] at hf
    exact h.unique p q e f hp hq he hf hkey
  run := by
    intro q _ hpos hle
    rw [dist_self] at hle
    omega

/-- While another position is empty, the shift does not run around the ring. -/
theorem Shifting.next_ne_hole (h : Shifting n home slot i j) {p : Nat} (hp : p < n) (hpi : p ≠ i)
    (hslot : slot p = none) : next n j ≠ i := by
  intro heq
  have hle : dist n i p ≤ dist n i j := by
    have := next_spec h.pos_lt
    have := dist_spec h.hole_lt p
    have := dist_spec h.hole_lt j
    have := h.pos_lt
    omega
  obtain ⟨e, he, _⟩ := h.run p hp ((dist_pos h.hole_lt).mpr hpi.symm) hle
  rw [hslot] at he
  cases he

/-- When the next position is empty, no scan passes the hole: the shift is done. -/
theorem Shifting.finish (h : Shifting n home slot i j) (hne : next n j ≠ i)
    (hnext : slot (next n j) = none) (hhome : ∀ k, home k < n) : Probing n home slot where
  path := by
    intro p e hp he q hq hlt
    by_cases hqi : q = i
    · subst hqi
      -- The scan for `e` would pass the hole and then every position up to `e`.
      exfalso
      have hhe := hhome e.1
      have hhq := dist_spec hhe q
      have hhp := dist_spec hhe p
      have hqp := dist_spec hq p
      have hpos : 0 < dist n q p := by omega
      by_cases hrun : dist n q p ≤ dist n q j
      · obtain ⟨f, hf, hfpos, hfle⟩ := h.run p hp hpos hrun
        rw [he] at hf
        cases hf
        have hqh := dist_spec hq (home e.1)
        omega
      · have hstep := dist_next h.hole_lt h.pos_lt hne
        have hnlt := next_lt (n := n) h.pos_lt
        have hnp : next n j ≠ p := by
          intro heq
          rw [heq, he] at hnext
          cases hnext
        have hdne : dist n q (next n j) ≠ dist n q p := fun heq =>
          hnp (dist_inj hq hnlt hp heq)
        have hcloser : dist n q (next n j) < dist n q p := by omega
        have hpass : dist n (home e.1) (next n j) < dist n (home e.1) p := by
          have := dist_spec hhe (next n j)
          have := dist_spec hq (next n j)
          omega
        have hsome := h.path p e hp he (next n j) hnlt hne hpass
        rw [hnext] at hsome
        cases hsome
    · exact h.path p e hp he q hq hqi hlt
  unique := h.unique

/-- When the home of the next entry is after the hole, the entry stays and the run grows. -/
theorem Shifting.keep (h : Shifting n home slot i j) (hne : next n j ≠ i) {e : κ × α}
    (hnext : slot (next n j) = some e)
    (hinside : 0 < dist n i (home e.1) ∧ dist n i (home e.1) ≤ dist n i (next n j)) :
    Shifting n home slot i (next n j) where
  hole_lt := h.hole_lt
  pos_lt := next_lt h.pos_lt
  hole := h.hole
  path := h.path
  unique := h.unique
  run := by
    intro q hq hpos hle
    have hstep := dist_next h.hole_lt h.pos_lt hne
    rcases Nat.lt_or_eq_of_le hle with hlt | heq
    · exact h.run q hq hpos (by omega)
    · obtain rfl := dist_inj h.hole_lt hq (next_lt h.pos_lt) heq
      exact ⟨e, hnext, hinside⟩

/-- When the home of the next entry is not after the hole, the entry moves into the hole and
leaves a new one. -/
theorem Shifting.move (h : Shifting n home slot i j) (hne : next n j ≠ i) {e : κ × α}
    (hnext : slot (next n j) = some e) (hhome : ∀ k, home k < n)
    (houtside : ¬ (0 < dist n i (home e.1) ∧ dist n i (home e.1) ≤ dist n i (next n j))) :
    Shifting n home (Function.update (Function.update slot i (some e)) (next n j) none)
      (next n j) (next n j) := by
  have hnlt := next_lt (n := n) h.pos_lt
  have hhe := hhome e.1
  -- What each position of the new table holds.
  have hat : ∀ p f, Function.update (Function.update slot i (some e)) (next n j) none p = some f →
      p ≠ next n j ∧ (p = i ∧ f = e ∨ p ≠ i ∧ slot p = some f) := by
    intro p f hf
    by_cases hpn : p = next n j
    · simp [hpn] at hf
    rw [Function.update_of_ne hpn] at hf
    by_cases hpi : p = i
    · exact ⟨hpn, .inl ⟨hpi, by simpa [hpi, eq_comm] using hf⟩⟩
    · exact ⟨hpn, .inr ⟨hpi, by simpa [hpi] using hf⟩⟩
  have hsome : ∀ q, q ≠ next n j → (q ≠ i → (slot q).isSome) →
      (Function.update (Function.update slot i (some e)) (next n j) none q).isSome := by
    intro q hqn hq
    rw [Function.update_of_ne hqn]
    by_cases hqi : q = i
    · simp [hqi]
    · simpa [hqi] using hq hqi
  refine ⟨hnlt, hnlt, by simp, ?_, ?_, ?_⟩
  · intro p f hp hf q hq hqn hlt
    obtain ⟨hpn, ⟨rfl, rfl⟩ | ⟨hpi, hslot⟩⟩ := hat p f hf
    · -- The moved entry's scan to the hole is the beginning of its old scan.
      refine hsome q hqn fun hqp => h.path _ f hnlt hnext q hq hqp ?_
      have := dist_spec hhe q
      have := dist_spec hhe p
      have := dist_spec hhe (next n j)
      have := dist_spec hp (home f.1)
      have := dist_spec hp (next n j)
      omega
    · exact hsome q hqn fun hqi => h.path p f hp hslot q hq hqi hlt
  · intro p q f g hp hq hf hg hkey
    obtain ⟨hpn, hpcase⟩ := hat p f hf
    obtain ⟨hqn, hqcase⟩ := hat q g hg
    rcases hpcase with ⟨hpi, rfl⟩ | ⟨hpi, hpslot⟩ <;> rcases hqcase with ⟨hqi, rfl⟩ | ⟨hqi, hqslot⟩
    · rw [hpi, hqi]
    · exact absurd (h.unique _ q f g hnlt hq hnext hqslot hkey).symm hqn
    · exact absurd (h.unique p _ f g hp hnlt hpslot hnext hkey) hpn
    · exact h.unique p q f g hp hq hpslot hqslot hkey
  · intro q _ hpos hle
    rw [dist_self] at hle
    omega

/-- A move changes no mapping. -/
theorem holds_move (hi : i < n) (hhole : slot i = none) {p : Nat} (hp : p < n)
    {e : κ × α} (hslot : slot p = some e) (k : κ) (v : α) :
    Holds n (Function.update (Function.update slot i (some e)) p none) k v ↔
      Holds n slot k v := by
  have hip : i ≠ p := by
    intro heq
    subst heq
    rw [hhole] at hslot
    cases hslot
  constructor
  · intro h
    obtain ⟨q, hq, hqslot⟩ := h
    by_cases hqp : q = p
    · simp [hqp] at hqslot
    rw [Function.update_of_ne hqp] at hqslot
    by_cases hqi : q = i
    · obtain rfl : e = (k, v) := by simpa [hqi] using hqslot
      exact ⟨p, hp, hslot⟩
    · exact ⟨q, hq, by simpa [hqi] using hqslot⟩
  · intro h
    obtain ⟨q, hq, hqslot⟩ := h
    by_cases hqp : q = p
    · obtain rfl : e = (k, v) := by
        rw [hqp, hslot] at hqslot
        exact Option.some.inj hqslot
      exact ⟨i, hi, by simp [hip]⟩
    · have hqi : q ≠ i := by
        intro heq
        subst heq
        rw [hhole] at hqslot
        cases hqslot
      exact ⟨q, hq, by simp [hqp, hqi, hqslot]⟩

/-- A move keeps the load. -/
theorem load_move (hi : i < n) (hhole : slot i = none) {p : Nat} (hp : p < n)
    {e : κ × α} (hslot : slot p = some e) :
    load n (Function.update (Function.update slot i (some e)) p none) = load n slot := by
  have hip : p ≠ i := by
    intro heq
    subst heq
    rw [hhole] at hslot
    cases hslot
  have hfill := load_fill (n := n) hi hhole e
  have hclear : load n (Function.update slot i (some e)) =
      load n (Function.update (Function.update slot i (some e)) p none) + 1 :=
    load_clear hp (by rwa [Function.update_of_ne hip])
  omega

end Shift

/-- Emptying the position of an entry removes its key from the mapping. -/
theorem holds_clear (h : Probing n home slot) {p : Nat} (hp : p < n) {e : κ × α}
    (hslot : slot p = some e) (k : κ) (v : α) :
    Holds n (Function.update slot p none) k v ↔ k ≠ e.1 ∧ Holds n slot k v := by
  constructor
  · intro hgiven
    obtain ⟨q, hq, hqslot⟩ := hgiven
    by_cases hqp : q = p
    · simp [hqp] at hqslot
    rw [Function.update_of_ne hqp] at hqslot
    refine ⟨?_, q, hq, hqslot⟩
    intro heq
    subst heq
    exact hqp (h.unique q p _ _ hq hp hqslot hslot rfl)
  · intro hgiven
    obtain ⟨hne, q, hq, hqslot⟩ := hgiven
    have hqp : q ≠ p := by
      intro heq
      subst heq
      rw [hslot] at hqslot
      cases hqslot
      exact hne rfl
    exact ⟨q, hq, by rw [Function.update_of_ne hqp, hqslot]⟩

end FeedHandler.LinearProbing
