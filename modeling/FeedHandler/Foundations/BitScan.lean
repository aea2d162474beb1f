import Mathlib.Order.Bounds.Basic
import Mathlib.Data.BitVec

/-!
# Bit maps and their extreme bits

A bit map is a sequence of machine words. `Highest` and `Lowest` say that an integer is the
extreme element of a set of numbers, or `-1` if the set is empty; `highest_clz` and `lowest_ctz`
find the extreme bits of one word.
-/

namespace FeedHandler.BitScan

/-- The greatest number with a property, or `-1`. -/
def Highest (p : Nat → Prop) (r : Int) : Prop :=
  (r = -1 ∧ ∀ i, ¬ p i) ∨ ∃ n : Nat, r = n ∧ IsGreatest {i | p i} n

/-- The least number with a property, or `-1`. -/
def Lowest (p : Nat → Prop) (r : Int) : Prop :=
  (r = -1 ∧ ∀ i, ¬ p i) ∨ ∃ n : Nat, r = n ∧ IsLeast {i | p i} n

section Extremes

variable {p p' : Nat → Prop} {r r' : Int} {n : Nat}

theorem Highest.congr (h : Highest p r) (hp : ∀ i, p i ↔ p' i) : Highest p' r := by
  rwa [← funext fun i => propext (hp i)]

theorem Lowest.congr (h : Lowest p r) (hp : ∀ i, p i ↔ p' i) : Lowest p' r := by
  rwa [← funext fun i => propext (hp i)]

theorem Highest.unique (h : Highest p r) (h' : Highest p r') : r = r' := by
  rcases h with ⟨rfl, hnone⟩ | ⟨n, rfl, hn⟩ <;> rcases h' with ⟨rfl, hnone'⟩ | ⟨m, rfl, hm⟩
  · rfl
  · exact absurd hm.1 (hnone m)
  · exact absurd hn.1 (hnone' n)
  · rw [hn.unique hm]

theorem Lowest.unique (h : Lowest p r) (h' : Lowest p r') : r = r' := by
  rcases h with ⟨rfl, hnone⟩ | ⟨n, rfl, hn⟩ <;> rcases h' with ⟨rfl, hnone'⟩ | ⟨m, rfl, hm⟩
  · rfl
  · exact absurd hm.1 (hnone m)
  · exact absurd hn.1 (hnone' n)
  · rw [hn.unique hm]

/-- The greatest number after one has been added. -/
theorem Highest.insert (h : Highest p r) (n : Nat) :
    Highest (fun i => p i ∨ i = n) (if (n : Int) > r then n else r) := by
  rcases h with ⟨rfl, hnone⟩ | ⟨m, rfl, hm, hmax⟩
  · rw [if_pos (by omega)]
    refine .inr ⟨n, rfl, .inr rfl, ?_⟩
    intro i hor
    rcases hor with hi | rfl
    · exact absurd hi (hnone i)
    · rfl
  · split
    next hgt =>
      refine .inr ⟨n, rfl, .inr rfl, ?_⟩
      intro i hor
      rcases hor with hi | rfl
      · have := hmax hi
        omega
      · rfl
    next hle =>
      refine .inr ⟨m, rfl, .inl hm, ?_⟩
      intro i hor
      rcases hor with hi | rfl
      · exact hmax hi
      · omega

/-- The least number after one has been added. -/
theorem Lowest.insert (h : Lowest p r) (n : Nat) :
    Lowest (fun i => p i ∨ i = n) (if r < 0 ∨ (n : Int) < r then n else r) := by
  rcases h with ⟨rfl, hnone⟩ | ⟨m, rfl, hm, hmin⟩
  · rw [if_pos (by omega)]
    refine .inr ⟨n, rfl, .inr rfl, ?_⟩
    intro i hor
    rcases hor with hi | rfl
    · exact absurd hi (hnone i)
    · rfl
  · split
    next hlt =>
      refine .inr ⟨n, rfl, .inr rfl, ?_⟩
      intro i hor
      rcases hor with hi | rfl
      · have := hmin hi
        omega
      · rfl
    next hge =>
      refine .inr ⟨m, rfl, .inl hm, ?_⟩
      intro i hor
      rcases hor with hi | rfl
      · exact hmin hi
      · omega

/-- The greatest number stays when another one is removed. -/
theorem Highest.remove_ne (h : Highest p r) (hne : (n : Int) ≠ r) :
    Highest (fun i => p i ∧ i ≠ n) r := by
  rcases h with ⟨rfl, hnone⟩ | ⟨m, rfl, hm, hmax⟩
  · exact .inl ⟨rfl, fun i hi => hnone i hi.1⟩
  · exact .inr ⟨m, rfl, ⟨hm, by omega⟩, fun i hi => hmax hi.1⟩

/-- The least number stays when another one is removed. -/
theorem Lowest.remove_ne (h : Lowest p r) (hne : (n : Int) ≠ r) :
    Lowest (fun i => p i ∧ i ≠ n) r := by
  rcases h with ⟨rfl, hnone⟩ | ⟨m, rfl, hm, hmin⟩
  · exact .inl ⟨rfl, fun i hi => hnone i hi.1⟩
  · exact .inr ⟨m, rfl, ⟨hm, by omega⟩, fun i hi => hmin hi.1⟩

/-- Everything with the property is at most the greatest number. -/
theorem Highest.le (h : Highest p r) {i : Nat} (hi : p i) : (i : Int) ≤ r := by
  rcases h with ⟨_, hnone⟩ | ⟨m, rfl, _, hmax⟩
  · exact absurd hi (hnone i)
  · have := hmax hi
    omega

/-- Everything with the property is at least the least number. -/
theorem Lowest.le (h : Lowest p r) {i : Nat} (hi : p i) : r ≤ (i : Int) := by
  rcases h with ⟨_, hnone⟩ | ⟨m, rfl, _, hmin⟩
  · exact absurd hi (hnone i)
  · have := hmin hi
    omega

end Extremes

section Words

variable {w : Nat}

/-- A bit of a sequence of words. -/
def bit (words : Nat → BitVec w) (i : Nat) : Bool := (words (i / w)).getLsbD (i % w)

/-- The highest bit of a word that is not zero. -/
theorem highest_clz {x : BitVec w} (hw : 0 < w) (hx : x ≠ 0#w) :
    IsGreatest {i | x.getLsbD i = true} (w - 1 - x.clz.toNat) := by
  refine ⟨BitVec.getLsbD_true_clz_of_ne_zero hw hx, fun i hi => ?_⟩
  by_contra hlt
  have hpow : 2 ^ (w - x.clz.toNat) ≤ 2 ^ i := Nat.pow_le_pow_right (by decide) (by omega)
  have hsmall := Nat.lt_of_lt_of_le (BitVec.toNat_lt_two_pow_sub_clz (x := x)) hpow
  have hbit : x.toNat.testBit i = true := hi
  rw [Nat.testBit_lt_two_pow hsmall] at hbit
  cases hbit

/-- The lowest bit of a word that is not zero. -/
theorem lowest_ctz {x : BitVec w} (hx : x ≠ 0#w) :
    IsLeast {i | x.getLsbD i = true} x.ctz.toNat := by
  refine ⟨BitVec.getLsbD_true_ctz_of_ne_zero hx, fun i hi => ?_⟩
  by_contra hlt
  have hi : x.getLsbD i = true := hi
  rw [BitVec.getLsbD_false_of_lt_ctz (by omega)] at hi
  cases hi

/-- The highest bit of the word at position `k`, and of anything below. -/
theorem highest_at {x : BitVec w} (hw : 0 < w) (hx : x ≠ 0#w) (k : Nat) (p : Nat → Prop) :
    Highest (fun i => (i / w = k ∧ x.getLsbD (i % w) = true) ∨ (i / w < k ∧ p i))
      ((k * w : Nat) + (w - 1 - x.clz.toNat : Nat)) := by
  obtain ⟨hbit, hmax⟩ := highest_clz hw hx
  refine .inr ⟨k * w + (w - 1 - x.clz.toNat), by simp, .inl ⟨?_, ?_⟩, ?_⟩
  · rw [Nat.mul_comm, Nat.mul_add_div hw, Nat.div_eq_of_lt (by omega), Nat.add_zero]
  · rw [Nat.mul_comm, Nat.mul_add_mod, Nat.mod_eq_of_lt (by omega)]
    exact hbit
  · intro i hor
    rcases hor with ⟨rfl, hi⟩ | ⟨hlt, _⟩
    · have hle := hmax hi
      have := Nat.div_add_mod' i w
      omega
    · have := Nat.div_add_mod' i w
      have := Nat.mod_lt i hw
      have hmul : (i / w + 1) * w ≤ k * w := Nat.mul_le_mul_right w hlt
      rw [Nat.add_mul, Nat.one_mul] at hmul
      omega

/-- The lowest bit of the word at position `k`, and of anything above. -/
theorem lowest_at {x : BitVec w} (hw : 0 < w) (hx : x ≠ 0#w) (k : Nat) (p : Nat → Prop) :
    Lowest (fun i => (i / w = k ∧ x.getLsbD (i % w) = true) ∨ (k < i / w ∧ p i))
      ((k * w : Nat) + x.ctz.toNat) := by
  obtain ⟨hbit, hmin⟩ := lowest_ctz hx
  have hlt : x.ctz.toNat < w := by
    by_contra hge
    have hbit : x.getLsbD x.ctz.toNat = true := hbit
    rw [BitVec.getLsbD_of_ge x _ (by omega)] at hbit
    cases hbit
  refine .inr ⟨k * w + x.ctz.toNat, by simp, .inl ⟨?_, ?_⟩, ?_⟩
  · rw [Nat.mul_comm, Nat.mul_add_div hw, Nat.div_eq_of_lt hlt, Nat.add_zero]
  · rw [Nat.mul_comm, Nat.mul_add_mod, Nat.mod_eq_of_lt hlt]
    exact hbit
  · intro i hor
    rcases hor with ⟨rfl, hi⟩ | ⟨hlt', _⟩
    · have hle := hmin hi
      have := Nat.div_add_mod' i w
      omega
    · have := Nat.div_add_mod' i w
      have hmul : (k + 1) * w ≤ i / w * w := Nat.mul_le_mul_right w hlt'
      rw [Nat.add_mul, Nat.one_mul] at hmul
      omega

/-- A word is zero if it has no bit. -/
theorem eq_zero_iff {x : BitVec w} : x = 0#w ↔ ∀ i, x.getLsbD i = false := by
  constructor
  · intro heq i
    subst heq
    simp
  · intro h
    apply BitVec.eq_of_getLsbD_eq
    intro i _
    rw [h i, BitVec.getLsbD_zero]

/-- Masking off the bits above `b`. -/
theorem get_lsb_below (x : BitVec 64) {b : Nat} (hb : b < 64) (i : Nat) :
    (x &&& if b = 63 then ~~~0#64 else (1#64 <<< (b + 1)) - 1#64).getLsbD i =
      (x.getLsbD i && decide (i ≤ b)) := by
  have hmask : ∀ b < 64, (if b = 63 then ~~~0#64 else (1#64 <<< (b + 1)) - 1#64) =
      BitVec.ofNat 64 (2 ^ (b + 1) - 1) := by decide
  rw [hmask b hb, BitVec.getLsbD_and, BitVec.getLsbD_ofNat, Nat.testBit_two_pow_sub_one]
  by_cases hi : i < 64
  · have hle : (i < b + 1) = (i ≤ b) := propext Nat.lt_succ_iff
    simp only [hi, hle, decide_true, Bool.true_and]
  · simp [BitVec.getLsbD_of_ge x i (by omega)]

/-- Masking off the bits below `b`. -/
theorem get_lsb_above (x : BitVec 64) (b i : Nat) :
    (x &&& (~~~0#64 <<< b)).getLsbD i = (x.getLsbD i && decide (b ≤ i)) := by
  rw [BitVec.getLsbD_and, BitVec.getLsbD_shiftLeft, BitVec.getLsbD_not, BitVec.getLsbD_zero]
  by_cases hi : i < 64
  · have hlt : i - b < 64 := by omega
    by_cases hb : b ≤ i
    · simp only [hi, hb, hlt, Nat.not_lt.mpr hb, decide_true, decide_false, Bool.not_false,
        Bool.and_true]
    · simp only [hb, Nat.lt_of_not_le hb, decide_true, decide_false, Bool.not_true,
        Bool.and_false, Bool.false_and]
  · simp only [BitVec.getLsbD_of_ge x i (by omega), Bool.false_and]

end Words

end FeedHandler.BitScan
