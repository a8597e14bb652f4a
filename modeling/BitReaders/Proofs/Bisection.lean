import BitReaders.DecisionTree.Basic
import Mathlib.Algebra.Group.Int.Defs
import Mathlib.Data.Nat.Size

/-!
# The bisection finds the most significant bit

The tree of a width is walked by bisecting an interval of candidates, and the walk ends at the
candidate that is nearest to the number of binary digits of `x`.

- `HighestBit x k`: `k` is the place of the highest digit 1 of `x`; `highestBit_iff_size` ties it
  to the number of digits.
- `middles`: the exponents of a tree's comparisons, from left to right.
- `nearest lo extra d`: the candidate among `lo`, …, `lo + extra` that is nearest to `d`. It is the
  invariant of the bisection: a comparison with `2^middle` tells on which side of `middle` the
  number of digits lies, and so which half holds the nearest candidate.
- `eval_bisect`: **the bisection of any interval** answers with the nearest candidate, for every
  `x`. Negative numbers have no digits here and go to the lowest candidate.
- `exists_ofWidth_eval`: **the balanced tree** gives the most significant bit, and the greatest
  bit of its width where `x` has more digits.
-/

namespace BitReaders

/-- `k` is the place of the highest binary digit 1 of `x`. -/
structure HighestBit (x k : Nat) : Prop where
  set : x.testBit k = true
  clear_above : ∀ j, k < j → x.testBit j = false

/-- The place of the highest digit is one below the number of digits. -/
theorem highestBit_iff_size {x k : Nat} : HighestBit x k ↔ x.size = k + 1 := by
  constructor
  · rintro ⟨hset, habove⟩
    have hlow : 2 ^ k ≤ x := Nat.ge_two_pow_of_testBit hset
    have hhigh : x < 2 ^ (k + 1) := Nat.lt_pow_two_of_testBit x habove
    exact Nat.le_antisymm (Nat.size_le.mpr hhigh) (Nat.lt_size.mpr hlow)
  · intro h
    have hlow : 2 ^ k ≤ x := Nat.lt_size.mp (by omega)
    have hhigh : x < 2 ^ (k + 1) := Nat.size_le.mp (by omega)
    refine ⟨Nat.testBit_of_two_pow_le_and_two_pow_add_one_gt hlow hhigh, ?_⟩
    intro j hj
    have hpow : 2 ^ (k + 1) ≤ 2 ^ j := Nat.pow_le_pow_right Nat.two_pos hj
    exact Nat.testBit_lt_two_pow (Nat.lt_of_lt_of_le hhigh hpow)

namespace DecisionTree

/-! ## The bisection, one step at a time -/

theorem bisect_zero (lo level : Nat) :
    bisect lo 0 level = .leaf ((lo : Int) - 1) level := by
  rw [bisect, if_pos rfl]

theorem bisect_pos {extra : Nat} (h : 0 < extra) (lo level : Nat) :
    bisect lo extra level =
      .branch (lo + extra / 2 : Nat) (bisect lo (extra / 2) (level + 1))
        (bisect (lo + extra / 2 + 1) (extra - extra / 2 - 1) (level + 1)) level := by
  rw [bisect, if_neg (by omega)]

theorem ofWidth_natCast (n : Nat) : ofWidth n = .ok (bisect 0 n 0) := by
  rw [ofWidth, if_neg (by omega), Int.toNat_natCast]

/-- A branch on a power of two that exists goes to one of its sides. -/
theorem eval_branch (m : Nat) (low high : DecisionTree) (level x maxBits : Int) :
    (branch m low high level).eval x maxBits =
      if x < 2 ^ m then low.eval x maxBits else high.eval x maxBits := by
  rw [eval, if_neg (by omega), Int.toNat_natCast]
  rfl

/-! ## The exponents of a tree -/

/-- The exponents that a tree compares with, from left to right. -/
def middles : DecisionTree → List Int
  | .leaf _ _ => []
  | .branch middle low high _ => low.middles ++ middle :: high.middles

/-! ## The invariant -/

/-- The number among `lo`, …, `lo + extra` that is nearest to `d`. -/
def nearest (lo extra d : Nat) : Nat := max lo (min d (lo + extra))

/-- An integer lies below a power of two iff it has no more digits than the exponent; a negative
number counts as 0. -/
theorem lt_two_pow_iff_size_le (x : Int) (m : Nat) : x < 2 ^ m ↔ x.toNat.size ≤ m := by
  have hpow : ((2 ^ m : Nat) : Int) = 2 ^ m := by simp
  have hpos : 0 < 2 ^ m := Nat.two_pow_pos m
  rw [Nat.size_le, ← hpow]
  omega

/-- Digits that fit the lower half: the upper half may be dropped. -/
theorem nearest_low {extra d : Nat} (lo : Nat) (h : d ≤ lo + extra / 2) :
    nearest lo (extra / 2) d = nearest lo extra d := by
  unfold nearest
  omega

/-- Digits that do not fit the lower half: it may be dropped. -/
theorem nearest_high {lo extra d : Nat} (hpos : 0 < extra) (h : lo + extra / 2 < d) :
    nearest (lo + extra / 2 + 1) (extra - extra / 2 - 1) d = nearest lo extra d := by
  unfold nearest
  omega

/-- **The bisection of any interval of candidates** answers with the one that is nearest to the
number of digits. By induction on the bisection; each half inherits the nearest candidate. -/
theorem eval_bisect (lo extra level : Nat) (x maxBits : Int) :
    (bisect lo extra level).eval x maxBits =
      .ok (answer (nearest lo extra x.toNat.size - 1) x maxBits) := by
  induction lo, extra, level using bisect.induct with
  | case1 lo level =>
    have hlo : nearest lo 0 x.toNat.size = lo := by
      unfold nearest
      omega
    rw [bisect_zero, eval, hlo]
  | case2 lo extra level hne half ihlow ihhigh =>
    have hpos : 0 < extra := Nat.pos_of_ne_zero hne
    rw [bisect_pos hpos, eval_branch]
    by_cases hx : x < 2 ^ (lo + extra / 2)
    -- the comparison tells in which half the nearest candidate is
    · have hfit := (lt_two_pow_iff_size_le x _).mp hx
      rw [if_pos hx, ihlow, nearest_low lo hfit]
    · have hexceed := mt (lt_two_pow_iff_size_le x _).mpr hx
      rw [if_neg hx, ihhigh, nearest_high hpos (Nat.lt_of_not_le hexceed)]

/-! ## The balanced tree of a width -/

/-- The answer for a negative number is the greatest width, as it has no digits. -/
theorem eval_bisect_neg (n : Nat) {x : Int} (hx : x < 0) :
    (bisect 0 n 0).eval x n = .ok (n : Int) := by
  have hsize : x.toNat.size = 0 := by
    rw [Int.toNat_of_nonpos (Int.le_of_lt hx), Nat.size_zero]
  rw [eval_bisect, hsize]
  simp [nearest, answer, hx]

/-- The answer for the other numbers is one below the number of digits, or below the width. -/
theorem eval_bisect_nonneg (n : Nat) {x : Int} (hx : 0 ≤ x) :
    (bisect 0 n 0).eval x n = .ok ((min x.toNat.size n : Nat) - 1 : Int) := by
  have hnear : nearest 0 n x.toNat.size = min x.toNat.size n := by
    unfold nearest
    omega
  have hneg : ¬ x < 0 := by omega
  rw [eval_bisect, hnear, answer, if_neg hneg]
  congr 1
  split <;> omega

example : (bisect 0 4 0).eval 5 4 = .ok 2 := by cbv

/-- **The balanced tree finds the most significant bit.** For every width `n` and every integer
`x`: the answer is `n` for a negative `x`, and else one below the smaller of the width and the
number of digits. So it is -1 for zero, the highest bit for the positive numbers of at most `n`
digits, and `n - 1` for all greater ones. -/
theorem exists_ofWidth_eval (n : Nat) :
    ∃ t, ofWidth n = .ok t ∧ ∀ x : Int,
      t.eval x n = .ok (if x < 0 then (n : Int) else (min x.toNat.size n : Nat) - 1) ∧
      (x = 0 → t.eval x n = .ok (-1)) ∧
      (0 < x → x < 2 ^ n → ∃ k : Nat, t.eval x n = .ok (k : Int) ∧ HighestBit x.toNat k) ∧
      (2 ^ n ≤ x → t.eval x n = .ok ((n : Int) - 1)) := by
  refine ⟨bisect 0 n 0, ofWidth_natCast n, ?_⟩
  intro x
  refine ⟨?_, ?_, ?_, ?_⟩
  · by_cases hx : x < 0
    · rw [if_pos hx]
      exact eval_bisect_neg n hx
    · rw [if_neg hx]
      exact eval_bisect_nonneg n (Int.le_of_not_gt hx)
  · rintro rfl
    rw [eval_bisect_nonneg n (Int.le_refl 0)]
    simp
  · intro hpos hlt
    have hfit : x.toNat.size ≤ n := (lt_two_pow_iff_size_le x n).mp hlt
    have hdigit : 0 < x.toNat.size := Nat.size_pos.mpr (by omega)
    refine ⟨x.toNat.size - 1, ?_, highestBit_iff_size.mpr (by omega)⟩
    rw [eval_bisect_nonneg n (Int.le_of_lt hpos), Nat.min_eq_left hfit]
    congr 1
    omega
  · intro hge
    have hpow : (0 : Int) ≤ 2 ^ n := Int.pow_nonneg (by omega)
    have hexceed : ¬ x.toNat.size ≤ n := by
      intro h
      have hlt := (lt_two_pow_iff_size_le x n).mpr h
      omega
    rw [eval_bisect_nonneg n (Int.le_trans hpow hge), Nat.min_eq_right (by omega)]

end DecisionTree

end BitReaders
