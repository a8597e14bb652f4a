import BitReaders.Proofs.InOrder
import Mathlib.Algebra.Group.Nat.Defs

/-!
# The bisection in machine words

In a word of `w` bits the powers of two do not all exist: `1 << (w - 1)` is negative and all later
ones are zero. A tree that is walked in words may therefore go astray.

- `evalBy power`: the walk with given powers of two. It is `eval` for the true ones
  (`evalBy_two_pow`), and depends only on the powers at the tree's middles (`evalBy_congr`).
- `wordPower w m`, `evalWord w`: the value of `1 << m` in a word of `w` bits, which is the value of
  Lean's own shift of bit vectors (`wordPower_eq_toInt`), and the walk with these powers.
- `evalWord_eq_eval_iff`: **the balanced tree for `n` bits is right in words of `w` bits iff
  `n < w`.** If `n < w` no comparison needs a power that the word lacks. Otherwise the greatest
  word is below no power of two that the word has, so it goes to the right at every branch.
-/

namespace BitReaders

namespace DecisionTree

/-! ## Walking with given powers of two -/

/-- The walk of a tree in which `power m` stands for `2^m`. -/
def evalBy (power : Nat → Int) (x maxBits : Int) : DecisionTree → Except Error Int
  | .leaf position _ => .ok (answer position x maxBits)
  | .branch middle low high _ =>
    if middle < 0 then .error .negativeShift
    else if x < power middle.toNat then low.evalBy power x maxBits
    else high.evalBy power x maxBits

/-- With the true powers of two it is the walk of the tree. -/
theorem evalBy_two_pow (t : DecisionTree) (x maxBits : Int) :
    t.evalBy (fun m => 2 ^ m) x maxBits = t.eval x maxBits := by
  induction t with
  | leaf position level => rfl
  | branch middle low high level ihlow ihhigh =>
    rw [evalBy, eval, ihlow, ihhigh]
    rfl

/-- The walk depends only on the powers at the tree's exponents. -/
theorem evalBy_congr {p q : Nat → Int} (t : DecisionTree) (x maxBits : Int)
    (h : ∀ m : Nat, (m : Int) ∈ t.middles → p m = q m) :
    t.evalBy p x maxBits = t.evalBy q x maxBits := by
  induction t with
  | leaf position level => rfl
  | branch middle low high level ihlow ihhigh =>
    have hlow := ihlow fun m hm => h m (List.mem_append_left _ hm)
    have hhigh := ihhigh fun m hm =>
      h m (List.mem_append_right _ (List.mem_cons_of_mem _ hm))
    rw [evalBy, evalBy, hlow, hhigh]
    by_cases hneg : middle < 0
    · rw [if_pos hneg, if_pos hneg]
    · have hmid : ((middle.toNat : Nat) : Int) = middle := Int.toNat_of_nonneg (by omega)
      have hpower : p middle.toNat = q middle.toNat := by
        refine h middle.toNat (List.mem_append_right _ ?_)
        rw [hmid]
        exact List.mem_cons_self
      rw [hpower]

/-- A number that is below no power goes to the right at every branch of a bisection, and so to
the last candidate. -/
theorem evalBy_bisect_of_ge {power : Nat → Int} {x : Int} (h : ∀ m, power m ≤ x)
    (lo extra level : Nat) (maxBits : Int) :
    (bisect lo extra level).evalBy power x maxBits =
      .ok (answer ((lo + extra : Nat) - 1) x maxBits) := by
  induction lo, extra, level using bisect.induct with
  | case1 lo level => rw [bisect_zero, evalBy, Nat.add_zero]
  | case2 lo extra level hne half ihlow ihhigh =>
    have hlast : lo + extra / 2 + 1 + (extra - extra / 2 - 1) = lo + extra := by omega
    rw [bisect_pos (Nat.pos_of_ne_zero hne), evalBy, if_neg (by omega),
      if_neg (Int.not_lt.mpr (h _)), ihhigh, hlast]

/-! ## Powers of two in a word -/

/-- The value of `1 << m` in a word of `w` bits: `2^m`, reduced modulo `2^w` into the range from
`-2^(w-1)` to `2^(w-1) - 1`. -/
def wordPower (w m : Nat) : Int := ((2 : Int) ^ m).bmod (2 ^ w)

/-- It is the value of a shifted bit vector. -/
theorem wordPower_eq_toInt (w m : Nat) : wordPower w m = (1#w <<< m).toInt := by
  cases w with
  | zero => rw [wordPower, Nat.pow_zero, Int.bmod_one, BitVec.toInt_zero_length]
  | succ w =>
    have hone : 1 % 2 ^ (w + 1) = 1 := Nat.mod_eq_of_lt (Nat.one_lt_two_pow (by omega))
    rw [BitVec.toInt_shiftLeft, BitVec.toNat_ofNat, hone, Nat.one_shiftLeft, wordPower]
    congr 1

/-- A word has the powers of two below its sign bit. -/
theorem wordPower_of_lt {w m : Nat} (h : m + 1 < w) : wordPower w m = 2 ^ m := by
  obtain ⟨d, rfl⟩ : ∃ d, w = m + 2 + d := ⟨w - (m + 2), by omega⟩
  have hd : 0 < 2 ^ d := Nat.two_pow_pos d
  have hm : 0 < 2 ^ m := Nat.two_pow_pos m
  have hle : 2 ^ m * 4 ≤ 2 ^ (m + 2 + d) := by
    rw [Nat.pow_add, Nat.pow_add]
    exact Nat.le_mul_of_pos_right _ hd
  have hcast : ((2 ^ m : Nat) : Int) = 2 ^ m := by simp
  rw [wordPower, ← hcast]
  exact Int.bmod_eq_of_le_mul_two (by omega) (by omega)

/-- No power of two in a word is above the greatest word. -/
theorem wordPower_le_greatest {w : Nat} (hw : 1 ≤ w) (m : Nat) :
    wordPower w m ≤ 2 ^ (w - 1) - 1 := by
  obtain ⟨v, rfl⟩ : ∃ v, w = v + 1 := ⟨w - 1, by omega⟩
  have hlt := Int.bmod_lt (x := 2 ^ m) (Nat.two_pow_pos (v + 1))
  have htwice : ((2 ^ (v + 1) : Nat) : Int) = 2 ^ v * 2 := by simp [Int.pow_succ]
  rw [htwice] at hlt
  rw [wordPower, Nat.add_sub_cancel]
  omega

/-! ## Walking in words -/

/-- The walk of a tree in words of `w` bits. -/
def evalWord (w : Nat) (x maxBits : Int) (t : DecisionTree) : Except Error Int :=
  t.evalBy (wordPower w) x maxBits

/-- If the words are wider than the tree's width, all its powers of two exist. -/
theorem evalWord_eq_eval {n w : Nat} (h : n < w) (x maxBits : Int) :
    (bisect 0 n 0).evalWord w x maxBits = (bisect 0 n 0).eval x maxBits := by
  rw [evalWord, ← evalBy_two_pow]
  refine evalBy_congr _ x maxBits ?_
  intro m hm
  apply wordPower_of_lt
  -- the greatest exponent of the tree is `n - 1`
  have hbound := bounds_of_mem_middles_bisect hm
  omega

/-- If they are not, the greatest word of `w` bits gets the answer of the last candidate. -/
theorem evalWord_greatest (n : Nat) {w : Nat} (hw : 1 ≤ w) (maxBits : Int) :
    (bisect 0 n 0).evalWord w (2 ^ (w - 1) - 1) maxBits =
      .ok (answer (n - 1) (2 ^ (w - 1) - 1) maxBits) := by
  rw [evalWord, evalBy_bisect_of_ge (wordPower_le_greatest hw), Nat.zero_add]

/-- In words of 4 bits the tree for 4 bits takes 7 for a number of 4 digits. -/
example : (bisect 0 4 0).evalWord 4 7 4 = .ok 3 := by cbv

/-- **The balanced tree for `n` bits is right in words of `w` bits iff `n < w`**: it suffices for
words of one more bit, and never for words of `n` bits. -/
theorem evalWord_eq_eval_iff (n w : Nat) (hw : 1 ≤ w) :
    ∃ t, ofWidth n = .ok t ∧
      ((∀ x : Int, -2 ^ (w - 1) ≤ x → x ≤ 2 ^ (w - 1) - 1 → t.evalWord w x n = t.eval x n) ↔
        n < w) := by
  refine ⟨bisect 0 n 0, ofWidth_natCast n, ?_⟩
  constructor
  · intro h
    apply Nat.lt_of_not_le
    intro hnw
    have hpow : (0 : Int) < 2 ^ (w - 1) := Int.pow_pos (by omega)
    -- the greatest word has `w - 1` digits, which are fewer than `n`
    have hdigits : (2 ^ (w - 1) - 1 : Int).toNat.size ≤ w - 1 :=
      (lt_two_pow_iff_size_le _ _).mp (by omega)
    have hagree := h (2 ^ (w - 1) - 1) (by omega) (Int.le_refl _)
    -- the walk in words takes it for a number of `n` digits
    rw [evalWord_greatest n hw, eval_bisect_nonneg n (by omega), answer,
      if_neg (by omega)] at hagree
    have hvalue := Except.ok.inj hagree
    omega
  · intro h x _ _
    exact evalWord_eq_eval h x n

/-- The tree for 4 bits in words of 4 bits. -/
theorem evalWord_eq_eval_iff_four :
    1 ≤ 4 ∧ ∃ t, ofWidth (4 : Nat) = .ok t ∧
      ((∀ x : Int, -2 ^ (4 - 1) ≤ x → x ≤ 2 ^ (4 - 1) - 1 →
        t.evalWord 4 x (4 : Nat) = t.eval x (4 : Nat)) ↔ 4 < 4) :=
  ⟨by decide, evalWord_eq_eval_iff 4 4 (by decide)⟩

end DecisionTree

end BitReaders
