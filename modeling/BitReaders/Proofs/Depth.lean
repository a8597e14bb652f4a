import BitReaders.Proofs.InOrder
import BitReaders.Proofs.LinearScan
import Mathlib.Algebra.Group.Nat.Defs
import Mathlib.Data.Nat.Log

/-!
# The balanced tree is as shallow as a tree can be

A tree of depth `d` has at most `2^d` leaves, and the bisection needs no more depth than that. Its
two halves have as many leaves as each other, up to one, so the ways to its leaves have almost the
same length.

- `length_leaves_le`: **the bound for every tree**, whatever its shape.
- `clog_halve`, `log_halve`: the logarithm of a number, rounded up or down, is one more than that of
  its half, rounded in the same direction. These are the recurrences of the deepest and of the
  shallowest leaf.
- `depth_bisect`, `level_bounds_of_mem_leaves_bisect`: the depth of the bisection of any interval,
  and the levels between which its leaves are.
- `exists_ofWidth_least_depth`: **the balanced tree** has the least depth, with all leaves in its
  last two levels.
-/

namespace BitReaders

namespace DecisionTree

/-! ## Leaves of any tree -/

/-- A tree has at most as many leaves as its depth allows. -/
theorem length_leaves_le (t : DecisionTree) : t.leaves.length ≤ 2 ^ t.depth := by
  induction t with
  | leaf position level => exact Nat.le_refl 1
  | branch middle low high level ihlow ihhigh =>
    have hlow : 2 ^ low.depth ≤ 2 ^ max low.depth high.depth :=
      Nat.pow_le_pow_right Nat.two_pos (Nat.le_max_left _ _)
    have hhigh : 2 ^ high.depth ≤ 2 ^ max low.depth high.depth :=
      Nat.pow_le_pow_right Nat.two_pos (Nat.le_max_right _ _)
    rw [leaves, depth, List.length_append, Nat.add_comm 1, Nat.pow_succ]
    omega

/-! ## Logarithms of halves -/

/-- The logarithm that is rounded up, and the greater half. -/
theorem clog_halve {extra : Nat} (h : 0 < extra) :
    Nat.clog 2 (extra + 1) = Nat.clog 2 (extra / 2 + 1) + 1 := by
  have hhalf : (extra + 1 + 2 - 1) / 2 = extra / 2 + 1 := by omega
  rw [Nat.clog_of_two_le Nat.one_lt_two (by omega), hhalf]

/-- The logarithm that is rounded down, and the smaller half. -/
theorem log_halve {extra : Nat} (h : 0 < extra) :
    Nat.log 2 (extra + 1) = Nat.log 2 (extra - extra / 2 - 1 + 1) + 1 := by
  have hhalf : (extra + 1) / 2 = extra - extra / 2 - 1 + 1 := by omega
  rw [Nat.log_of_one_lt_of_le Nat.one_lt_two (by omega), hhalf]

/-- The two logarithms differ by one at most. -/
theorem clog_le_log_add_one (n : Nat) : Nat.clog 2 n ≤ Nat.log 2 n + 1 :=
  Nat.clog_le_of_le_pow (Nat.le_of_lt (Nat.lt_pow_succ_log_self Nat.one_lt_two n))

/-! ## The bisection -/

/-- The depth of a bisection. By induction on the bisection: its lower half is the greater one. -/
theorem depth_bisect (lo extra level : Nat) :
    (bisect lo extra level).depth = Nat.clog 2 (extra + 1) := by
  induction lo, extra, level using bisect.induct with
  | case1 lo level =>
    rw [bisect_zero, Nat.clog_one_right]
    rfl
  | case2 lo extra level hne half ihlow ihhigh =>
    have hpos : 0 < extra := Nat.pos_of_ne_zero hne
    have hhalves : Nat.clog 2 (extra - extra / 2 - 1 + 1) ≤ Nat.clog 2 (extra / 2 + 1) :=
      Nat.clog_mono_right 2 (by omega)
    rw [bisect_pos hpos, depth, ihlow, ihhigh, Nat.max_eq_left hhalves, clog_halve hpos,
      Nat.add_comm]

/-- The levels of the leaves of a bisection. By induction on the bisection: the smaller half bounds
them from below, and the greater half from above. -/
theorem level_bounds_of_mem_leaves_bisect (lo extra level : Nat) :
    ∀ leaf ∈ (bisect lo extra level).leaves,
      ((level + Nat.log 2 (extra + 1) : Nat) : Int) ≤ leaf.2 ∧
        leaf.2 ≤ (level + Nat.clog 2 (extra + 1) : Nat) := by
  induction lo, extra, level using bisect.induct with
  | case1 lo level =>
    intro leaf hleaf
    rw [bisect_zero, leaves, List.mem_singleton] at hleaf
    subst hleaf
    rw [Nat.log_one_right, Nat.clog_one_right]
    exact ⟨Int.le_refl _, Int.le_refl _⟩
  | case2 lo extra level hne half ihlow ihhigh =>
    have hpos : 0 < extra := Nat.pos_of_ne_zero hne
    have hlog : Nat.log 2 (extra - extra / 2 - 1 + 1) ≤ Nat.log 2 (extra / 2 + 1) :=
      Nat.log_mono_right (by omega)
    have hclog : Nat.clog 2 (extra - extra / 2 - 1 + 1) ≤ Nat.clog 2 (extra / 2 + 1) :=
      Nat.clog_mono_right 2 (by omega)
    intro leaf hleaf
    rw [bisect_pos hpos, leaves] at hleaf
    rw [log_halve hpos, clog_halve hpos]
    rcases List.mem_append.mp hleaf with hleaf | hleaf
    · have hbounds := ihlow leaf hleaf
      dsimp only [half] at hbounds
      omega
    · have hbounds := ihhigh leaf hleaf
      dsimp only [half] at hbounds
      omega

/-- Of the six leaves for 5 bits, two are at level 2 and four at level 3. -/
example : (bisect 0 5 0).leaves.map (·.2) = [3, 3, 2, 3, 3, 2] := by cbv

/-! ## The balanced tree of a width -/

/-- **The balanced tree is as shallow as can be.** For every width `n` it has `n + 1` leaves, and
its depth is the least `d` with `n + 1 ≤ 2^d`. Every leaf is at the level of the logarithm of
`n + 1`, rounded down or up. No tree has more leaves than two to the power of its depth, so none
with `n + 1` leaves is less deep. -/
theorem exists_ofWidth_least_depth (n : Nat) :
    ∃ t, ofWidth n = .ok t ∧ t.leaves.length = n + 1 ∧
      (n + 1 ≤ 2 ^ t.depth ∧ ∀ d, n + 1 ≤ 2 ^ d → t.depth ≤ d) ∧
      (∀ leaf ∈ t.leaves, leaf.2 = Nat.log 2 (n + 1) ∨ leaf.2 = Nat.clog 2 (n + 1)) ∧
      (∀ u : DecisionTree, u.leaves.length ≤ 2 ^ u.depth) ∧
      ∀ u : DecisionTree, u.leaves.length = n + 1 → t.depth ≤ u.depth := by
  have hleast : ∀ d, n + 1 ≤ 2 ^ d → (bisect 0 n 0).depth ≤ d := by
    intro d hd
    rw [depth_bisect]
    exact Nat.clog_le_of_le_pow hd
  refine ⟨bisect 0 n 0, ofWidth_natCast n, ?_, ⟨?_, hleast⟩, ?_, length_leaves_le, ?_⟩
  · rw [length_leaves, middles_bisect, List.length_map, List.length_range']
  · rw [depth_bisect]
    exact Nat.le_pow_clog Nat.one_lt_two _
  · intro leaf hleaf
    have hbounds := level_bounds_of_mem_leaves_bisect 0 n 0 leaf hleaf
    have hclose := clog_le_log_add_one (n + 1)
    omega
  · intro u hu
    exact hleast _ (hu ▸ length_leaves_le u)

end DecisionTree

end BitReaders
