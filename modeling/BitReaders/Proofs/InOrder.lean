import BitReaders.Proofs.Bisection
import Mathlib.Data.List.Nodup

/-!
# The balanced tree from left to right

Read from left to right, with every branch between its two sides, the balanced tree of a width
lists its bits in order: each bit first as the exponent of a comparison, then as an answer.

- `Mark`, `inorder`: a tree read from left to right; its leaves and its exponents are the two parts
  of that reading (`filterMap_position?_inorder`, `filterMap_middle?_inorder`).
- `inorder_bisect`: the reading of the bisection of any interval. The upper half starts with the
  candidate after the lower half, and its first leaf repeats the exponent between the two. So the
  leaves and the exponents are known (`map_position_leaves_bisect`, `middles_bisect`).
- `Subtree`: the subtrees of a tree, each with its distance from the root;
  `exists_bisect_of_subtree`: those of a bisection are bisections.
- `exists_ofWidth_inorder`: **the balanced tree**, node by node.
-/

namespace BitReaders

namespace DecisionTree

/-! ## Reading a tree -/

/-- What is read at a node of a tree. -/
inductive Mark where
  /-- A leaf, by its position. -/
  | leaf (position : Int)
  /-- A branch, by the exponent of its comparison. -/
  | branch (middle : Int)
  deriving DecidableEq, Repr

/-- The position of a leaf. -/
def Mark.position? : Mark → Option Int
  | .leaf position => some position
  | .branch _ => none

/-- The exponent of a branch. -/
def Mark.middle? : Mark → Option Int
  | .leaf _ => none
  | .branch middle => some middle

/-- The nodes of a tree from left to right. A branch comes between its two sides. -/
def inorder : DecisionTree → List Mark
  | .leaf position _ => [.leaf position]
  | .branch middle low high _ => low.inorder ++ .branch middle :: high.inorder

/-- The leaves of a tree are read in their order. -/
theorem filterMap_position?_inorder (t : DecisionTree) :
    t.inorder.filterMap Mark.position? = t.leaves.map (·.1) := by
  induction t with
  | leaf position level => rfl
  | branch middle low high level ihlow ihhigh =>
    rw [inorder, leaves, List.filterMap_append, List.filterMap_cons_none (f := Mark.position?) rfl,
      ihlow, ihhigh, List.map_append]

/-- The exponents of a tree are read in their order. -/
theorem filterMap_middle?_inorder (t : DecisionTree) :
    t.inorder.filterMap Mark.middle? = t.middles := by
  induction t with
  | leaf position level => rfl
  | branch middle low high level ihlow ihhigh =>
    rw [inorder, middles, List.filterMap_append, List.filterMap_cons_some (f := Mark.middle?) rfl,
      ihlow, ihhigh]

/-! ## Reading a bisection -/

/-- A bit as an exponent and as an answer. -/
def bitMarks (bit : Nat) : List Mark := [.branch bit, .leaf bit]

/-- An interval is its lower half, the middle, and the upper half. -/
theorem range'_halves {extra : Nat} (h : 0 < extra) (lo : Nat) :
    List.range' lo extra = List.range' lo (extra / 2) ++
      (lo + extra / 2) :: List.range' (lo + extra / 2 + 1) (extra - extra / 2 - 1) := by
  have hextra : extra / 2 + (extra - extra / 2 - 1 + 1) = extra := by omega
  rw [← List.range'_succ, List.range'_append_1, hextra]

/-- **The bisection of any interval** reads as the candidate before it and then bit by bit. By
induction on the bisection: the reading of the upper half starts with a leaf for the middle. -/
theorem inorder_bisect (lo extra level : Nat) :
    (bisect lo extra level).inorder =
      .leaf (lo - 1) :: (List.range' lo extra).flatMap bitMarks := by
  induction lo, extra, level using bisect.induct with
  | case1 lo level => rw [bisect_zero, inorder, List.range'_zero, List.flatMap_nil]
  | case2 lo extra level hne half ihlow ihhigh =>
    have hpos : 0 < extra := Nat.pos_of_ne_zero hne
    have hmiddle : ((lo + extra / 2 + 1 : Nat) : Int) - 1 = (lo + extra / 2 : Nat) := by omega
    rw [bisect_pos hpos, inorder, ihlow, ihhigh, hmiddle, range'_halves hpos, List.flatMap_append,
      List.flatMap_cons]
    rfl

/-- The leaves of a bisection stand for its candidates. -/
theorem map_position_leaves_bisect (lo extra level : Nat) :
    (bisect lo extra level).leaves.map (·.1) =
      ((lo : Int) - 1) :: (List.range' lo extra).map Nat.cast := by
  have hbit : ∀ bit, (bitMarks bit).filterMap Mark.position? = [(bit : Int)] := fun _ => rfl
  rw [← filterMap_position?_inorder, inorder_bisect,
    List.filterMap_cons_some (f := Mark.position?) rfl, List.filterMap_flatMap,
    List.map_eq_flatMap]
  simp only [hbit]

/-- Its exponents are its candidates but the last. -/
theorem middles_bisect (lo extra level : Nat) :
    (bisect lo extra level).middles = (List.range' lo extra).map Nat.cast := by
  have hbit : ∀ bit, (bitMarks bit).filterMap Mark.middle? = [(bit : Int)] := fun _ => rfl
  rw [← filterMap_middle?_inorder, inorder_bisect,
    List.filterMap_cons_none (f := Mark.middle?) rfl, List.filterMap_flatMap, List.map_eq_flatMap]
  simp only [hbit]

theorem bounds_of_mem_middles_bisect {lo extra level : Nat} {m : Int}
    (h : m ∈ (bisect lo extra level).middles) : (lo : Int) ≤ m ∧ m < lo + extra := by
  rw [middles_bisect] at h
  obtain ⟨bit, hbit, rfl⟩ := List.mem_map.mp h
  have hrange := List.mem_range'_1.mp hbit
  omega

/-! ## Subtrees -/

/-- The level that is stored in the root. -/
def level : DecisionTree → Int
  | .leaf _ level => level
  | .branch _ _ _ level => level

/-- `t.Subtree d s`: the subtree `s` of `t` stands at a distance of `d` from the root. -/
inductive Subtree : DecisionTree → Nat → DecisionTree → Prop where
  | root (t : DecisionTree) : Subtree t 0 t
  | low {middle level : Int} {low high s : DecisionTree} {d : Nat} (h : Subtree low d s) :
    Subtree (.branch middle low high level) (d + 1) s
  | high {middle level : Int} {low high s : DecisionTree} {d : Nat} (h : Subtree high d s) :
    Subtree (.branch middle low high level) (d + 1) s

theorem level_bisect (lo extra level : Nat) : (bisect lo extra level).level = level := by
  rw [bisect]
  split <;> rfl

/-- The subtrees of a bisection are bisections, whose level has grown with the distance. -/
theorem exists_bisect_of_subtree (lo extra level : Nat) :
    ∀ d s, (bisect lo extra level).Subtree d s →
      ∃ lo' extra', s = bisect lo' extra' (level + d) := by
  induction lo, extra, level using bisect.induct with
  | case1 lo level =>
    intro d s h
    rw [bisect_zero] at h
    cases h with
    | root => exact ⟨lo, 0, (bisect_zero lo level).symm⟩
  | case2 lo extra level hne half ihlow ihhigh =>
    intro d s h
    have hpos : 0 < extra := Nat.pos_of_ne_zero hne
    rw [bisect_pos hpos] at h
    cases h with
    | root => exact ⟨lo, extra, (bisect_pos hpos lo level).symm⟩
    | @low _ _ _ _ _ d h =>
      obtain ⟨lo', extra', rfl⟩ := ihlow _ _ h
      exact ⟨lo', extra', by rw [Nat.add_assoc, Nat.add_comm 1]⟩
    | @high _ _ _ _ _ d h =>
      obtain ⟨lo', extra', rfl⟩ := ihhigh _ _ h
      exact ⟨lo', extra', by rw [Nat.add_assoc, Nat.add_comm 1]⟩

/-- The first leaf of a bisection stands for its lowest candidate. -/
theorem head?_leaves_bisect (lo extra level : Nat) :
    ((bisect lo extra level).leaves.map (·.1)).head? = some ((lo : Int) - 1) := by
  rw [map_position_leaves_bisect, List.head?_cons]

/-- The last leaf of a bisection stands for its highest candidate. -/
theorem getLast?_leaves_bisect (lo extra level : Nat) :
    ((bisect lo extra level).leaves.map (·.1)).getLast? =
      some (((lo + extra : Nat) : Int) - 1) := by
  rw [map_position_leaves_bisect, List.getLast?_cons, List.getLast?_map, List.getLast?_range']
  split <;> simp <;> omega

/-- A branch of a bisection compares with the bit after the last leaf of its low side, which is the
bit of the first leaf of its high side. -/
theorem leaves_beside_of_bisect_eq {lo extra level : Nat} {middle l : Int}
    {low high : DecisionTree} (h : bisect lo extra level = .branch middle low high l) :
    (low.leaves.map (·.1)).getLast? = some (middle - 1) ∧
      (high.leaves.map (·.1)).head? = some middle := by
  rcases Nat.eq_zero_or_pos extra with rfl | hpos
  · rw [bisect_zero] at h
    cases h
  · rw [bisect_pos hpos] at h
    cases h
    refine ⟨getLast?_leaves_bisect _ _ _, ?_⟩
    rw [head?_leaves_bisect]
    congr 1
    omega

/-! ## The balanced tree of a width -/

example : (bisect 0 2 0).inorder =
    [.leaf (-1), .branch 0, .leaf 0, .branch 1, .leaf 1] := by cbv

/-- **The balanced tree lists its bits in order.** For every width `n` it reads -1, 0, 0, 1, 1, …,
`n - 1`, `n - 1` from left to right: its leaves are -1, 0, …, `n - 1`, and the bits 0, …, `n - 1`
are compared with in one branch each. Every branch stands between the leaves of its bit and of the
bit before, and every node stores its distance from the root. -/
theorem exists_ofWidth_inorder (n : Nat) :
    ∃ t, ofWidth n = .ok t ∧
      t.inorder = .leaf (-1) :: (List.range n).flatMap (fun bit => [.branch bit, .leaf bit]) ∧
      t.leaves.map (·.1) = -1 :: (List.range n).map Nat.cast ∧
      (t.middles = (List.range n).map Nat.cast ∧
        ∀ bit : Nat, bit < n → t.middles.count (bit : Int) = 1) ∧
      (∀ d middle low high level, t.Subtree d (.branch middle low high level) →
        (low.leaves.map (·.1)).getLast? = some (middle - 1) ∧
          (high.leaves.map (·.1)).head? = some middle) ∧
      ∀ d s, t.Subtree d s → s.level = d := by
  have hmiddles : (bisect 0 n 0).middles = (List.range n).map Nat.cast := by
    rw [middles_bisect, List.range_eq_range']
  refine ⟨bisect 0 n 0, ofWidth_natCast n, ?_, ?_, ⟨hmiddles, ?_⟩, ?_, ?_⟩
  · rw [inorder_bisect, List.range_eq_range']
    rfl
  · rw [map_position_leaves_bisect, List.range_eq_range']
    rfl
  · intro bit hbit
    have hinj : Function.Injective (Nat.cast : Nat → Int) := fun _ _ => Int.ofNat.inj
    rw [hmiddles]
    exact List.count_eq_one_of_mem (List.nodup_range.map hinj)
      (List.mem_map_of_mem (List.mem_range.mpr hbit))
  · intro d middle low high level h
    obtain ⟨lo, extra, hs⟩ := exists_bisect_of_subtree _ _ _ _ _ h
    exact leaves_beside_of_bisect_eq hs.symm
  · intro d s h
    obtain ⟨lo, extra, rfl⟩ := exists_bisect_of_subtree _ _ _ _ _ h
    rw [level_bisect, Nat.zero_add]

end DecisionTree

end BitReaders
