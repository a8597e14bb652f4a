import BitReaders.Proofs.Bisection

/-!
# Ordered trees are linear scans

A tree whose exponents do not decrease from left to right gives the answer of a scan: it counts the
powers of two that `x` has reached, and takes the leaf with that index. The shape of the tree does
not matter.

- `Ordered`: the exponents are those of powers of two, and do not decrease.
- `passed`: the number of comparisons whose power `x` has reached.
- `Ordered.passed_low`, `Ordered.passed_high`: a comparison tells how many of them there are on the
  side that the walk leaves out: none to the right of a power that is not reached, and all to the
  left of one that is.
- `exists_leaf_eval`: the walk ends at the leaf with that index.
- `eval_eq_scan`: **the answer of an ordered tree**, for every tree and every integer.
-/

namespace BitReaders

namespace DecisionTree

/-! ## Ordered trees -/

/-- The exponents of a tree are not negative and do not decrease from left to right. -/
structure Ordered (t : DecisionTree) : Prop where
  nonneg : ∀ m ∈ t.middles, 0 ≤ m
  sorted : t.middles.Pairwise (· ≤ ·)

section

variable {middle level : Int} {low high : DecisionTree}

theorem Ordered.lowSide (h : (branch middle low high level).Ordered) : low.Ordered :=
  ⟨fun m hm => h.nonneg m (List.mem_append_left _ hm), (List.pairwise_append.mp h.sorted).1⟩

theorem Ordered.highSide (h : (branch middle low high level).Ordered) : high.Ordered :=
  ⟨fun m hm => h.nonneg m (List.mem_append_right _ (List.mem_cons_of_mem _ hm)),
    (List.pairwise_cons.mp (List.pairwise_append.mp h.sorted).2.1).2⟩

theorem Ordered.middle_nonneg (h : (branch middle low high level).Ordered) : 0 ≤ middle :=
  h.nonneg middle (List.mem_append_right _ List.mem_cons_self)

/-- The exponents on the low side are at most that of the branch. -/
theorem Ordered.le_middle (h : (branch middle low high level).Ordered) :
    ∀ m ∈ low.middles, m ≤ middle :=
  fun m hm => (List.pairwise_append.mp h.sorted).2.2 m hm middle List.mem_cons_self

/-- Those on the high side are at least that of the branch. -/
theorem Ordered.middle_le (h : (branch middle low high level).Ordered) :
    ∀ m ∈ high.middles, middle ≤ m :=
  (List.pairwise_cons.mp (List.pairwise_append.mp h.sorted).2.1).1

end

/-! ## Powers that are reached -/

/-- Whether `x` has reached the power of two with an exponent. -/
def reached (x m : Int) : Bool := decide (2 ^ m.toNat ≤ x)

theorem reached_iff {x m : Int} : reached x m = true ↔ m.toNat < x.toNat.size := by
  rw [reached, decide_eq_true_iff, ← Int.not_lt, lt_two_pow_iff_size_le, Nat.not_le]

theorem reached_of_le {x m n : Int} (h : m ≤ n) (hn : reached x n = true) : reached x m = true :=
  reached_iff.mpr (Nat.lt_of_le_of_lt (Int.toNat_le_toNat h) (reached_iff.mp hn))

/-- The number of comparisons of a tree whose power of two `x` has reached. -/
def passed (x : Int) (t : DecisionTree) : Nat := t.middles.countP (reached x)

theorem length_leaves (t : DecisionTree) : t.leaves.length = t.middles.length + 1 := by
  induction t with
  | leaf position level => rfl
  | branch middle low high level ihlow ihhigh =>
    rw [leaves, middles, List.length_append, List.length_append, List.length_cons, ihlow, ihhigh]
    omega

section

variable {middle level x : Int} {low high : DecisionTree}

/-- If a branch's power is not reached, none on its high side is. -/
theorem Ordered.passed_low (h : (branch middle low high level).Ordered)
    (hx : reached x middle = false) : (branch middle low high level).passed x = low.passed x := by
  have hhigh : high.middles.countP (reached x) = 0 := by
    refine List.countP_eq_zero.mpr fun m hm hreached => ?_
    rw [reached_of_le (h.middle_le m hm) hreached] at hx
    cases hx
  rw [passed, middles, List.countP_append, List.countP_cons_of_neg (by simp [hx]), hhigh]
  rfl

/-- If it is reached, all on its low side are. -/
theorem Ordered.passed_high (h : (branch middle low high level).Ordered)
    (hx : reached x middle = true) :
    (branch middle low high level).passed x = low.leaves.length + high.passed x := by
  have hlow : low.middles.countP (reached x) = low.middles.length :=
    List.countP_eq_length.mpr fun m hm => reached_of_le (h.le_middle m hm) hx
  rw [passed, middles, List.countP_append, List.countP_cons_of_pos hx, hlow, length_leaves, passed]
  omega

end

/-! ## The walk -/

/-- The walk of an ordered tree ends at the leaf whose index is the number of powers reached. By
induction on the tree: the leaves of the high side come after all those of the low side. -/
theorem exists_leaf_eval {t : DecisionTree} (h : t.Ordered) (x maxBits : Int) :
    ∃ leaf, t.leaves[t.passed x]? = some leaf ∧
      t.eval x maxBits = .ok (answer leaf.1 x maxBits) := by
  induction t with
  | leaf position level => exact ⟨(position, level), rfl, rfl⟩
  | branch middle low high level ihlow ihhigh =>
    obtain ⟨m, rfl⟩ := Int.eq_ofNat_of_zero_le h.middle_nonneg
    rw [eval_branch]
    by_cases hx : x < 2 ^ m
    · obtain ⟨leaf, hleaf, heval⟩ := ihlow h.lowSide
      have hreached : reached x m = false := decide_eq_false (Int.not_le.mpr hx)
      refine ⟨leaf, ?_, by rw [if_pos hx, heval]⟩
      obtain ⟨hindex, -⟩ := List.getElem?_eq_some_iff.mp hleaf
      rw [h.passed_low hreached, leaves, List.getElem?_append_left hindex, hleaf]
    · obtain ⟨leaf, hleaf, heval⟩ := ihhigh h.highSide
      have hreached : reached x m = true := decide_eq_true (Int.not_lt.mp hx)
      refine ⟨leaf, ?_, by rw [if_neg hx, heval]⟩
      rw [h.passed_high hreached, leaves, List.getElem?_append_right (Nat.le_add_right _ _),
        Nat.add_sub_cancel_left, hleaf]

/-- **An ordered tree gives the answer of a linear scan**: that of the leaf whose index is the
number of exponents `m` with `2^m ≤ x`. A negative position there stands for "no bit". So the
answers do not depend on the shape of the tree, but only on its leaves and exponents. -/
theorem eval_eq_scan {t : DecisionTree} (h : t.Ordered) (x maxBits : Int) :
    (∃ position level,
      t.leaves[t.middles.countP fun m => decide (2 ^ m.toNat ≤ x)]? = some (position, level) ∧
        t.eval x maxBits =
          .ok (if 0 ≤ position then position else if x < 0 then maxBits else -1)) ∧
    ∀ u : DecisionTree, u.middles = t.middles → u.leaves.map (·.1) = t.leaves.map (·.1) →
      u.eval x maxBits = t.eval x maxBits := by
  obtain ⟨⟨position, level⟩, hleaf, heval⟩ := exists_leaf_eval h x maxBits
  constructor
  · refine ⟨position, level, hleaf, ?_⟩
    rw [heval, answer]
    congr 1
    split <;> split <;> omega
  · intro u hmiddles hleaves
    have hu : u.Ordered := ⟨hmiddles ▸ h.nonneg, hmiddles ▸ h.sorted⟩
    obtain ⟨leaf, hleaf', heval'⟩ := exists_leaf_eval hu x maxBits
    have hpassed : u.passed x = t.passed x := by rw [passed, hmiddles, passed]
    have hposition : leaf.1 = position := by
      have hindex := congrArg (·[t.passed x]?) hleaves
      rw [List.getElem?_map, List.getElem?_map, hleaf, ← hpassed, hleaf'] at hindex
      exact Option.some.inj hindex
    rw [heval, heval', hposition]

/-- A tree that compares with 4 twice. -/
def repeatedTests : DecisionTree :=
  .branch 0 (.leaf (-1) 1) (.branch 2 (.leaf 0 2) (.branch 2 (.leaf 7 3) (.leaf 1 3) 2) 1) 0

/-- The same leaves and exponents in a balanced tree. -/
def repeatedTestsBalanced : DecisionTree :=
  .branch 2 (.branch 0 (.leaf (-1) 2) (.leaf 0 2) 1) (.branch 2 (.leaf 7 2) (.leaf 1 2) 1) 0

/-- The number 5 reaches all three powers, in either tree. -/
theorem eval_eq_scan_repeatedTests :
    repeatedTests.Ordered ∧
      (∃ position level, repeatedTests.leaves[3]? = some (position, level) ∧
        repeatedTests.eval 5 9 =
          .ok (if 0 ≤ position then position else if (5 : Int) < 0 then 9 else -1)) ∧
      repeatedTestsBalanced.eval 5 9 = repeatedTests.eval 5 9 := by
  have hordered : repeatedTests.Ordered := ⟨by decide, by decide⟩
  obtain ⟨hscan, hshape⟩ := eval_eq_scan hordered 5 9
  exact ⟨hordered, hscan, hshape _ rfl rfl⟩

end DecisionTree

end BitReaders
