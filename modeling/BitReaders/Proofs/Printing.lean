import BitReaders.DecisionTree.Listing
import BitReaders.Proofs.Depth
import BitReaders.Proofs.Numerals

/-!
# What can be printed

A listing prints the integers that stand in a tree, and an integer with too many digits cannot be
printed. If none of those that a tree prints is so long, its listing is the text of all its lines;
if one of them is, there is no listing, whichever comes first.

- `numbers`: the integers that a tree prints, in their order; `Printable`: none of them has too many
  digits.
- `listing`: the lines of a tree with every integer written out.
- `lines_cases`: **the lines of a tree are its listing if it is printable, and else an error**.
- `render_eq_ok_iff`, `render_eq_oversized_iff`: the same under an indentation.
- `printable_bisect_iff`: the balanced tree is printable just if its width is.
-/

namespace BitReaders.DecisionTree

variable {t : DecisionTree} {maxBits tabs n : Int}

/-! ## Integers -/

theorem printed_of_fits (h : Numeral.Fits n) : printed n = .ok (toString n) :=
  if_pos h

theorem printed_of_not_fits (h : ¬ Numeral.Fits n) : printed n = .error .oversized :=
  if_neg h

/-- The integers that a tree prints, in their order. The greatest width is printed by the leaves for
zero and the negative numbers, and a branch prints its exponent before its sides print theirs. -/
def numbers (maxBits : Int) : DecisionTree → List Int
  | .leaf position level => if position < 0 then [maxBits, level + 1] else [position, level]
  | .branch middle low high _ => middle :: (low.numbers maxBits ++ high.numbers maxBits)

/-- No integer that the tree prints has too many digits. -/
def Printable (t : DecisionTree) (maxBits : Int) : Prop :=
  ∀ n ∈ t.numbers maxBits, Numeral.Fits n

instance (t : DecisionTree) (maxBits : Int) : Decidable (t.Printable maxBits) :=
  inferInstanceAs (Decidable (∀ n ∈ t.numbers maxBits, Numeral.Fits n))

/-- The limit as a number. -/
theorem printable_iff :
    t.Printable maxBits ↔ ∀ n ∈ t.numbers maxBits, n.natAbs < 10 ^ 4300 := by
  have hlimit : Numeral.maxDigits = 4300 := rfl
  simp only [Printable, Numeral.fits_iff, hlimit]

theorem printable_leaf_of_neg {position : Int} (h : position < 0) (level maxBits : Int) :
    (leaf position level).Printable maxBits ↔ Numeral.Fits maxBits ∧ Numeral.Fits (level + 1) := by
  rw [Printable, numbers, if_pos h, List.forall_mem_cons, List.forall_mem_singleton]

theorem printable_leaf_of_nonneg {position : Int} (h : ¬ position < 0) (level maxBits : Int) :
    (leaf position level).Printable maxBits ↔ Numeral.Fits position ∧ Numeral.Fits level := by
  rw [Printable, numbers, if_neg h, List.forall_mem_cons, List.forall_mem_singleton]

theorem printable_branch_iff {middle level : Int} {low high : DecisionTree} :
    (branch middle low high level).Printable maxBits ↔
      Numeral.Fits middle ∧ low.Printable maxBits ∧ high.Printable maxBits := by
  rw [Printable, numbers, List.forall_mem_cons, List.forall_mem_append]
  rfl

/-! ## Lines -/

/-- The content of a leaf's line. -/
def leafContent (position level maxBits : Int) : String :=
  if position < 0 then
    "x < 0 ? " ++ toString maxBits ++ " : -1 /* " ++ toString (level + 1) ++ " */"
  else toString position ++ " /* " ++ toString level ++ " */"

/-- The content of the first line of a branch. -/
def branchContent (middle : Int) : String :=
  "( x < 1<<" ++ toString middle ++ " ?"

/-- The lines of a tree, with every integer written out. -/
def listing (maxBits : Int) : DecisionTree → List Line
  | .leaf position level => [⟨level, leafContent position level maxBits⟩]
  | .branch middle low high level =>
    ⟨level, branchContent middle⟩ ::
      (low.listing maxBits ++ ⟨level, ":"⟩ :: (high.listing maxBits ++ [⟨level, ")"⟩]))

/-- A line with two integers in it. -/
theorem printed_two_cases (a b : Int) (line : String → String → Line) :
    (Numeral.Fits a ∧ Numeral.Fits b) ∧
        (do return line (← printed a) (← printed b)) = Except.ok (line (toString a) (toString b)) ∨
      ¬ (Numeral.Fits a ∧ Numeral.Fits b) ∧
        (do return line (← printed a) (← printed b)) = Except.error Error.oversized := by
  by_cases ha : Numeral.Fits a
  · rw [printed_of_fits ha]
    by_cases hb : Numeral.Fits b
    · rw [printed_of_fits hb]
      exact .inl ⟨⟨ha, hb⟩, rfl⟩
    · rw [printed_of_not_fits hb]
      exact .inr ⟨fun h => hb h.2, rfl⟩
  · rw [printed_of_not_fits ha]
    exact .inr ⟨fun h => ha h.1, rfl⟩

theorem leafLine_cases (position level maxBits : Int) :
    (leaf position level).Printable maxBits ∧
        leafLine position level maxBits = .ok ⟨level, leafContent position level maxBits⟩ ∨
      ¬ (leaf position level).Printable maxBits ∧
        leafLine position level maxBits = .error .oversized := by
  by_cases hneg : position < 0
  · rw [printable_leaf_of_neg hneg, leafLine, leafContent, if_pos hneg, if_pos hneg]
    exact printed_two_cases maxBits (level + 1) fun greatest comparisons =>
      ⟨level, "x < 0 ? " ++ greatest ++ " : -1 /* " ++ comparisons ++ " */"⟩
  · rw [printable_leaf_of_nonneg hneg, leafLine, leafContent, if_neg hneg, if_neg hneg]
    exact printed_two_cases position level fun bit comparisons =>
      ⟨level, bit ++ " /* " ++ comparisons ++ " */"⟩

/-- **The lines of a tree** are its listing if every integer in them can be printed, and else an
error. By induction on the tree: the first line of a branch comes before its sides. -/
theorem lines_cases (maxBits : Int) (t : DecisionTree) :
    t.Printable maxBits ∧ t.lines maxBits = .ok (t.listing maxBits) ∨
      ¬ t.Printable maxBits ∧ t.lines maxBits = .error .oversized := by
  induction t with
  | leaf position level =>
    rw [lines]
    rcases leafLine_cases position level maxBits with ⟨hfits, hline⟩ | ⟨hfits, hline⟩
    · rw [hline]
      exact .inl ⟨hfits, rfl⟩
    · rw [hline]
      exact .inr ⟨hfits, rfl⟩
  | branch middle low high level ihlow ihhigh =>
    rw [printable_branch_iff, lines, branchLine]
    by_cases hmiddle : Numeral.Fits middle
    · rw [printed_of_fits hmiddle]
      rcases ihlow with ⟨hlow, hlinesLow⟩ | ⟨hlow, hlinesLow⟩
      · rw [hlinesLow]
        rcases ihhigh with ⟨hhigh, hlinesHigh⟩ | ⟨hhigh, hlinesHigh⟩
        · rw [hlinesHigh]
          exact .inl ⟨⟨hmiddle, hlow, hhigh⟩, rfl⟩
        · rw [hlinesHigh]
          exact .inr ⟨fun h => hhigh h.2.2, rfl⟩
      · rw [hlinesLow]
        exact .inr ⟨fun h => hlow h.2.1, rfl⟩
    · rw [printed_of_not_fits hmiddle]
      exact .inr ⟨fun h => hmiddle h.1, rfl⟩

/-! ## Listings -/

/-- The text of a listing under some tabs. -/
def listingText (t : DecisionTree) (maxBits tabs : Int) : String :=
  String.join ((t.listing maxBits).map (Line.text tabs))

theorem render_eq_map (t : DecisionTree) (maxBits : Int) (h : 0 ≤ tabs) :
    t.render maxBits tabs =
      (t.lines maxBits).map fun lines => String.join (lines.map (Line.text tabs)) := by
  rw [render, if_neg (by omega)]

/-- A listing is the text of all lines, and there is one just if the tree is printable. -/
theorem render_eq_ok_iff (h : 0 ≤ tabs) {text : String} :
    t.render maxBits tabs = .ok text ↔ t.Printable maxBits ∧ text = t.listingText maxBits tabs := by
  rw [render_eq_map t maxBits h]
  rcases lines_cases maxBits t with ⟨hfits, hlines⟩ | ⟨hfits, hlines⟩
  · rw [hlines, and_iff_right hfits]
    exact ⟨fun heq => (Except.ok.inj heq).symm, fun heq => congrArg _ heq.symm⟩
  · rw [hlines]
    exact ⟨nofun, fun hand => absurd hand.1 hfits⟩

theorem render_eq_ok (h : 0 ≤ tabs) (hfits : t.Printable maxBits) :
    t.render maxBits tabs = .ok (t.listingText maxBits tabs) :=
  (render_eq_ok_iff h).mpr ⟨hfits, rfl⟩

theorem exists_render_eq_ok_iff (h : 0 ≤ tabs) :
    (∃ text, t.render maxBits tabs = .ok text) ↔
      ∀ n ∈ t.numbers maxBits, n.natAbs < 10 ^ 4300 := by
  simp only [render_eq_ok_iff h, exists_and_left, exists_eq, and_true, printable_iff]

/-- What a tree prints: the greatest width, an exponent, a bit, or the number of comparisons. -/
theorem mem_numbers (h : n ∈ t.numbers maxBits) :
    n = maxBits ∨ n ∈ t.middles ∨
      ∃ leaf ∈ t.leaves, 0 ≤ leaf.1 ∧ n = leaf.1 ∨ n = leaf.2 ∨ n = leaf.2 + 1 := by
  induction t with
  | leaf position level =>
    have hleaf : (position, level) ∈ (leaf position level).leaves := List.mem_singleton_self _
    rw [numbers] at h
    split at h
    · rcases List.mem_pair.mp h with rfl | rfl
      · exact .inl rfl
      · exact .inr (.inr ⟨_, hleaf, .inr (.inr rfl)⟩)
    · rename_i hneg
      rcases List.mem_pair.mp h with rfl | rfl
      · exact .inr (.inr ⟨_, hleaf, .inl ⟨Int.not_lt.mp hneg, rfl⟩⟩)
      · exact .inr (.inr ⟨_, hleaf, .inr (.inl rfl)⟩)
  | branch middle low high level ihlow ihhigh =>
    rw [numbers, List.mem_cons, List.mem_append] at h
    rcases h with rfl | h | h
    · exact .inr (.inl (List.mem_append_right _ List.mem_cons_self))
    · rcases ihlow h with h | h | ⟨leaf, hleaf, h⟩
      · exact .inl h
      · exact .inr (.inl (List.mem_append_left _ h))
      · exact .inr (.inr ⟨leaf, List.mem_append_left _ hleaf, h⟩)
    · rcases ihhigh h with h | h | ⟨leaf, hleaf, h⟩
      · exact .inl h
      · exact .inr (.inl (List.mem_append_right _ (List.mem_cons_of_mem _ h)))
      · exact .inr (.inr ⟨leaf, List.mem_append_right _ hleaf, h⟩)

/-- A leaf for zero and the negative numbers prints the greatest width. -/
theorem maxBits_mem_numbers {leaf : Int × Int} (hleaf : leaf ∈ t.leaves) (hneg : leaf.1 < 0) :
    maxBits ∈ t.numbers maxBits := by
  induction t with
  | leaf position level =>
    obtain rfl := List.mem_singleton.mp hleaf
    rw [numbers, if_pos hneg]
    exact List.mem_cons_self
  | branch middle low high level ihlow ihhigh =>
    rw [numbers]
    rcases List.mem_append.mp hleaf with hleaf | hleaf
    · exact List.mem_cons_of_mem _ (List.mem_append_left _ (ihlow hleaf))
    · exact List.mem_cons_of_mem _ (List.mem_append_right _ (ihhigh hleaf))

/-- The greatest depth of a leaf is less than the width, but for the least widths. -/
theorem clog_lt_max (n : Nat) : Nat.clog 2 (n + 1) < max n 3 := by
  by_cases hn : n < 3
  · have hclog : Nat.clog 2 (n + 1) ≤ 2 := Nat.clog_le_of_le_pow (by omega)
    omega
  · obtain ⟨k, rfl⟩ : ∃ k, n = k + 3 := ⟨n - 3, by omega⟩
    have hpow : k + 3 + 1 ≤ 2 ^ (k + 2) := by
      have hk : k < 2 ^ k := Nat.lt_two_pow_self
      rw [Nat.pow_add]
      omega
    have hclog := Nat.clog_le_of_le_pow hpow
    omega

/-- The integers that the balanced tree prints are no greater than its width, but for the least
widths. -/
theorem natAbs_le_of_mem_numbers_bisect {w : Nat} (h : n ∈ (bisect 0 w 0).numbers w) :
    n.natAbs ≤ max w 3 := by
  have hclog := clog_lt_max w
  rcases mem_numbers h with rfl | hmiddle | ⟨leaf, hleaf, hn⟩
  · omega
  · have hbounds := bounds_of_mem_middles_bisect hmiddle
    omega
  · have hlevel := level_bounds_of_mem_leaves_bisect 0 w 0 leaf hleaf
    have hposition := List.mem_map_of_mem (f := Prod.fst) hleaf
    rw [map_position_leaves_bisect, List.mem_cons, List.mem_map] at hposition
    rcases hn with ⟨hnonneg, rfl⟩ | rfl | rfl
    · rcases hposition with hposition | ⟨bit, hbit, hposition⟩
      · omega
      · have hrange := List.mem_range'_1.mp hbit
        omega
    · omega
    · omega

/-- **The balanced tree of a width is printable just if the width itself is.** -/
theorem printable_bisect_iff (w : Nat) : (bisect 0 w 0).Printable w ↔ Numeral.Fits w := by
  constructor
  · intro h
    have hsign : (-1 : Int) ∈ (bisect 0 w 0).leaves.map (·.1) := by
      rw [map_position_leaves_bisect]
      exact List.mem_cons_self
    obtain ⟨leaf, hleaf, hposition⟩ := List.mem_map.mp hsign
    exact h _ (maxBits_mem_numbers hleaf (by omega))
  · intro h n hn
    have hle := natAbs_le_of_mem_numbers_bisect hn
    have hthree : Numeral.Fits 3 := by decide
    rcases Nat.le_total w 3 with hw | hw
    · exact hthree.of_natAbs_le (by omega)
    · exact h.of_natAbs_le (by omega)

/-- The listing of the balanced tree of a width. -/
theorem generate_eq_ok_iff {w tabs : Nat} {text : String} :
    generate w tabs = .ok text ↔ Numeral.Fits w ∧ text = (bisect 0 w 0).listingText w tabs := by
  rw [generate, ofWidth_natCast, ← printable_bisect_iff]
  exact render_eq_ok_iff (Int.natCast_nonneg tabs)

theorem exists_generate_eq_ok_iff {w tabs : Nat} :
    (∃ text, generate w tabs = .ok text) ↔ w < 10 ^ 4300 := by
  have hlimit : Numeral.maxDigits = 4300 := rfl
  simp only [generate_eq_ok_iff, exists_and_left, exists_eq, and_true, Numeral.fits_iff, hlimit,
    Int.natAbs_natCast]

/-- A width and an indentation that can be printed themselves fail only if they are refused. -/
theorem isRefusal_of_generate_eq_error {w : Int} {e : Error} (hw : Numeral.Fits w)
    (htabs : Numeral.Fits tabs) (h : generate w tabs = .error e) : e.isRefusal = true := by
  by_cases hneg : w < 0
  · rw [generate, ofWidth, if_pos hneg, Error.naming, if_pos hw] at h
    cases h
    rfl
  · obtain ⟨k, rfl⟩ := Int.eq_ofNat_of_zero_le (Int.not_lt.mp hneg)
    rw [generate, ofWidth_natCast] at h
    by_cases hindent : tabs < 0
    · replace h : (bisect 0 k 0).render k tabs = .error e := h
      rw [render, if_pos hindent, Error.naming, if_pos htabs] at h
      cases h
      rfl
    · have hfits := (printable_bisect_iff k).mpr hw
      cases (render_eq_ok (Int.not_lt.mp hindent) hfits).symm.trans h

end BitReaders.DecisionTree
