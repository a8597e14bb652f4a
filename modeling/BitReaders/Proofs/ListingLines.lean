import BitReaders.Proofs.Conditional.Spelling
import BitReaders.Proofs.InOrder
import BitReaders.Proofs.Printing
import BitReaders.Proofs.Text.Lines

/-!
# The lines of a listing

The text of a listing is cut into its lines again, and a line into its tabs and its content: no
content has a newline in it or starts with a tab. Every line is written by a node of the tree, a
leaf writing one and a branch three.

- `Line.row`, `listingText_eq_unlines`: a line under its indentation; the text of a listing is that
  of these rows. `Line.place` tells an indentation below zero from none.
- `Neat`: what makes a content be found again; `neat_of_mem_listing`: the contents of listings have
  it. So a listing gives back its rows (`textLines_rows`), and a row the number of its tabs
  (`leadingTabs_row`) and its content (`dropTabs_row`).
- `contents`, `writings`: what a node writes, and the lines of a tree by the nodes that write them,
  with their distances from the root; `listing_eq_map_writings`: **line by line, who writes it**.
-/

namespace BitReaders

open Conditional (of_mem_toString)

/-- A line under its indentation, without the newline. -/
def Line.row (tabs : Int) (l : Line) : String :=
  indent (tabs + l.level).toNat ++ l.content

/-- The indentation of a line, be it below zero, and its content. -/
def Line.place (tabs : Int) (l : Line) : Int × String :=
  (tabs + l.level, l.content)

/-! ## Contents -/

/-- A content has no newline and does not start with a tab. -/
structure Neat (content : String) : Prop where
  no_newline : '\n' ∉ content.toList
  no_tab : content.toList.head? ≠ some '\t'

theorem newline_not_mem_toString (i : Int) : '\n' ∉ (toString i).toList :=
  fun h => absurd (of_mem_toString h) (by decide)

/-- The text of an integer starts with one of its characters, whatever follows. -/
theorem exists_head?_toString_append (i : Int) (rest : List Char) :
    ∃ c, ((toString i).toList ++ rest).head? = some c ∧ (c = '-' ∨ c.isDigit = true) := by
  obtain ⟨c, cs, hi⟩ := List.exists_cons_of_ne_nil (Conditional.toList_toString_ne_nil i)
  refine ⟨c, ?_, of_mem_toString (hi ▸ List.mem_cons_self)⟩
  rw [hi]
  rfl

namespace DecisionTree

/-- The line of the leaf for zero and the negative numbers. -/
theorem toList_leafContent_neg {position : Int} (h : position < 0) (level maxBits : Int) :
    (leafContent position level maxBits).toList =
      "x < 0 ? ".toList ++ ((toString maxBits).toList ++
        (" : -1 /* ".toList ++ ((toString (level + 1)).toList ++ " */".toList))) := by
  rw [leafContent, if_pos h]
  simp only [String.toList_append, List.append_assoc]

/-- The line of a leaf with a bit. -/
theorem toList_leafContent_nonneg {position : Int} (h : ¬ position < 0) (level maxBits : Int) :
    (leafContent position level maxBits).toList =
      (toString position).toList ++
        (" /* ".toList ++ ((toString level).toList ++ " */".toList)) := by
  rw [leafContent, if_neg h]
  simp only [String.toList_append, List.append_assoc]

/-- It starts with the variable. -/
theorem head?_leafContent_neg {position : Int} (h : position < 0) (level maxBits : Int) :
    (leafContent position level maxBits).toList.head? = some 'x' := by
  rw [toList_leafContent_neg h]
  rfl

/-- It starts with a digit, or with a sign. -/
theorem exists_head?_leafContent_nonneg {position : Int} (h : ¬ position < 0)
    (level maxBits : Int) :
    ∃ c, (leafContent position level maxBits).toList.head? = some c ∧
      (c = '-' ∨ c.isDigit = true) := by
  rw [toList_leafContent_nonneg h]
  exact exists_head?_toString_append position _

theorem toList_branchContent (middle : Int) :
    (branchContent middle).toList =
      "( x < 1<<".toList ++ ((toString middle).toList ++ " ?".toList) := by
  simp only [branchContent, String.toList_append, List.append_assoc]

theorem head?_branchContent (middle : Int) : (branchContent middle).toList.head? = some '(' := by
  rw [toList_branchContent]
  rfl

theorem neat_leafContent (position level maxBits : Int) :
    Neat (leafContent position level maxBits) := by
  by_cases h : position < 0
  · constructor
    · rw [toList_leafContent_neg h]
      simp only [List.mem_append, newline_not_mem_toString, false_or]
      decide
    · rw [head?_leafContent_neg h]
      decide
  · constructor
    · rw [toList_leafContent_nonneg h]
      simp only [List.mem_append, newline_not_mem_toString, false_or]
      decide
    · obtain ⟨c, hc, hdigit⟩ := exists_head?_leafContent_nonneg h level maxBits
      rw [hc]
      rintro ⟨⟩
      exact absurd hdigit (by decide)

theorem neat_branchContent (middle : Int) : Neat (branchContent middle) := by
  constructor
  · rw [toList_branchContent]
    simp only [List.mem_append, newline_not_mem_toString, false_or]
    decide
  · rw [head?_branchContent]
    decide

/-- What a node writes by itself: a leaf one content, a branch one before, one between and one
after the listings of its sides. -/
def contents (maxBits : Int) : DecisionTree → List String
  | .leaf position level => [leafContent position level maxBits]
  | .branch middle _ _ _ => [branchContent middle, ":", ")"]

theorem neat_of_mem_contents {maxBits : Int} {t : DecisionTree} {content : String}
    (h : content ∈ t.contents maxBits) : Neat content := by
  cases t with
  | leaf position level =>
    rw [contents, List.mem_singleton] at h
    subst h
    exact neat_leafContent position level maxBits
  | branch middle low high level =>
    rw [contents, List.mem_cons, List.mem_cons, List.mem_singleton] at h
    rcases h with rfl | rfl | rfl
    · exact neat_branchContent middle
    · exact ⟨by decide, by decide⟩
    · exact ⟨by decide, by decide⟩

/-! ## The nodes that write the lines -/

/-- A line of a listing, by the node that writes it, the distance of that node from the root, and
what it writes. -/
structure Writing where
  distance : Nat
  node : DecisionTree
  content : String

/-- The lines of a tree by their writers, where the root has a distance of `d`. -/
def writings (maxBits : Int) (d : Nat) : DecisionTree → List Writing
  | .leaf position level => [⟨d, .leaf position level, leafContent position level maxBits⟩]
  | .branch middle low high level =>
    ⟨d, .branch middle low high level, branchContent middle⟩ ::
      (low.writings maxBits (d + 1) ++ ⟨d, .branch middle low high level, ":"⟩ ::
        (high.writings maxBits (d + 1) ++ [⟨d, .branch middle low high level, ")"⟩]))

/-- **Line by line, who writes it**: the level of a line is that of its writer. -/
theorem listing_eq_map_writings (maxBits : Int) (t : DecisionTree) (d : Nat) :
    t.listing maxBits = (t.writings maxBits d).map fun w => ⟨w.node.level, w.content⟩ := by
  induction t generalizing d with
  | leaf position level => rfl
  | branch middle low high level ihlow ihhigh =>
    rw [listing, writings, ihlow (d + 1), ihhigh (d + 1), List.map_cons, List.map_append,
      List.map_cons, List.map_append]
    rfl

/-- A node writes its own contents. -/
theorem content_mem_contents {maxBits : Int} {t : DecisionTree} {d : Nat} {w : Writing}
    (h : w ∈ t.writings maxBits d) : w.content ∈ w.node.contents maxBits := by
  induction t generalizing d with
  | leaf position level =>
    obtain rfl := List.mem_singleton.mp h
    exact List.mem_singleton_self _
  | branch middle low high level ihlow ihhigh =>
    simp only [writings, List.mem_cons, List.mem_append, List.not_mem_nil, or_false] at h
    rcases h with rfl | h | rfl | h | rfl
    · exact List.mem_cons_self
    · exact ihlow h
    · exact List.mem_cons_of_mem _ List.mem_cons_self
    · exact ihhigh h
    · exact List.mem_cons_of_mem _ (List.mem_cons_of_mem _ List.mem_cons_self)

/-- The writers are the subtrees, at their distances. -/
theorem subtree_of_mem_writings {maxBits : Int} {t : DecisionTree} {d : Nat} {w : Writing}
    (h : w ∈ t.writings maxBits d) : ∃ e, w.distance = d + e ∧ t.Subtree e w.node := by
  induction t generalizing d with
  | leaf position level =>
    obtain rfl := List.mem_singleton.mp h
    exact ⟨0, rfl, .root _⟩
  | branch middle low high level ihlow ihhigh =>
    simp only [writings, List.mem_cons, List.mem_append, List.not_mem_nil, or_false] at h
    rcases h with rfl | h | rfl | h | rfl
    · exact ⟨0, rfl, .root _⟩
    · obtain ⟨e, he, hlow⟩ := ihlow h
      exact ⟨e + 1, by omega, .low hlow⟩
    · exact ⟨0, rfl, .root _⟩
    · obtain ⟨e, he, hhigh⟩ := ihhigh h
      exact ⟨e + 1, by omega, .high hhigh⟩
    · exact ⟨0, rfl, .root _⟩

/-- A leaf writes one line and a branch three. -/
theorem length_listing (maxBits : Int) (t : DecisionTree) :
    (t.listing maxBits).length = 4 * t.middles.length + 1 := by
  induction t with
  | leaf position level => rfl
  | branch middle low high level ihlow ihhigh =>
    rw [listing, middles, List.length_cons, List.length_append, List.length_cons,
      List.length_append, List.length_singleton, ihlow, ihhigh, List.length_append,
      List.length_cons]
    omega

/-! ## The rows of a listing -/

/-- The levels that are stored in the nodes, from left to right. -/
def levels : DecisionTree → List Int
  | .leaf _ level => [level]
  | .branch _ low high level => low.levels ++ level :: high.levels

/-- They are the levels of the subtrees. -/
theorem mem_levels_iff {t : DecisionTree} {n : Int} :
    n ∈ t.levels ↔ ∃ d s, t.Subtree d s ∧ s.level = n := by
  constructor
  · intro h
    induction t with
    | leaf position level => exact ⟨0, _, .root _, (List.mem_singleton.mp h).symm⟩
    | branch middle low high level ihlow ihhigh =>
      rw [levels, List.mem_append, List.mem_cons] at h
      rcases h with h | rfl | h
      · obtain ⟨d, s, hs, hlevel⟩ := ihlow h
        exact ⟨d + 1, s, .low hs, hlevel⟩
      · exact ⟨0, _, .root _, rfl⟩
      · obtain ⟨d, s, hs, hlevel⟩ := ihhigh h
        exact ⟨d + 1, s, .high hs, hlevel⟩
  · rintro ⟨d, s, h, rfl⟩
    induction h with
    | root t =>
      cases t with
      | leaf position level => exact List.mem_singleton_self _
      | branch middle low high level => exact List.mem_append_right _ List.mem_cons_self
    | low _ ih => exact List.mem_append_left _ ih
    | high _ ih => exact List.mem_append_right _ (List.mem_cons_of_mem _ ih)

section Rows

variable {maxBits : Int} {t : DecisionTree} {l : Line}

/-- The lines of a tree are found again, and have the levels of its nodes. -/
theorem neat_of_mem_listing (h : l ∈ t.listing maxBits) : Neat l.content ∧ l.level ∈ t.levels := by
  rw [listing_eq_map_writings maxBits t 0] at h
  obtain ⟨w, hw, rfl⟩ := List.mem_map.mp h
  obtain ⟨e, -, hsubtree⟩ := subtree_of_mem_writings hw
  exact ⟨neat_of_mem_contents (content_mem_contents hw), mem_levels_iff.mpr ⟨e, _, hsubtree, rfl⟩⟩

/-- A listing is the text of its rows. -/
theorem listingText_eq_unlines (t : DecisionTree) (maxBits tabs : Int) :
    t.listingText maxBits tabs = unlines ((t.listing maxBits).map (Line.row tabs)) := by
  rw [listingText, unlines, List.map_map]
  rfl

theorem newline_not_mem_row (tabs : Int) :
    ∀ row ∈ (t.listing maxBits).map (Line.row tabs), '\n' ∉ row.toList := by
  refine List.forall_mem_map.mpr fun l hl => ?_
  rw [Line.row, String.toList_append, toList_indent, List.mem_append, not_or]
  refine ⟨fun htab => ?_, (neat_of_mem_listing hl).1.no_newline⟩
  exact absurd (List.eq_of_mem_replicate htab) (by decide)

/-- The rows of a listing are its lines. -/
theorem textLines_rows (t : DecisionTree) (maxBits tabs : Int) :
    textLines (unlines ((t.listing maxBits).map (Line.row tabs))) =
      (t.listing maxBits).map (Line.row tabs) :=
  textLines_unlines (newline_not_mem_row tabs)

theorem leadingTabs_row (h : l ∈ t.listing maxBits) (tabs : Int) :
    leadingTabs (l.row tabs) = (tabs + l.level).toNat :=
  leadingTabs_indent_append _ (neat_of_mem_listing h).1.no_tab

theorem dropTabs_row (h : l ∈ t.listing maxBits) (tabs : Int) : dropTabs (l.row tabs) = l.content :=
  dropTabs_indent_append _ (neat_of_mem_listing h).1.no_tab

end Rows

end DecisionTree

end BitReaders
