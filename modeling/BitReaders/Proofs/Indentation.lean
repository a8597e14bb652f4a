import BitReaders.Proofs.ListingLines

/-!
# Indentation is the only effect of tabs

The tabs under which a tree is listed only stand in front of its lines. Without them all listings of
a tree are the same, and more tabs for the listing are more tabs for every line. The second law
needs that no line is cut off at the left margin, where a negative indentation counts as none.

- `map_dropTabs_rows`, `mapLines_dropTabs_rows`: a listing without its tabs has the contents of the
  lines.
- `row_add`, `mapLines_indent_rows`: more tabs, for a line and for a listing.
- `level_of_mem_writings_bisect`: in a bisection the level of a line's writer is its distance from
  the root.
- `render_indentation`: **the laws of indentation**, and the lines of the balanced tree.
-/

namespace BitReaders

/-! ## More tabs and fewer -/

/-- More tabs in front of a line that is not cut off. -/
theorem Line.row_add {l : Line} {a b : Int} (h : 0 ≤ l.level + a) (hb : 0 ≤ b) :
    l.row (a + b) = indent b.toNat ++ l.row a := by
  have htabs : (a + b + l.level).toNat = b.toNat + (a + l.level).toNat := by omega
  rw [Line.row, Line.row, htabs, indent_add, String.append_assoc]

namespace DecisionTree

/-- Without their tabs the rows of a listing are the contents of its lines. -/
theorem map_dropTabs_rows (t : DecisionTree) (maxBits tabs : Int) :
    ((t.listing maxBits).map (Line.row tabs)).map dropTabs =
      (t.listing maxBits).map Line.content := by
  rw [List.map_map]
  exact List.map_congr_left fun l hl => dropTabs_row hl tabs

/-- The same for the whole listing. -/
theorem mapLines_dropTabs_rows (t : DecisionTree) (maxBits tabs : Int) :
    mapLines dropTabs (unlines ((t.listing maxBits).map (Line.row tabs))) =
      unlines ((t.listing maxBits).map Line.content) := by
  rw [mapLines_unlines _ (newline_not_mem_row tabs), map_dropTabs_rows]

/-- A listing under more tabs is the listing with these tabs before every line. -/
theorem mapLines_indent_rows {t : DecisionTree} {a b : Int} (maxBits : Int)
    (h : ∀ level ∈ t.levels, 0 ≤ level + a) (hb : 0 ≤ b) :
    mapLines (indent b.toNat ++ ·) (unlines ((t.listing maxBits).map (Line.row a))) =
      unlines ((t.listing maxBits).map (Line.row (a + b))) := by
  rw [mapLines_unlines _ (newline_not_mem_row a), List.map_map]
  congr 1
  refine List.map_congr_left fun l hl => ?_
  exact (Line.row_add (h _ (neat_of_mem_listing hl).2) hb).symm

/-! ## The bisection -/

/-- In a bisection at level 0 the level of a writer is its distance from the root. -/
theorem level_of_mem_writings_bisect {lo extra : Nat} {maxBits : Int} {w : Writing}
    (h : w ∈ (bisect lo extra 0).writings maxBits 0) : w.node.level = w.distance := by
  obtain ⟨e, he, hsubtree⟩ := subtree_of_mem_writings h
  obtain ⟨lo', extra', hnode⟩ := exists_bisect_of_subtree _ _ _ _ _ hsubtree
  rw [hnode, level_bisect]
  omega

theorem length_listing_bisect (n : Nat) (maxBits : Int) :
    ((bisect 0 n 0).listing maxBits).length = 4 * n + 1 := by
  rw [length_listing, middles_bisect, List.length_map, List.length_range']

/-- The tabs of its lines. -/
theorem map_leadingTabs_rows_bisect (n tabs : Nat) :
    (((bisect 0 n 0).listing n).map (Line.row tabs)).map leadingTabs =
      ((bisect 0 n 0).writings n 0).map fun w => tabs + w.distance := by
  rw [List.map_map]
  have hrows : ∀ l ∈ (bisect 0 n 0).listing n,
      (leadingTabs ∘ Line.row tabs) l = ((tabs : Int) + l.level).toNat :=
    fun l hl => leadingTabs_row hl tabs
  rw [List.map_congr_left hrows, listing_eq_map_writings n _ 0, List.map_map]
  refine List.map_congr_left fun w hw => ?_
  show ((tabs : Int) + w.node.level).toNat = _
  rw [level_of_mem_writings_bisect hw]
  omega

/-- The contents of the lines of any tree. -/
theorem map_content_listing (t : DecisionTree) (maxBits : Int) :
    (t.listing maxBits).map Line.content = (t.writings maxBits 0).map Writing.content := by
  rw [listing_eq_map_writings maxBits t 0, List.map_map]
  rfl

/-! ## Listings under tabs -/

/-- What is done to the text of a listing. -/
theorem map_render_eq (t : DecisionTree) (maxBits : Int) {tabs : Int} (h : 0 ≤ tabs)
    (f : String → String) :
    (t.render maxBits tabs).map f =
      (t.lines maxBits).map fun _ => f (unlines ((t.listing maxBits).map (Line.row tabs))) := by
  rw [render_eq_map t maxBits h]
  rcases lines_cases maxBits t with ⟨-, hlines⟩ | ⟨-, hlines⟩
  · rw [hlines, ← listingText_eq_unlines]
    rfl
  · rw [hlines]
    rfl

/-- **Indentation is the only effect of tabs.** Whether a tree has a listing does not depend on
them: it has one if no integer in it has more than 4300 digits. A listing consists of lines that
each end in a newline. Without the tabs that its lines start with, the listing of a tree under `a`
tabs is that under `b` tabs. If no node has an indentation below zero under `a` tabs, the listing
under `a + b` tabs is that under `a` tabs with `b` tabs put before every line. The balanced tree of
width `n` has a listing if `n` can be printed. It has `4 * n + 1` lines, and each starts with as
many tabs as the listing is put under and as its node is away from the root. -/
theorem render_indentation :
    (∀ (t : DecisionTree) (maxBits a b : Int), 0 ≤ a → 0 ≤ b →
      ((∃ text, t.render maxBits a = .ok text) ↔ ∀ n ∈ t.numbers maxBits, n.natAbs < 10 ^ 4300) ∧
        (∀ text, t.render maxBits a = .ok text → text = unlines (textLines text)) ∧
        (t.render maxBits a).map (mapLines dropTabs) =
          (t.render maxBits b).map (mapLines dropTabs) ∧
        ((∀ level ∈ t.levels, 0 ≤ level + a) →
          t.render maxBits (a + b) =
            (t.render maxBits a).map (mapLines (indent b.toNat ++ ·)))) ∧
      ∀ n tabs : Nat, ((∃ text, generate n tabs = .ok text) ↔ n < 10 ^ 4300) ∧
        ∀ text, generate n tabs = .ok text →
          text = unlines (textLines text) ∧ (textLines text).length = 4 * n + 1 ∧
          ∃ t, ofWidth n = .ok t ∧
            (textLines text).map leadingTabs =
              (t.writings n 0).map (fun w => tabs + w.distance) ∧
            (textLines text).map dropTabs = (t.writings n 0).map Writing.content ∧
            ∀ w ∈ t.writings n 0, t.Subtree w.distance w.node ∧ w.content ∈ w.node.contents n := by
  constructor
  · intro t maxBits a b ha hb
    refine ⟨exists_render_eq_ok_iff ha, ?_, ?_, ?_⟩
    · intro text htext
      rw [((render_eq_ok_iff ha).mp htext).2, listingText_eq_unlines, textLines_rows]
    · rw [map_render_eq t maxBits ha, map_render_eq t maxBits hb, mapLines_dropTabs_rows,
        mapLines_dropTabs_rows]
    · intro hlevels
      have hsum := map_render_eq t maxBits (Int.add_nonneg ha hb) id
      rw [map_render_eq t maxBits ha, mapLines_indent_rows maxBits hlevels hb, ← id_eq (unlines _),
        ← hsum]
      cases t.render maxBits (a + b) <;> rfl
  · intro n tabs
    refine ⟨exists_generate_eq_ok_iff, fun text htext => ?_⟩
    obtain ⟨-, rfl⟩ := generate_eq_ok_iff.mp htext
    rw [listingText_eq_unlines]
    refine ⟨?_, ?_, bisect 0 n 0, ofWidth_natCast n, ?_, ?_, fun w hw => ?_⟩
    · rw [textLines_rows]
    · rw [textLines_rows, List.length_map, length_listing_bisect]
    · rw [textLines_rows, map_leadingTabs_rows_bisect]
    · rw [textLines_rows, map_dropTabs_rows, map_content_listing]
    · obtain ⟨e, he, hsubtree⟩ := subtree_of_mem_writings hw
      rw [Nat.zero_add] at he
      exact ⟨he ▸ hsubtree, content_mem_contents hw⟩

/-- A tree with levels below zero. -/
def lowTree : DecisionTree :=
  .branch 0 (.leaf (-1) (-3)) (.leaf 0 4) (-1)

/-- Three tabs are just enough to show all levels of that tree, and two are not. -/
theorem render_indentation_lowTree :
    (0 : Int) ≤ 3 ∧ (0 : Int) ≤ 2 ∧ (∀ level ∈ lowTree.levels, 0 ≤ level + 3) ∧
      ∃ under under', lowTree.render 9 3 = .ok under ∧ lowTree.render 9 2 = .ok under' ∧
        under = unlines (textLines under) ∧ mapLines dropTabs under = mapLines dropTabs under' ∧
        lowTree.render 9 (3 + 2) = .ok (mapLines (indent (2 : Int).toNat ++ ·) under) := by
  have hlevels : ∀ level ∈ lowTree.levels, 0 ≤ level + 3 := by decide
  have hshort : ∀ n ∈ lowTree.numbers 9, n.natAbs < 10 ^ 4300 := printable_iff.mp (by decide)
  obtain ⟨hthree, hlines, hdrop, hmore⟩ :=
    render_indentation.1 lowTree 9 3 2 (by decide) (by decide)
  obtain ⟨under, hunder⟩ := hthree.mpr hshort
  obtain ⟨under', hunder'⟩ :=
    (render_indentation.1 lowTree 9 2 3 (by decide) (by decide)).1.mpr hshort
  rw [hunder, hunder'] at hdrop
  refine ⟨by decide, by decide, hlevels, under, under', hunder, hunder', hlines under hunder,
    Except.ok.inj hdrop, ?_⟩
  rw [hmore hlevels, hunder]
  rfl

end DecisionTree

end BitReaders
