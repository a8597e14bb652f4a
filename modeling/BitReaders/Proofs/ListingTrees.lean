import BitReaders.Proofs.ListingLines

/-!
# A listing tells its tree

Two listings with the same text are listings of the same tree under the same tabs. The contents of
the lines tell the shape, with the brackets of the branches around their sides, and the middles and
the positions. Levels are shown in the comments of the leaves only. But a leaf's level and its
indentation give the tabs, and with the tabs the indentation of a branch gives the branch's level.

- `toString_append_space_inj`: an integer is found again in front of a space.
- `leafContent_inj`, `branchContent_inj`, `leafContent_ne_branchContent`: what a content tells.
- `Listable`: nothing is lost when a tree is listed: no position is below -1, for a leaf does not
  show how far its position is below zero, and no indentation is below zero.
- `listing_append_inj`: **the places of the lines tell the tree**, in front of any other places.
- `render_eq_render_iff`: **listings of trees are equal iff the trees and the tabs are**.
-/

namespace BitReaders

open Conditional (of_mem_toString toString_int_injective)

/-! ## Integers in front of a space -/

theorem space_not_mem_toString (i : Int) : ' ' ∉ (toString i).toList :=
  fun h => absurd (of_mem_toString h) (by decide)

/-- An integer is found again in front of a space. -/
theorem toString_append_space_inj {i j : Int} {rest rest' : List Char}
    (h : (toString i).toList ++ ' ' :: rest = (toString j).toList ++ ' ' :: rest') :
    i = j ∧ rest = rest' := by
  obtain ⟨hint, hrest⟩ :=
    append_cons_inj_of_not_mem (space_not_mem_toString i) (space_not_mem_toString j) h
  exact ⟨toString_int_injective hint, hrest⟩

namespace DecisionTree

/-! ## What a content tells -/

/-- The leaf for zero and the negative numbers is told from the others by its first character. -/
theorem leafContent_ne_of_neg {position position' : Int} (hneg : position < 0)
    (hnonneg : ¬ position' < 0) (level level' maxBits maxBits' : Int) :
    leafContent position level maxBits ≠ leafContent position' level' maxBits' := by
  intro h
  obtain ⟨c, hc, hdigit⟩ := exists_head?_leafContent_nonneg hnonneg level' maxBits'
  rw [← h, head?_leafContent_neg hneg] at hc
  cases hc
  exact absurd hdigit (by decide)

/-- The content of a leaf tells its position and its level. If it is the leaf for zero and the
negative numbers, it tells the answer for the latter too. -/
theorem leafContent_inj {position position' level level' maxBits maxBits' : Int}
    (hposition : -1 ≤ position) (hposition' : -1 ≤ position')
    (h : leafContent position level maxBits = leafContent position' level' maxBits') :
    position = position' ∧ level = level' ∧ (position = -1 → maxBits = maxBits') := by
  have hchars := congrArg String.toList h
  by_cases hneg : position < 0
  · by_cases hneg' : position' < 0
    · rw [toList_leafContent_neg hneg, toList_leafContent_neg hneg'] at hchars
      -- the answer for the negative numbers, a constant text, and then the level in its comment
      obtain ⟨hmax, hrest⟩ := toString_append_space_inj (List.append_cancel_left hchars)
      obtain ⟨hlevel, -⟩ := toString_append_space_inj
        (List.append_cancel_left (show ": -1 /* ".toList ++ _ = ": -1 /* ".toList ++ _ from hrest))
      exact ⟨by omega, by omega, fun _ => hmax⟩
    · exact absurd h (leafContent_ne_of_neg hneg hneg' _ _ _ _)
  · by_cases hneg' : position' < 0
    · exact absurd h.symm (leafContent_ne_of_neg hneg' hneg _ _ _ _)
    · rw [toList_leafContent_nonneg hneg, toList_leafContent_nonneg hneg'] at hchars
      obtain ⟨hpos, hrest⟩ := toString_append_space_inj hchars
      obtain ⟨hlevel, -⟩ := toString_append_space_inj
        (List.append_cancel_left (show "/* ".toList ++ _ = "/* ".toList ++ _ from hrest))
      exact ⟨hpos, hlevel, by omega⟩

theorem branchContent_inj {middle middle' : Int}
    (h : branchContent middle = branchContent middle') : middle = middle' := by
  have hchars := congrArg String.toList h
  rw [toList_branchContent, toList_branchContent] at hchars
  exact (toString_append_space_inj (List.append_cancel_left hchars)).1

/-- Only the content of a branch starts with a bracket. -/
theorem leafContent_ne_branchContent (position level maxBits middle : Int) :
    leafContent position level maxBits ≠ branchContent middle := by
  intro h
  have hbracket := head?_branchContent middle
  rw [← h] at hbracket
  by_cases hneg : position < 0
  · rw [head?_leafContent_neg hneg] at hbracket
    exact absurd hbracket (by decide)
  · obtain ⟨c, hc, hdigit⟩ := exists_head?_leafContent_nonneg hneg level maxBits
    rw [hc] at hbracket
    cases hbracket
    exact absurd hdigit (by decide)

/-! ## What the places tell -/

section

variable {maxBits maxBits' tabs tabs' : Int}

/-- **The places tell the tree**, in front of any other places. By induction on the tree: a first
place tells whether a leaf or a branch follows, and the leaves tell the tabs. -/
theorem listing_append_inj {t t' : DecisionTree} {rest rest' : List (Int × String)}
    (ht : ∀ leaf ∈ t.leaves, -1 ≤ leaf.1) (ht' : ∀ leaf ∈ t'.leaves, -1 ≤ leaf.1)
    (h : (t.listing maxBits).map (Line.place tabs) ++ rest =
      (t'.listing maxBits').map (Line.place tabs') ++ rest') :
    t = t' ∧ tabs = tabs' ∧ (-1 ∈ t.leaves.map (·.1) → maxBits = maxBits') ∧ rest = rest' := by
  induction t generalizing t' rest rest' with
  | leaf position level =>
    cases t' with
    | leaf position' level' =>
      obtain ⟨hplace, hrest⟩ := List.cons.inj h
      obtain ⟨hindent, hcontent⟩ := Prod.mk.inj hplace
      obtain ⟨rfl, rfl, hmax⟩ := leafContent_inj (ht _ (List.mem_singleton_self _))
        (ht' _ (List.mem_singleton_self _)) hcontent
      refine ⟨rfl, (Int.add_left_inj _).mp hindent, fun hsign => ?_, hrest⟩
      exact hmax (List.mem_singleton.mp hsign).symm
    | branch middle' low' high' level' =>
      have hcontent := congrArg Prod.snd (List.head_eq_of_cons_eq h)
      exact absurd hcontent (leafContent_ne_branchContent position level maxBits middle')
  | branch middle low high level ihlow ihhigh =>
    cases t' with
    | leaf position' level' =>
      have hcontent := congrArg Prod.snd (List.head_eq_of_cons_eq h)
      exact absurd hcontent.symm (leafContent_ne_branchContent position' level' maxBits' middle)
    | branch middle' low' high' level' =>
      rw [leaves, List.forall_mem_append] at ht ht'
      simp only [listing, List.map_cons, List.map_append, List.cons_append, List.append_assoc] at h
      obtain ⟨hplace, hsides⟩ := List.cons.inj h
      obtain ⟨hindent, hcontent⟩ := Prod.mk.inj hplace
      -- the low side ends where the line between the sides begins, and it tells the tabs
      obtain ⟨rfl, rfl, hmaxlow, hrest⟩ := ihlow ht.1 ht'.1 hsides
      obtain ⟨rfl, -, hmaxhigh, hclose⟩ := ihhigh ht.2 ht'.2 (List.tail_eq_of_cons_eq hrest)
      obtain rfl : level = level' := Int.add_left_cancel hindent
      obtain rfl := branchContent_inj hcontent
      refine ⟨rfl, rfl, fun hsign => ?_, List.tail_eq_of_cons_eq hclose⟩
      rw [leaves, List.map_append, List.mem_append] at hsign
      exact hsign.elim hmaxlow hmaxhigh

end

/-! ## Listings -/

/-- A tree that loses nothing in its listing under some tabs: no position is below -1, and no node
has an indentation below zero. -/
structure Listable (t : DecisionTree) (tabs : Int) : Prop where
  tabs_nonneg : 0 ≤ tabs
  position_ge : ∀ leaf ∈ t.leaves, -1 ≤ leaf.1
  indent_nonneg : ∀ level ∈ t.levels, 0 ≤ tabs + level

/-- The place that a row tells. -/
def placeOf (row : String) : Int × String :=
  (leadingTabs row, dropTabs row)

/-- If no indentation is below zero, the rows of a listing tell the places. -/
theorem map_placeOf_rows {t : DecisionTree} {tabs : Int} (h : t.Listable tabs) (maxBits : Int) :
    ((t.listing maxBits).map (Line.row tabs)).map placeOf =
      (t.listing maxBits).map (Line.place tabs) := by
  rw [List.map_map]
  refine List.map_congr_left fun l hl => ?_
  have hindent := h.indent_nonneg l.level (neat_of_mem_listing hl).2
  show ((leadingTabs (l.row tabs) : Int), dropTabs (l.row tabs)) = l.place tabs
  rw [leadingTabs_row hl, dropTabs_row hl, Int.toNat_of_nonneg hindent, Line.place]

/-- The greatest width stands in the lines of the leaves for zero only. -/
theorem lines_congr {t : DecisionTree} {maxBits maxBits' : Int}
    (hpositions : ∀ leaf ∈ t.leaves, -1 ≤ leaf.1)
    (h : -1 ∈ t.leaves.map (·.1) → maxBits = maxBits') : t.lines maxBits = t.lines maxBits' := by
  induction t with
  | leaf position level =>
    by_cases hneg : position < 0
    · have hposition := hpositions _ (List.mem_singleton_self _)
      have hsign : position = -1 := by
        dsimp only at hposition
        omega
      rw [h (List.mem_singleton.mpr hsign.symm)]
    · rw [lines, lines, leafLine, leafLine, if_neg hneg, if_neg hneg]
  | branch middle low high level ihlow ihhigh =>
    rw [leaves, List.forall_mem_append] at hpositions
    rw [leaves, List.map_append] at h
    rw [lines, lines, ihlow hpositions.1 fun hsign => h (List.mem_append_left _ hsign),
      ihhigh hpositions.2 fun hsign => h (List.mem_append_right _ hsign)]

/-- Texts of rows without newlines are equal only if the rows are. -/
theorem rows_eq_of_unlines_eq {t t' : DecisionTree} {maxBits maxBits' tabs tabs' : Int}
    (h : unlines ((t.listing maxBits).map (Line.row tabs)) =
      unlines ((t'.listing maxBits').map (Line.row tabs'))) :
    (t.listing maxBits).map (Line.row tabs) = (t'.listing maxBits').map (Line.row tabs') := by
  rw [← textLines_rows t maxBits tabs, h, textLines_rows]

/-- A listing tells its tree and its tabs. -/
theorem Listable.eq_of_listingText_eq {t t' : DecisionTree} {maxBits maxBits' tabs tabs' : Int}
    (ht : t.Listable tabs) (ht' : t'.Listable tabs')
    (h : t.listingText maxBits tabs = t'.listingText maxBits' tabs') :
    t = t' ∧ tabs = tabs' ∧ (-1 ∈ t.leaves.map (·.1) → maxBits = maxBits') := by
  rw [listingText_eq_unlines, listingText_eq_unlines] at h
  have hplaces := congrArg (List.map placeOf) (rows_eq_of_unlines_eq h)
  rw [map_placeOf_rows ht, map_placeOf_rows ht'] at hplaces
  have happend := congrArg (· ++ ([] : List (Int × String))) hplaces
  obtain ⟨htree, htabs, hmax, -⟩ := listing_append_inj ht.position_ge ht'.position_ge happend
  exact ⟨htree, htabs, hmax⟩

/-- Balanced trees can be listed under any tabs. -/
theorem listable_bisect (n : Nat) {tabs : Int} (h : 0 ≤ tabs) : (bisect 0 n 0).Listable tabs := by
  refine ⟨h, ?_, ?_⟩
  · intro leaf hleaf
    have hposition := List.mem_map_of_mem (f := Prod.fst) hleaf
    rw [map_position_leaves_bisect, List.mem_cons, List.mem_map] at hposition
    rcases hposition with hposition | ⟨bit, -, hposition⟩ <;> omega
  · intro level hlevel
    obtain ⟨d, s, hs, rfl⟩ := mem_levels_iff.mp hlevel
    obtain ⟨lo, extra, rfl⟩ := exists_bisect_of_subtree _ _ _ _ _ hs
    rw [level_bisect]
    omega

/-- A width is listed under some tabs only if neither is negative. -/
theorem exists_eq_natCast_of_generate {n tabs : Int} {text : String}
    (h : generate n tabs = .ok text) : ∃ m k : Nat, n = m ∧ tabs = k := by
  unfold generate ofWidth at h
  by_cases hn : n < 0
  · rw [if_pos hn] at h
    cases h
  · rw [if_neg hn] at h
    by_cases htabs : tabs < 0
    · replace h : render _ n tabs = _ := h
      rw [render, if_pos htabs] at h
      cases h
    · exact ⟨n.toNat, tabs.toNat, by omega, by omega⟩

/-- **Listings are equal iff their trees and their tabs are.** Let two trees be such that nothing of
them is lost when they are listed under some tabs each. If the first one has a listing, and it has
just if no integer in it has more than 4300 digits, then this is the listing of the second iff the
trees are equal, in their shape, middles, positions and levels, the tabs are equal, and the greatest
widths are if there is a leaf of position -1 to show it. So the listing of a balanced tree tells its
width and its tabs. -/
theorem render_eq_render_iff :
    (∀ (t t' : DecisionTree) (maxBits maxBits' tabs tabs' : Int),
      t.Listable tabs → t'.Listable tabs' →
        ((∃ text, t.render maxBits tabs = .ok text) ↔
          ∀ n ∈ t.numbers maxBits, n.natAbs < 10 ^ 4300) ∧
          ∀ text, t.render maxBits tabs = .ok text →
            (t'.render maxBits' tabs' = .ok text ↔
              t = t' ∧ tabs = tabs' ∧ (-1 ∈ t.leaves.map (·.1) → maxBits = maxBits'))) ∧
      ∀ (n n' tabs tabs' : Int) (text : String),
        generate n tabs = .ok text → generate n' tabs' = .ok text → n = n' ∧ tabs = tabs' := by
  constructor
  · intro t t' maxBits maxBits' tabs tabs' ht ht'
    refine ⟨exists_render_eq_ok_iff ht.tabs_nonneg, fun text htext => ⟨fun htext' => ?_, ?_⟩⟩
    · obtain ⟨-, rfl⟩ := (render_eq_ok_iff ht.tabs_nonneg).mp htext
      exact ht.eq_of_listingText_eq ht' ((render_eq_ok_iff ht'.tabs_nonneg).mp htext').2
    · rintro ⟨rfl, rfl, hmax⟩
      rwa [render, ← lines_congr ht.position_ge hmax]
  · intro n n' tabs tabs' text h h'
    obtain ⟨n, tabs, rfl, rfl⟩ := exists_eq_natCast_of_generate h
    obtain ⟨n', tabs', rfl, rfl⟩ := exists_eq_natCast_of_generate h'
    obtain ⟨-, rfl⟩ := generate_eq_ok_iff.mp h
    obtain ⟨-, htabs, hmax⟩ := (listable_bisect n (Int.natCast_nonneg tabs)).eq_of_listingText_eq
      (listable_bisect n' (Int.natCast_nonneg tabs')) (generate_eq_ok_iff.mp h').2
    refine ⟨hmax ?_, htabs⟩
    rw [map_position_leaves_bisect]
    exact List.mem_cons_self

/-- A tree with a branch at a level that only the branch's own indentation shows. -/
def hangingBranch (level : Int) : DecisionTree :=
  .branch 3 (.leaf (-1) (-1)) (.branch 0 (.leaf 7 2) (.leaf 0 0) level) 1

/-- Two such trees that differ in the level of that branch. -/
theorem render_eq_render_iff_hangingBranch :
    (hangingBranch 4).Listable 1 ∧ (hangingBranch 5).Listable 1 ∧
      ∃ text, (hangingBranch 4).render (-6) 1 = .ok text ∧
        ((hangingBranch 5).render (-6) 1 = .ok text ↔
          hangingBranch 4 = hangingBranch 5 ∧ (1 : Int) = 1 ∧
            (-1 ∈ (hangingBranch 4).leaves.map (·.1) → (-6 : Int) = -6)) := by
  have hfour : (hangingBranch 4).Listable 1 := ⟨by decide, by decide, by decide⟩
  have hfive : (hangingBranch 5).Listable 1 := ⟨by decide, by decide, by decide⟩
  have hshort : ∀ n ∈ (hangingBranch 4).numbers (-6), n.natAbs < 10 ^ 4300 :=
    printable_iff.mp (by decide)
  obtain ⟨hexists, hiff⟩ := render_eq_render_iff.1 _ _ (-6) (-6) _ _ hfour hfive
  obtain ⟨text, htext⟩ := hexists.mpr hshort
  exact ⟨hfour, hfive, text, htext, hiff text htext⟩

end DecisionTree

end BitReaders
