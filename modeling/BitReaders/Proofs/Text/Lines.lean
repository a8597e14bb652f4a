import Mathlib.Data.List.Basic

/-!
# Texts of lines

A text of lines is put together from lines that each end in a newline, and taken apart again at the
newlines.

- `dropLast_splitOn_flatMap`, `append_cons_inj_of_not_mem`: pieces that each end in a separator are
  found again, all of them or the first.
- `textLines`, `unlines`: the lines of a text, and the text of lines. Lines without newlines are
  found again in their text (`textLines_unlines`).
- `mapLines`: a text with each of its lines changed.
- `indent`, `leadingTabs`, `dropTabs`: tabs at the start of a line, their number, and the line
  without them. A line that starts with no tab of its own is found again behind the tabs put before
  it (`leadingTabs_indent_append`, `dropTabs_indent_append`).
-/

namespace BitReaders

/-! ## Pieces between separators -/

section Pieces

variable {x : Char} {l w : List Char}

/-- A piece has no separator, and nothing that is not in the whole. -/
theorem not_mem_and_subset_of_mem_splitOn (h : w ∈ l.splitOn x) : x ∉ w ∧ w ⊆ l := by
  induction l generalizing w with
  | nil =>
    rw [List.splitOn, List.splitOnP_nil, List.mem_singleton] at h
    subst h
    exact ⟨List.not_mem_nil, List.nil_subset _⟩
  | cons c l ih =>
    -- The first character ends an empty piece, or goes in front of the first piece of the rest.
    rw [List.splitOn_cons_eq_if_modifyHead] at h
    obtain ⟨p, ps, hps⟩ := List.exists_cons_of_ne_nil (List.splitOn_ne_nil x l)
    rw [hps] at h ih
    split at h
    · rcases List.mem_cons.mp h with rfl | h
      · exact ⟨List.not_mem_nil, List.nil_subset _⟩
      · exact ⟨(ih h).1, List.subset_cons_of_subset c (ih h).2⟩
    · rename_i hc
      have hne : x ≠ c := fun heq => hc (beq_iff_eq.mpr heq.symm)
      rw [List.modifyHead_cons] at h
      rcases List.mem_cons.mp h with rfl | h
      · obtain ⟨hnot, hsub⟩ := ih List.mem_cons_self
        exact ⟨List.not_mem_cons_of_ne_of_not_mem hne hnot, List.cons_subset_cons c hsub⟩
      · obtain ⟨hnot, hsub⟩ := ih (List.mem_cons_of_mem p h)
        exact ⟨hnot, List.subset_cons_of_subset c hsub⟩

/-- What is in no piece and not in the separator is not in the whole. -/
theorem not_mem_intercalate {sep : List Char} {ls : List (List Char)} (hsep : x ∉ sep)
    (h : ∀ w ∈ ls, x ∉ w) : x ∉ sep.intercalate ls := by
  induction ls with
  | nil => exact List.not_mem_nil
  | cons w ls ih =>
    obtain ⟨hw, hls⟩ := List.forall_mem_cons.mp h
    cases ls with
    | nil => rwa [List.intercalate_singleton]
    | cons w' ls =>
      rw [List.intercalate_cons_cons, List.mem_append, List.mem_append]
      rintro ((hmem | hmem) | hmem)
      · exact hw hmem
      · exact hsep hmem
      · exact ih hls hmem

/-- Lines that each end in a separator are found before the last cut. -/
theorem dropLast_splitOn_flatMap {ls : List (List Char)} (h : ∀ w ∈ ls, x ∉ w) :
    ((ls.flatMap (· ++ [x])).splitOn x).dropLast = ls := by
  induction ls with
  | nil => rfl
  | cons w ls ih =>
    obtain ⟨hw, hls⟩ := List.forall_mem_cons.mp h
    rw [List.flatMap_cons, List.append_assoc, List.singleton_append,
      List.splitOn_append_cons_self_of_not_mem hw,
      List.dropLast_cons_of_ne_nil (List.splitOn_ne_nil x _), ih hls]

/-- What stands in front of the first separator and what behind it. -/
theorem append_cons_inj_of_not_mem {l' rest rest' : List Char} (hl : x ∉ l) (hl' : x ∉ l')
    (h : l ++ x :: rest = l' ++ x :: rest') : l = l' ∧ rest = rest' := by
  induction l generalizing l' with
  | nil =>
    cases l' with
    | nil => exact ⟨rfl, List.tail_eq_of_cons_eq h⟩
    | cons c l' =>
      obtain rfl := List.head_eq_of_cons_eq h
      exact absurd List.mem_cons_self hl'
  | cons c l ih =>
    cases l' with
    | nil =>
      obtain rfl := List.head_eq_of_cons_eq h
      exact absurd List.mem_cons_self hl
    | cons c' l' =>
      obtain ⟨rfl, htail⟩ := List.cons.inj h
      obtain ⟨rfl, hrest⟩ := ih (List.not_mem_of_not_mem_cons hl)
        (List.not_mem_of_not_mem_cons hl') htail
      exact ⟨rfl, hrest⟩

end Pieces

/-! ## Lines -/

/-- The lines of a text: it is cut at newlines, and what is left after the last of them is
dropped. -/
def textLines (text : String) : List String :=
  ((text.toList.splitOn '\n').dropLast).map String.ofList

/-- The text of lines, each ended by a newline. -/
def unlines (lines : List String) : String :=
  String.join (lines.map (· ++ "\n"))

/-- A text with a function applied to each of its lines. -/
def mapLines (f : String → String) (text : String) : String :=
  unlines ((textLines text).map f)

section Lines

variable {lines : List String}

/-- Lines without newlines are the lines of their text. -/
theorem textLines_unlines (h : ∀ line ∈ lines, '\n' ∉ line.toList) :
    textLines (unlines lines) = lines := by
  have htext : (unlines lines).toList = (lines.map String.toList).flatMap (· ++ ['\n']) := by
    simp [unlines, String.toList_join, List.flatMap_map]
  rw [textLines, htext, dropLast_splitOn_flatMap (List.forall_mem_map.mpr h), List.map_map]
  simp [Function.comp_def]

theorem mapLines_unlines (f : String → String) (h : ∀ line ∈ lines, '\n' ∉ line.toList) :
    mapLines f (unlines lines) = unlines (lines.map f) := by
  rw [mapLines, textLines_unlines h]

end Lines

/-! ## Tabs in front of a line -/

/-- Some tabs. -/
def indent (n : Nat) : String :=
  String.ofList (List.replicate n '\t')

/-- The number of tabs that a line starts with. -/
def leadingTabs (line : String) : Nat :=
  (line.toList.takeWhile (· == '\t')).length

/-- A line without the tabs that it starts with. -/
def dropTabs (line : String) : String :=
  String.ofList (line.toList.dropWhile (· == '\t'))

theorem indent_add (m n : Nat) : indent (m + n) = indent m ++ indent n := by
  rw [indent, indent, indent, ← String.ofList_append, List.replicate_append_replicate]

theorem toList_indent (n : Nat) : (indent n).toList = List.replicate n '\t' :=
  String.toList_ofList

section Tabs

variable {line : String}

/-- What follows the tabs in front of a line that starts with none. -/
theorem takeWhile_dropWhile_tab (h : line.toList.head? ≠ some '\t') :
    line.toList.takeWhile (· == '\t') = [] ∧ line.toList.dropWhile (· == '\t') = line.toList := by
  cases hline : line.toList with
  | nil => exact ⟨rfl, rfl⟩
  | cons c cs =>
    have hc : ¬ (c == '\t') = true := by
      intro hc
      rw [hline, eq_of_beq hc] at h
      exact h rfl
    exact ⟨List.takeWhile_cons_of_neg hc, List.dropWhile_cons_of_neg hc⟩

theorem forall_mem_replicate_tab (n : Nat) :
    ∀ c ∈ List.replicate n '\t', (c == '\t') = true := by
  intro c hc
  rw [List.eq_of_mem_replicate hc]
  rfl

theorem leadingTabs_indent_append (n : Nat) (h : line.toList.head? ≠ some '\t') :
    leadingTabs (indent n ++ line) = n := by
  rw [leadingTabs, String.toList_append, toList_indent,
    List.takeWhile_append_of_pos (forall_mem_replicate_tab n), (takeWhile_dropWhile_tab h).1,
    List.append_nil, List.length_replicate]

theorem dropTabs_indent_append (n : Nat) (h : line.toList.head? ≠ some '\t') :
    dropTabs (indent n ++ line) = line := by
  rw [dropTabs, String.toList_append, toList_indent,
    List.dropWhile_append_of_pos (forall_mem_replicate_tab n), (takeWhile_dropWhile_tab h).2,
    String.ofList_toList]

end Tabs

end BitReaders
