import BitReaders.Reader.Request
import Mathlib.Data.List.Basic

/-!
# The first name that repeats

What the uniqueness check finds in a list of names. It goes through the list with the names seen
so far; only whether a name has been seen counts, not in which order or how often.

- `firstRepeatAfter_eq_none_iff`: nothing is found iff the names are distinct and new.
- `firstRepeatAfter_congr`: names seen that do not come again are of no account.
- `firstRepeat?_append`: **lists without a common name are checked one by one**: the first repeat
  in the two together is the first one in the first list, or else in the second.
- `checkUnique_eq_ok_iff`, `checkUnique_eq_error_iff`: the check passes iff the names are distinct,
  and otherwise reports the first repeat under its label.
-/

namespace BitReaders

/-! ## The search -/

/-- The search finds nothing exactly in a list of distinct names that are all new. -/
theorem firstRepeatAfter_eq_none_iff (seen names : List String) :
    firstRepeatAfter seen names = none ↔ names.Nodup ∧ ∀ n ∈ names, n ∉ seen := by
  induction names generalizing seen with
  | nil => simp [firstRepeatAfter]
  | cons n ns ih =>
    by_cases hn : n ∈ seen
    · rw [firstRepeatAfter, if_pos hn]
      constructor
      · intro h
        cases h
      · rintro ⟨-, hnew⟩
        exact absurd hn (hnew n List.mem_cons_self)
    · rw [firstRepeatAfter, if_neg hn, ih, List.nodup_cons]
      constructor
      · rintro ⟨hnodup, hnew⟩
        refine ⟨⟨fun h => hnew n h List.mem_cons_self, hnodup⟩, ?_⟩
        intro m hm
        rcases List.mem_cons.mp hm with rfl | hm
        · exact hn
        · exact fun h => hnew m hm (List.mem_cons_of_mem n h)
      · rintro ⟨⟨hnot, hnodup⟩, hnew⟩
        refine ⟨hnodup, fun m hm h => ?_⟩
        rcases List.mem_cons.mp h with rfl | h
        · exact hnot hm
        · exact hnew m (List.mem_cons_of_mem n hm) h

/-- What the search finds depends on which of the names have been seen, and on nothing else. -/
theorem firstRepeatAfter_congr {seen seen' names : List String}
    (h : ∀ n ∈ names, n ∈ seen ↔ n ∈ seen') :
    firstRepeatAfter seen names = firstRepeatAfter seen' names := by
  induction names generalizing seen seen' with
  | nil => rfl
  | cons n ns ih =>
    have hrest : firstRepeatAfter (n :: seen) ns = firstRepeatAfter (n :: seen') ns := by
      refine ih fun m hm => ?_
      rw [List.mem_cons, List.mem_cons, h m (List.mem_cons_of_mem n hm)]
    rw [firstRepeatAfter, firstRepeatAfter, hrest]
    simp only [h n List.mem_cons_self]

/-- The search goes on in a second list with the names of the first one seen. -/
theorem firstRepeatAfter_append (seen ms ns : List String) :
    firstRepeatAfter seen (ms ++ ns) =
      (firstRepeatAfter seen ms).or (firstRepeatAfter (ms.reverse ++ seen) ns) := by
  induction ms generalizing seen with
  | nil => rfl
  | cons m ms ih =>
    rw [List.cons_append, firstRepeatAfter, firstRepeatAfter, ih, List.reverse_cons,
      List.append_assoc, List.singleton_append]
    by_cases hm : m ∈ seen
    · rw [if_pos hm, if_pos hm, Option.some_or]
    · rw [if_neg hm, if_neg hm]

/-- **Lists without a common name** are checked one by one. -/
theorem firstRepeat?_append {ms ns : List String} (h : ms.Disjoint ns) :
    firstRepeat? (ms ++ ns) = (firstRepeat? ms).or (firstRepeat? ns) := by
  have hns : firstRepeatAfter (ms.reverse ++ []) ns = firstRepeatAfter [] ns := by
    refine firstRepeatAfter_congr fun n hn => ?_
    have hnot : n ∉ ms := fun hm => h hm hn
    simp [hnot]
  rw [firstRepeat?, firstRepeatAfter_append, hns]
  rfl

theorem firstRepeat?_eq_none_iff {names : List String} :
    firstRepeat? names = none ↔ names.Nodup := by
  rw [firstRepeat?, firstRepeatAfter_eq_none_iff]
  exact and_iff_left fun n _ => List.not_mem_nil

/-- Lists of which no two have a common name are checked one after the other, up to the first that
has a repeat. -/
theorem firstRepeat?_flatMap {α : Type} {g : α → List String} {l : List α}
    (h : l.Pairwise fun a b => (g a).Disjoint (g b)) :
    firstRepeat? (l.flatMap g) = l.findSome? fun a => firstRepeat? (g a) := by
  induction l with
  | nil => rfl
  | cons a l ih =>
    rw [List.pairwise_cons] at h
    have hdisjoint : (g a).Disjoint (l.flatMap g) := by
      intro n hn hrest
      obtain ⟨b, hb, hnb⟩ := List.mem_flatMap.mp hrest
      exact h.1 b hb hn hnb
    rw [List.flatMap_cons, firstRepeat?_append hdisjoint, ih h.2, List.findSome?_cons]
    cases firstRepeat? (g a) <;> rfl

/-! ## The check -/

theorem checkUnique_eq_ok_iff {names : List String} (what : String) :
    checkUnique names what = .ok () ↔ names.Nodup := by
  rw [← firstRepeat?_eq_none_iff, checkUnique]
  cases firstRepeat? names <;> simp

theorem checkUnique_eq_error_iff {names : List String} {what : String} {r : Repetition} :
    checkUnique names what = .error r ↔ ∃ n, firstRepeat? names = some n ∧ r = ⟨what, n⟩ := by
  rw [checkUnique]
  cases firstRepeat? names <;> simp [eq_comm]

/-- A result that waits for the check is given iff the names are distinct. -/
theorem map_checkUnique_eq_ok_iff {α : Type} {names : List String} {what : String} {a b : α} :
    ((checkUnique names what).map fun _ => a) = .ok b ↔ names.Nodup ∧ a = b := by
  rw [← checkUnique_eq_ok_iff what]
  cases checkUnique names what <;> simp [Except.map]

theorem map_checkUnique_eq_error_iff {α : Type} {names : List String} {what : String} {a : α}
    {r : Repetition} :
    ((checkUnique names what).map fun _ => a) = .error r ↔
      ∃ n, firstRepeat? names = some n ∧ r = ⟨what, n⟩ := by
  rw [← checkUnique_eq_error_iff]
  cases checkUnique names what <;> simp [Except.map]

/-! ## Class names -/

/-- The variants of some families are listed iff their class names are distinct. -/
theorem allVariants_eq_ok_iff {fs : List Family} {vs : List Variant} :
    allVariants fs = .ok vs ↔
      ((fs.flatMap Family.variants).map Variant.className).Nodup ∧
        fs.flatMap Family.variants = vs :=
  map_checkUnique_eq_ok_iff

/-- They are refused for the first class name that repeats. -/
theorem allVariants_eq_error_iff {fs : List Family} {r : Repetition} :
    allVariants fs = .error r ↔
      ∃ n, firstRepeat? ((fs.flatMap Family.variants).map Variant.className) = some n ∧
        r = ⟨classNameLabel, n⟩ :=
  map_checkUnique_eq_error_iff

/-- Some class name is refused iff the class names are not distinct. -/
theorem exists_allVariants_eq_error_iff {fs : List Family} :
    (∃ n, allVariants fs = .error ⟨classNameLabel, n⟩) ↔
      ¬ ((fs.flatMap Family.variants).map Variant.className).Nodup := by
  rw [← firstRepeat?_eq_none_iff, ← ne_eq, Option.ne_none_iff_exists']
  simp [allVariants_eq_error_iff]

end BitReaders
