import BitReaders.Text.Blank
import Mathlib.Data.List.TakeWhile

/-!
# Trimmed lists

What has a property is trimmed off at the two ends of a list, and nothing else.

- `mem_trimEnds`: what does not have the property is kept.
- `exists_eq_append_trimEnds`: what is trimmed off has the property, and stands at the ends.
- `trimEnds_append`: what has the property is of no account at the ends.
- `trimEnds_eq_self`: nothing is trimmed off a list if nothing in it has the property.
-/

namespace BitReaders

variable {α : Type} {p : α → Bool} {before mid after l : List α} {a : α}

/-- Trimming loses only what is trimmed. -/
theorem mem_trimEnds (ha : a ∈ l) (hp : p a = false) : a ∈ trimEnds p l := by
  have hdrop : ∀ l : List α, a ∈ l → a ∈ l.dropWhile p := by
    intro l hl
    rw [← List.takeWhile_append_dropWhile (p := p) (l := l), List.mem_append] at hl
    rcases hl with hl | hl
    · have hpa : p a = true := List.mem_takeWhile_imp hl
      rw [hp] at hpa
      cases hpa
    · exact hl
  have hfront := List.mem_reverse.mpr (hdrop l ha)
  exact List.mem_reverse.mpr (hdrop _ hfront)

/-- What is trimmed off is at the ends. -/
theorem exists_eq_append_trimEnds (p : α → Bool) (l : List α) :
    ∃ before after, l = before ++ (trimEnds p l ++ after) ∧ (∀ a ∈ before, p a = true) ∧
      ∀ a ∈ after, p a = true := by
  refine ⟨l.takeWhile p, ((l.dropWhile p).reverse.takeWhile p).reverse, ?_, ?_, ?_⟩
  · rw [trimEnds, ← List.reverse_append, List.takeWhile_append_dropWhile, List.reverse_reverse,
      List.takeWhile_append_dropWhile]
  · exact fun a => List.mem_takeWhile_imp
  · exact fun a ha => List.mem_takeWhile_imp (List.mem_reverse.mp ha)

/-- All that stands at the ends is trimmed off. -/
theorem trimEnds_append (hbefore : ∀ a ∈ before, p a = true) (hafter : ∀ a ∈ after, p a = true) :
    trimEnds p (before ++ (mid ++ after)) = trimEnds p mid := by
  have hend : ∀ l : List α, (after.reverse ++ l).dropWhile p = l.dropWhile p := fun l =>
    List.dropWhile_append_of_pos fun a ha => hafter a (List.mem_reverse.mp ha)
  rw [trimEnds, trimEnds, List.dropWhile_append_of_pos hbefore, List.dropWhile_append]
  by_cases hmid : mid.dropWhile p = []
  · -- Nothing is left, so that what stands behind is trimmed off from the front.
    rw [hmid, List.dropWhile_eq_nil_iff.mpr hafter]
    rfl
  · rw [if_neg fun hempty => hmid (List.isEmpty_iff.mp hempty), List.reverse_append, hend]

/-- Nothing is trimmed off if nothing is to be. -/
theorem trimEnds_eq_self (h : ∀ a ∈ l, p a = false) : trimEnds p l = l := by
  have hdrop : ∀ l : List α, (∀ a ∈ l, p a = false) → l.dropWhile p = l := by
    intro l hl
    cases l with
    | nil => rfl
    | cons a l =>
      exact List.dropWhile_cons_of_neg (Bool.eq_false_iff.mp (hl a List.mem_cons_self))
  rw [trimEnds, hdrop l h, hdrop _ fun a ha => h a (List.mem_reverse.mp ha), List.reverse_reverse]

end BitReaders
