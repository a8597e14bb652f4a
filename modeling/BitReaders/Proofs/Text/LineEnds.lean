import BitReaders.Text.LineEnds

/-!
# Storing line ends

A text may be stored with each newline as one of the three line ends. They are folded when it is
read.

- `mem_foldLineEnds`, `foldLineEnds_append`: folding makes no characters but newlines, and works on
  parts of a text unless it is cut inside a line end.
- `LineEnd`, `LineEnd.store`: a line end, and a text with each newline stored as that.
-/

namespace BitReaders

/-! ## Folding -/

/-- Folding keeps characters, or makes newlines. -/
theorem mem_foldLineEnds {c : Char} {cs : List Char} (h : c ∈ foldLineEnds cs) :
    c = '\n' ∨ c ∈ cs := by
  fun_induction foldLineEnds cs with
  | case1 => cases h
  | case2 cs ih =>
    rcases List.mem_cons.mp h with rfl | h
    · exact .inl rfl
    · exact (ih h).imp_right fun h => List.mem_cons_of_mem _ (List.mem_cons_of_mem _ h)
  | case3 d cs _ ih =>
    rcases List.mem_cons.mp h with rfl | h
    · split
      · exact .inl rfl
      · exact .inr List.mem_cons_self
    · exact (ih h).imp_right (List.mem_cons_of_mem _)

/-- A text is folded in two parts, if the second does not go on with a line end of the first. -/
theorem foldLineEnds_append {ds : List Char} (h : ds.head? ≠ some '\n') (cs : List Char) :
    foldLineEnds (cs ++ ds) = foldLineEnds cs ++ foldLineEnds ds := by
  fun_induction foldLineEnds cs with
  | case1 => rfl
  | case2 cs ih => rw [List.cons_append, List.cons_append, foldLineEnds, ih, List.cons_append]
  | case3 c cs hne ih =>
    -- What follows is no newline after a carriage return, whether it is of the first part or not.
    have hne' : ∀ es, c = '\r' → cs ++ ds ≠ '\n' :: es := by
      rintro es rfl heq
      cases cs with
      | nil =>
        rw [List.nil_append] at heq
        exact h (heq ▸ rfl)
      | cons d cs =>
        obtain ⟨rfl, -⟩ := List.cons.inj heq
        exact hne cs rfl rfl
    rw [List.cons_append, foldLineEnds, ih, List.cons_append]
    exact fun es hc hes => hne' es hc hes

/-- Text without carriage returns stays as it is in front of another one. -/
theorem foldLineEnds_append_of_not_mem {cs : List Char} (h : '\r' ∉ cs) (ds : List Char) :
    foldLineEnds (cs ++ ds) = cs ++ foldLineEnds ds := by
  induction cs with
  | nil => rfl
  | cons c cs ih =>
    rw [List.mem_cons, not_or] at h
    rw [List.cons_append, foldLineEnds, ih h.2, if_neg (Ne.symm h.1), List.cons_append]
    exact fun es hc _ => h.1 hc.symm

/-! ## Storing -/

/-- A line end. -/
inductive LineEnd where
  | lineFeed
  | carriageReturn
  | both
  deriving DecidableEq, Repr

namespace LineEnd

/-- The characters of a line end. -/
def chars : LineEnd → List Char
  | .lineFeed => ['\n']
  | .carriageReturn => ['\r']
  | .both => ['\r', '\n']

/-- A text with each newline stored as a line end. -/
def store (e : LineEnd) (cs : List Char) : List Char :=
  cs.flatMap fun c => if c = '\n' then e.chars else [c]

theorem store_append (e : LineEnd) (cs ds : List Char) :
    e.store (cs ++ ds) = e.store cs ++ e.store ds :=
  List.flatMap_append

/-- Text without newlines is stored as it is. -/
theorem store_of_not_mem (e : LineEnd) {cs : List Char} (h : '\n' ∉ cs) : e.store cs = cs := by
  induction cs with
  | nil => rfl
  | cons c cs ih =>
    rw [List.mem_cons, not_or] at h
    rw [store, List.flatMap_cons, if_neg (Ne.symm h.1)]
    exact congrArg (c :: ·) (ih h.2)

/-- A character that is stored is one of the text, or of a line end. -/
theorem mem_store {e : LineEnd} {c : Char} {cs : List Char} (h : c ∈ e.store cs) :
    c ∈ e.chars ∨ c ∈ cs := by
  obtain ⟨d, hd, hc⟩ := List.mem_flatMap.mp h
  split at hc
  · exact .inl hc
  · exact .inr (List.mem_singleton.mp hc ▸ hd)

end LineEnd

end BitReaders
