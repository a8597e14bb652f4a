/-!
# Line ends

A line may end in a line feed, a carriage return, or a carriage return before a line feed. Text
read from a file has line feeds only.

- `foldLineEnds`: every line end as one line feed.
-/

namespace BitReaders

/-- Every line end as a line feed. -/
def foldLineEnds : List Char → List Char
  | [] => []
  | '\r' :: '\n' :: cs => '\n' :: foldLineEnds cs
  | c :: cs => (if c = '\r' then '\n' else c) :: foldLineEnds cs

/-- Text without carriage returns has its line ends folded already. -/
theorem foldLineEnds_eq_self {cs : List Char} (h : '\r' ∉ cs) : foldLineEnds cs = cs := by
  fun_induction foldLineEnds cs with
  | case1 => rfl
  | case2 cs ih => simp at h
  | case3 c cs _ ih =>
    simp only [List.mem_cons, not_or] at h
    rw [if_neg (Ne.symm h.1), ih h.2]

end BitReaders
