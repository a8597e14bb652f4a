import BitReaders.DecisionTree.Basic

/-!
# Listings of decision trees

A tree is written as a conditional expression in the variable `x`, one node part a line, indented
by tabs.

- `Line`: a line of a listing, with its level and its content.
- `DecisionTree.printed`: the text of an integer, which has a limit on its digits.
- `DecisionTree.lines`: a leaf is one line with its answer and, in a comment, the number of
  comparisons that lead to it; a branch puts its two listings between three lines of its own.
- `DecisionTree.render`: the text, every line ended by a newline.
- `generate`: the text of the balanced tree of a width.
-/

namespace BitReaders

/-- A line of a listing. -/
structure Line where
  level : Int
  content : String
  deriving DecidableEq, Repr

/-- The text of a line under `tabs` tabs. A negative sum of `tabs` and level gives no tab. -/
def Line.text (tabs : Int) (l : Line) : String :=
  String.ofList (List.replicate (tabs + l.level).toNat '\t') ++ l.content ++ "\n"

namespace DecisionTree

/-- The text of an integer, if it can be printed. -/
def printed (n : Int) : Except Error String :=
  if Numeral.Fits n then .ok (toString n) else .error .oversized

/-- The line of a leaf. The answer for zero and the negative numbers takes one more comparison. -/
def leafLine (position level maxBits : Int) : Except Error Line :=
  if position < 0 then do
    let greatest ← printed maxBits
    let comparisons ← printed (level + 1)
    return ⟨level, "x < 0 ? " ++ greatest ++ " : -1 /* " ++ comparisons ++ " */"⟩
  else do
    let bit ← printed position
    let comparisons ← printed level
    return ⟨level, bit ++ " /* " ++ comparisons ++ " */"⟩

/-- The first line of a branch. -/
def branchLine (middle level : Int) : Except Error Line := do
  let exponent ← printed middle
  return ⟨level, "( x < 1<<" ++ exponent ++ " ?"⟩

/-- The lines of a tree, unless one of them cannot be printed. -/
def lines (maxBits : Int) : DecisionTree → Except Error (List Line)
  | .leaf position level => do
    let line ← leafLine position level maxBits
    return [line]
  | .branch middle low high level => do
    let first ← branchLine middle level
    let below ← low.lines maxBits
    let above ← high.lines maxBits
    return first :: (below ++ ⟨level, ":"⟩ :: (above ++ [⟨level, ")"⟩]))

/-- The listing of a tree under `tabs` tabs. -/
def render (t : DecisionTree) (maxBits tabs : Int) : Except Error String :=
  if tabs < 0 then .error (.naming .negativeIndent tabs)
  else (t.lines maxBits).map fun lines => String.join (lines.map (Line.text tabs))

/-- The listing of the balanced tree of a width. The width is looked at before the indentation. -/
def generate (maxBits tabs : Int) : Except Error String :=
  match ofWidth maxBits with
  | .error e => .error e
  | .ok t => t.render maxBits tabs

end DecisionTree

end BitReaders
