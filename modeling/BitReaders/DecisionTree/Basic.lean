import BitReaders.Text.Numeral

/-!
# Decision trees for the most significant bit

The most significant bit of a signed integer `x` of `n` bits is found by comparing `x` with powers
of two. The candidates are the bits 0 to `n - 1` and, before them, "no bit" for zero and for the
negative numbers. A tree of comparisons bisects them.

- `DecisionTree`: a leaf answers with a bit, a branch asks whether `x < 2^middle`. Trees need not
  be balanced or ordered: any integers may stand in their nodes.
- `DecisionTree.bisect`, `DecisionTree.ofWidth`: the tree that halves the candidates.
- `DecisionTree.eval`: the answer for an `x`. A leaf with a negative position stands for zero and
  the negative numbers, and the answer there is -1 or the greatest width.
- `DecisionTree.leaves`, `DecisionTree.depth`: its leaves from left to right, its height.
-/

namespace BitReaders

/-- A tree of comparisons with powers of two. The `level` of a node is its indentation. -/
inductive DecisionTree where
  /-- The answer: the bit at `position`, or no bit if that is negative. -/
  | leaf (position level : Int)
  /-- Go to `low` if `x < 2^middle`, else to `high`. -/
  | branch (middle : Int) (low high : DecisionTree) (level : Int)
  deriving DecidableEq, Repr

namespace DecisionTree

/-- Why a tree cannot be built, walked or listed. -/
inductive Error where
  /-- A width is negative. -/
  | negativeWidth (width : Int)
  /-- The indentation of a listing is negative. -/
  | negativeIndent (tabs : Int)
  /-- A branch compares with a negative power of two. -/
  | negativeShift
  /-- An integer that would be printed has too many digits. -/
  | oversized
  deriving DecidableEq, Repr

/-- The wording of an error. -/
def Error.message : Error → String
  | .negativeWidth n => "bit width must be >= 0, got " ++ toString n
  | .negativeIndent n => "indentation must be >= 0, got " ++ toString n
  | .negativeShift => "negative shift count"
  | .oversized => Numeral.limitMessage ""

/-- Whether the error refuses an argument. Others only come up on the way. -/
def Error.isRefusal : Error → Bool
  | .negativeWidth _ => true
  | .negativeIndent _ => true
  | .negativeShift => false
  | .oversized => false

/-- Why an integer is refused: an error that names it, if it can be printed. -/
def Error.naming (error : Int → Error) (n : Int) : Error :=
  if Numeral.Fits n then error n else .oversized

/-! ## Construction -/

/-- The tree for the candidates `lo` to `lo + extra` at `level`, where the candidate `v` stands for
bit `v - 1`. The lower half, which gets the odd candidate, ends at the branch's `middle`. -/
def bisect (lo extra level : Nat) : DecisionTree :=
  if extra = 0 then .leaf ((lo : Int) - 1) level
  else
    let half := extra / 2
    .branch (lo + half : Nat) (bisect lo half (level + 1))
      (bisect (lo + half + 1) (extra - half - 1) (level + 1)) level
  termination_by extra

/-- The balanced tree for integers of `width` bits. -/
def ofWidth (width : Int) : Except Error DecisionTree :=
  if width < 0 then .error (.naming .negativeWidth width) else .ok (bisect 0 width.toNat 0)

/-! ## Walking -/

/-- The answer at a leaf. -/
def answer (position x maxBits : Int) : Int :=
  if position < 0 then (if x < 0 then maxBits else -1) else position

/-- The answer of a tree for `x`. Only the branches on the way are looked at. -/
def eval (x maxBits : Int) : DecisionTree → Except Error Int
  | .leaf position _ => .ok (answer position x maxBits)
  | .branch middle low high _ =>
    if middle < 0 then .error .negativeShift
    else if x < Int.pow 2 middle.toNat then low.eval x maxBits
    else high.eval x maxBits

/-- The positions and levels of the leaves, from left to right. -/
def leaves : DecisionTree → List (Int × Int)
  | .leaf position level => [(position, level)]
  | .branch _ low high _ => low.leaves ++ high.leaves

/-- The greatest number of comparisons on a way from the root to a leaf. -/
def depth : DecisionTree → Nat
  | .leaf _ _ => 0
  | .branch _ low high _ => 1 + max low.depth high.depth

end DecisionTree

end BitReaders
