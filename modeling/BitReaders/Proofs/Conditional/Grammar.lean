import Mathlib.Algebra.Group.Int.Defs

/-!
# Conditional expressions

The language of the listings: the part of C and Java expressions that has numbers, one variable
`x`, shifts, comparisons and conditionals. Its text is read in two stages, and what is read has a
value.

- `lexeme`, `tokens`: the tokens of a text. White space and comments separate tokens, and each
  token is as long as possible.
- `Expr`, `Expr.eval`: expressions, and their values over unbounded integers. Truth values are no
  numbers, so that an expression that has a value here has the same one where they are.
- `Derives`: the grammar. A shift binds closer than a comparison, and that closer than a
  conditional. A conditional associates to the right and the others to the left. A minus stands
  only before a number.
- `Reads text e`: the whole of `text` is the expression `e`.
-/

namespace BitReaders

namespace Conditional

/-! ## Tokens -/

inductive Token where
  | number (n : Nat)
  | ident
  | minus
  | shift
  | less
  | query
  | colon
  | leftParen
  | rightParen
  deriving DecidableEq, Repr

/-- Whether a character can stand in a name or a number. -/
def isWordChar (c : Char) : Bool :=
  c.isAlphanum || c == '_'

/-- The token of a word: the variable, or a decimal number. A number with a superfluous zero in
front would be an octal one. -/
def wordToken (w : List Char) : Option Token :=
  if w = ['x'] then some .ident
  else if w.all Char.isDigit && (w.length == 1 || w.head? != some '0') then
    some (.number (Nat.ofDigitChars 10 w 0))
  else none

/-- What follows the end of a comment. -/
def afterComment : List Char → Option (List Char)
  | '*' :: '/' :: r => some r
  | _ :: r => afterComment r
  | [] => none

/-- The operator, bracket or comment that starts with a character; a comment gives no token. -/
def symbol : Char → List Char → Option (Option Token × List Char)
  | '/', '*' :: r => (afterComment r).map fun r => (none, r)
  | '<', '<' :: r => some (some .shift, r)
  | '<', r => some (some .less, r)
  | '-', r => some (some .minus, r)
  | '?', r => some (some .query, r)
  | ':', r => some (some .colon, r)
  | '(', r => some (some .leftParen, r)
  | ')', r => some (some .rightParen, r)
  | _, _ => none

/-- The first token, blank or comment of a text, and what follows it. -/
def lexeme : List Char → Option (Option Token × List Char)
  | [] => none
  | c :: r =>
    if c.isWhitespace then some (none, r)
    else if isWordChar c then
      (wordToken (c :: r.takeWhile isWordChar)).map fun t => (some t, r.dropWhile isWordChar)
    else symbol c r

theorem afterComment_length_lt {cs r : List Char} (h : afterComment cs = some r) :
    r.length < cs.length := by
  induction cs using afterComment.induct with
  | case1 rest =>
    cases h
    rw [List.length_cons, List.length_cons]
    omega
  | case2 c rest hne ih =>
    rw [afterComment] at h
    · have hlt := ih h
      rw [List.length_cons]
      omega
    · exact hne
  | case3 => cases h

theorem symbol_length_le {c : Char} {cs r : List Char} {t : Option Token}
    (h : symbol c cs = some (t, r)) : r.length ≤ cs.length := by
  unfold symbol at h
  split at h
  case h_1 rest =>
    obtain ⟨r', hr', heq⟩ := Option.map_eq_some_iff.mp h
    cases heq
    have hlt := afterComment_length_lt hr'
    rw [List.length_cons]
    omega
  case h_9 => cases h
  all_goals
    cases h
    simp

theorem lexeme_length_lt {cs r : List Char} {t : Option Token} (h : lexeme cs = some (t, r)) :
    r.length < cs.length := by
  cases cs with
  | nil => cases h
  | cons c cs =>
    rw [lexeme] at h
    rw [List.length_cons]
    split at h
    · cases h
      omega
    · split at h
      · obtain ⟨t', -, heq⟩ := Option.map_eq_some_iff.mp h
        cases heq
        have hle := (List.dropWhile_sublist isWordChar (l := cs)).length_le
        omega
      · have hle := symbol_length_le h
        omega

/-- The tokens of a text. -/
def tokens (cs : List Char) : Option (List Token) :=
  if cs = [] then some []
  else
    match _h : lexeme cs with
    | none => none
    | some (t, r) => (tokens r).map (t.toList ++ ·)
  termination_by cs.length
  decreasing_by exact lexeme_length_lt _h

theorem tokens_nil : tokens [] = some [] := by
  rw [tokens, if_pos rfl]

/-- The tokens of a text are its first one, if it starts with one, and those of the rest. -/
theorem tokens_of_lexeme {cs r : List Char} {t : Option Token} (h : lexeme cs = some (t, r)) :
    tokens cs = (tokens r).map (t.toList ++ ·) := by
  have hne : cs ≠ [] := by
    rintro rfl
    cases h
  rw [tokens, if_neg hne]
  split
  · next hnone =>
    rw [h] at hnone
    cases hnone
  · next t' r' hsome =>
    rw [h] at hsome
    cases hsome
    rfl

/-- The longest operator is taken, and a comment goes to its first end. -/
example : tokens "x<1<<30/* no ** token */?-5:x".toList =
    some [.ident, .less, .number 1, .shift, .number 30, .query, .minus, .number 5, .colon,
      .ident] := by
  cbv

/-! ## Expressions and their values -/

inductive Expr where
  | number (n : Nat)
  | negative (n : Nat)
  | ident
  | shift (a b : Expr)
  | less (a b : Expr)
  | cond (c a b : Expr)
  deriving DecidableEq, Repr

inductive Value where
  | int (i : Int)
  | truth (b : Bool)
  deriving DecidableEq, Repr

/-- The value of an expression at `x`. A shift by a negative number has none, nor has an expression
that mixes numbers and truth values. -/
def Expr.eval (x : Int) : Expr → Option Value
  | .number n => some (.int n)
  | .negative n => some (.int (-n))
  | .ident => some (.int x)
  | .shift a b =>
    match a.eval x, b.eval x with
    | some (.int i), some (.int j) => if j < 0 then none else some (.int (i * 2 ^ j.toNat))
    | _, _ => none
  | .less a b =>
    match a.eval x, b.eval x with
    | some (.int i), some (.int j) => some (.truth (i < j))
    | _, _ => none
  | .cond c a b =>
    match c.eval x with
    | some (.truth true) => a.eval x
    | some (.truth false) => b.eval x
    | _ => none

/-- The kinds of expressions, from the closest to the loosest. -/
inductive Category where
  | unary
  | shift
  | comparison
  | conditional

/-- `Derives k ts e`: the tokens `ts` are the expression `e` of kind `k`. -/
inductive Derives : Category → List Token → Expr → Prop where
  | number (n : Nat) : Derives .unary [.number n] (.number n)
  | negative (n : Nat) : Derives .unary [.minus, .number n] (.negative n)
  | ident : Derives .unary [.ident] .ident
  | paren {ts : List Token} {e : Expr} :
      Derives .conditional ts e → Derives .unary (.leftParen :: ts ++ [.rightParen]) e
  | ofUnary {ts : List Token} {e : Expr} : Derives .unary ts e → Derives .shift ts e
  | shift {ts us : List Token} {a b : Expr} :
      Derives .shift ts a → Derives .unary us b → Derives .shift (ts ++ .shift :: us) (.shift a b)
  | ofShift {ts : List Token} {e : Expr} : Derives .shift ts e → Derives .comparison ts e
  | less {ts us : List Token} {a b : Expr} :
      Derives .comparison ts a → Derives .shift us b →
        Derives .comparison (ts ++ .less :: us) (.less a b)
  | ofComparison {ts : List Token} {e : Expr} :
      Derives .comparison ts e → Derives .conditional ts e
  | cond {ts us vs : List Token} {c a b : Expr} :
      Derives .comparison ts c → Derives .conditional us a → Derives .conditional vs b →
        Derives .conditional (ts ++ .query :: us ++ .colon :: vs) (.cond c a b)

/-- The whole text is the expression `e`. -/
def Reads (text : String) (e : Expr) : Prop :=
  ∃ ts, tokens text.toList = some ts ∧ Derives .conditional ts e

end Conditional

end BitReaders
