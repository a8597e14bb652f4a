import BitReaders.Proofs.Conditional.Grammar

/-!
# The grammar of conditional expressions is unambiguous

A recursive-descent parser has no choice, and it finds what the grammar derives.

- `unary?`, `shift?`, `comparison?`, `conditional?`: the parser, one function for each kind of
  expression. `shifts?` and `comparisons?` take the further operands of a left operand, and
  `branches?` what may follow a condition. `leaving` makes the parser end.
- `Parsed`: what the parser makes of the tokens of an expression in front of any others.
- `Derives.parsed`: **the parser finds every expression that the grammar derives.**
- `Reads.unique`: **a text is at most one expression.**
-/

namespace BitReaders

namespace Conditional

/-! ## The parser -/

/-- A result that leaves at most `n` tokens. The parser always leaves fewer tokens than it is given;
that it goes on only if it does makes it end. -/
def leaving (n : Nat) :
    Option (Expr × List Token) → Option (Expr × {r : List Token // r.length ≤ n})
  | some (e, r) => if h : r.length ≤ n then some (e, ⟨r, h⟩) else none
  | none => none

theorem leaving_some {n : Nat} {r : List Token} (h : r.length ≤ n) (e : Expr) :
    leaving n (some (e, r)) = some (e, ⟨r, h⟩) :=
  dif_pos h

/-- What follows a token that must follow an expression. -/
def followedBy (t : Token) : Expr × List Token → Option (Expr × List Token)
  | (e, u :: r) => if u = t then some (e, r) else none
  | (_, []) => none

theorem followedBy_cons (t : Token) (e : Expr) (r : List Token) :
    followedBy t (e, t :: r) = some (e, r) :=
  if_pos rfl

mutual

/-- A number, the variable or a bracket at the front of some tokens, and what follows it. -/
def unary? (ts : List Token) : Option (Expr × List Token) :=
  match ts with
  | .number n :: r => some (.number n, r)
  | .minus :: .number n :: r => some (.negative n, r)
  | .ident :: r => some (.ident, r)
  | .leftParen :: r => conditional? r >>= followedBy .rightParen
  | _ => none
  termination_by 7 * ts.length

/-- The shift expression at the front of some tokens. -/
def shift? (ts : List Token) : Option (Expr × List Token) := do
  let (a, ⟨r, _⟩) ← leaving ts.length (unary? ts)
  shifts? a r
  termination_by 7 * ts.length + 2

/-- The further shifts of `a` at the front of some tokens. -/
def shifts? (a : Expr) (ts : List Token) : Option (Expr × List Token) :=
  match ts with
  | .shift :: r => do
    let (b, ⟨r, _⟩) ← leaving r.length (unary? r)
    shifts? (.shift a b) r
  | r => some (a, r)
  termination_by 7 * ts.length + 1

/-- The comparison at the front of some tokens. -/
def comparison? (ts : List Token) : Option (Expr × List Token) := do
  let (a, ⟨r, _⟩) ← leaving ts.length (shift? ts)
  comparisons? a r
  termination_by 7 * ts.length + 4

/-- The further comparisons of `a` at the front of some tokens. -/
def comparisons? (a : Expr) (ts : List Token) : Option (Expr × List Token) :=
  match ts with
  | .less :: r => do
    let (b, ⟨r, _⟩) ← leaving r.length (shift? r)
    comparisons? (.less a b) r
  | r => some (a, r)
  termination_by 7 * ts.length + 3

/-- The longest expression at the front of some tokens. -/
def conditional? (ts : List Token) : Option (Expr × List Token) := do
  let (c, ⟨r, _⟩) ← leaving ts.length (comparison? ts)
  branches? c r
  termination_by 7 * ts.length + 6

/-- The branches under the condition `c` at the front of some tokens, if there are any. -/
def branches? (c : Expr) (ts : List Token) : Option (Expr × List Token) :=
  match ts with
  | .query :: r => do
    let (a, ⟨r, _⟩) ← leaving r.length (conditional? r >>= followedBy .colon)
    let (b, r) ← conditional? r
    some (.cond c a b, r)
  | r => some (c, r)
  termination_by 7 * ts.length + 5

end

/-! ## One step of the parser -/

section Steps

variable {a b c : Expr} {ts r s : List Token}

theorem shift?_eq (h : unary? ts = some (a, r)) (hle : r.length ≤ ts.length) :
    shift? ts = shifts? a r := by
  rw [shift?, h, leaving_some hle]
  rfl

theorem shifts?_shift (h : unary? ts = some (b, r)) (hle : r.length ≤ ts.length) :
    shifts? a (.shift :: ts) = shifts? (.shift a b) r := by
  rw [shifts?.eq_def]
  show (leaving ts.length (unary? ts) >>= _) = _
  rw [h, leaving_some hle]
  rfl

theorem shifts?_of_head (h : r.head? ≠ some .shift) (a : Expr) : shifts? a r = some (a, r) := by
  rw [shifts?.eq_def]
  split
  · exact absurd rfl h
  · rfl

theorem comparison?_eq (h : shift? ts = some (a, r)) (hle : r.length ≤ ts.length) :
    comparison? ts = comparisons? a r := by
  rw [comparison?, h, leaving_some hle]
  rfl

theorem comparisons?_less (h : shift? ts = some (b, r)) (hle : r.length ≤ ts.length) :
    comparisons? a (.less :: ts) = comparisons? (.less a b) r := by
  rw [comparisons?.eq_def]
  show (leaving ts.length (shift? ts) >>= _) = _
  rw [h, leaving_some hle]
  rfl

theorem comparisons?_of_head (h : r.head? ≠ some .less) (a : Expr) :
    comparisons? a r = some (a, r) := by
  rw [comparisons?.eq_def]
  split
  · exact absurd rfl h
  · rfl

theorem conditional?_eq (h : comparison? ts = some (c, r)) (hle : r.length ≤ ts.length) :
    conditional? ts = branches? c r := by
  rw [conditional?, h, leaving_some hle]
  rfl

theorem branches?_query (ha : conditional? ts = some (a, .colon :: s))
    (hle : s.length ≤ ts.length) (hb : conditional? s = some (b, r)) :
    branches? c (.query :: ts) = some (.cond c a b, r) := by
  have hthen : (conditional? ts >>= followedBy .colon) = some (a, s) := by
    rw [ha]
    exact followedBy_cons .colon a s
  rw [branches?.eq_def]
  show (leaving ts.length (conditional? ts >>= followedBy .colon) >>= _) = _
  rw [hthen, leaving_some hle]
  show (conditional? s >>= _) = _
  rw [hb]
  rfl

theorem branches?_of_head (h : r.head? ≠ some .query) (c : Expr) :
    branches? c r = some (c, r) := by
  rw [branches?.eq_def]
  split
  · exact absurd rfl h
  · rfl

theorem unary?_leftParen (h : conditional? ts = some (a, .rightParen :: r)) :
    unary? (.leftParen :: ts) = some (a, r) := by
  rw [unary?.eq_def]
  show (conditional? ts >>= followedBy .rightParen) = _
  rw [h]
  exact followedBy_cons .rightParen a r

end Steps

/-! ## What the grammar derives is parsed -/

/-- What the parser makes of the tokens of an expression, whatever follows them: a shift or a
comparison may go on, and a conditional has ended. -/
def Parsed : Category → List Token → Expr → Prop
  | .unary, ts, e => ∀ rest, unary? (ts ++ rest) = some (e, rest)
  | .shift, ts, e => ∀ rest, shift? (ts ++ rest) = shifts? e rest
  | .comparison, ts, e =>
    ∀ rest, rest.head? ≠ some .shift → comparison? (ts ++ rest) = comparisons? e rest
  | .conditional, ts, e =>
    ∀ rest, rest.head? ≠ some .shift → rest.head? ≠ some .less → rest.head? ≠ some .query →
      conditional? (ts ++ rest) = some (e, rest)

/-- **The parser finds every expression that the grammar derives.** By induction on the derivation;
a left operand is parsed with the operator and the right operand as what follows it. -/
theorem Derives.parsed {k : Category} {ts : List Token} {e : Expr} (h : Derives k ts e) :
    Parsed k ts e := by
  have hrest : ∀ ts rest : List Token, rest.length ≤ (ts ++ rest).length := by simp
  induction h with
  | number n =>
    intro rest
    show unary? (.number n :: rest) = _
    rw [unary?.eq_def]
  | negative n =>
    intro rest
    show unary? (.minus :: .number n :: rest) = _
    rw [unary?.eq_def]
  | ident =>
    intro rest
    show unary? (.ident :: rest) = _
    rw [unary?.eq_def]
  | @paren ts e _ ih =>
    intro rest
    rw [List.cons_append, List.cons_append, List.append_assoc]
    exact unary?_leftParen (ih _ (by simp) (by simp) (by simp))
  | @ofUnary ts e _ ih =>
    intro rest
    exact shift?_eq (ih rest) (hrest ts rest)
  | @shift ts us a b _ _ iha ihb =>
    intro rest
    rw [List.append_assoc, iha, List.cons_append]
    exact shifts?_shift (ihb rest) (hrest us rest)
  | @ofShift ts e _ ih =>
    intro rest hshift
    have hparse : shift? (ts ++ rest) = some (e, rest) := by
      rw [ih rest, shifts?_of_head hshift]
    exact comparison?_eq hparse (hrest ts rest)
  | @less ts us a b _ _ iha ihb =>
    intro rest hshift
    have hparse : shift? (us ++ rest) = some (b, rest) := by
      rw [ihb rest, shifts?_of_head hshift]
    rw [List.append_assoc, iha _ (by simp), List.cons_append]
    exact comparisons?_less hparse (hrest us rest)
  | @ofComparison ts e _ ih =>
    intro rest hshift hless hquery
    have hparse : comparison? (ts ++ rest) = some (e, rest) := by
      rw [ih rest hshift, comparisons?_of_head hless]
    rw [conditional?_eq hparse (hrest ts rest), branches?_of_head hquery]
  | @cond ts us vs c a b _ _ _ ihc iha ihb =>
    intro rest hshift hless hquery
    -- the tokens of the condition are followed by a query, with which no comparison goes on
    have hcond : comparison? (ts ++ .query :: (us ++ .colon :: (vs ++ rest))) =
        some (c, .query :: (us ++ .colon :: (vs ++ rest))) := by
      rw [ihc _ (by simp), comparisons?_of_head (by simp)]
    have hthen : conditional? (us ++ .colon :: (vs ++ rest)) = some (a, .colon :: (vs ++ rest)) :=
      iha _ (by simp) (by simp) (by simp)
    have helse : conditional? (vs ++ rest) = some (b, rest) := ihb rest hshift hless hquery
    have hassoc : ts ++ .query :: us ++ .colon :: vs ++ rest =
        ts ++ .query :: (us ++ .colon :: (vs ++ rest)) := by simp
    have hle : (vs ++ rest).length ≤ (us ++ .colon :: (vs ++ rest)).length :=
      Nat.le_of_succ_le (hrest us (.colon :: (vs ++ rest)))
    rw [hassoc, conditional?_eq hcond (hrest ts _), branches?_query hthen hle helse]

/-- Tokens are at most one expression. -/
theorem Derives.unique {ts : List Token} {e e' : Expr} (h : Derives .conditional ts e)
    (h' : Derives .conditional ts e') : e = e' := by
  have hparse := h.parsed [] (by simp) (by simp) (by simp)
  have hparse' := h'.parsed [] (by simp) (by simp) (by simp)
  rw [hparse] at hparse'
  cases hparse'
  rfl

/-- **A text is at most one expression.** -/
theorem Reads.unique {text : String} {e e' : Expr} (h : Reads text e) (h' : Reads text e') :
    e = e' := by
  obtain ⟨ts, hts, hderives⟩ := h
  obtain ⟨ts', hts', hderives'⟩ := h'
  rw [hts] at hts'
  cases hts'
  exact hderives.unique hderives'

/-- A conditional in the last place of another one belongs to it. -/
example :
    conditional? [.ident, .query, .ident, .colon, .ident, .query, .number 3, .colon, .number 4] =
      some (.cond .ident .ident (.cond .ident (.number 3) (.number 4)), []) := by
  cbv

end Conditional

end BitReaders
