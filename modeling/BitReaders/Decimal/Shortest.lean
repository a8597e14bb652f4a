import BitReaders.Decimal.Binary64

/-!
# The shortest decimal of a double

A double is written with the fewest digits that still round to it, and of those decimals the one
nearest to it.

- `Interval`: the decimals that round to a double: between its midpoints with its neighbours, the
  midpoints included if the significand is even.
- `Grid`: the multiples of a power of ten. The nearest multiples below and above a double are the
  only ones to look at: if any multiple lies in the interval, one of these two does.
- `shortest`: the digits and the position of the point, from the coarsest grid with a hit.
- `Layout`: where positional notation ends and how an exponent is written; `Layout.write`.
-/

namespace BitReaders.Decimal

open Binary64

/-! ## Quotients of naturals -/

/-- A non-negative quotient. -/
structure Quotient where
  num : Nat
  den : Nat

/-- `a < b` on quotients with positive denominators. -/
def Quotient.lt (a b : Quotient) : Bool :=
  a.num * b.den < b.num * a.den

/-- `a ≤ b` on quotients with positive denominators. -/
def Quotient.le (a b : Quotient) : Bool :=
  a.num * b.den ≤ b.num * a.den

/-- The number `m` · `base`^`e`. -/
def scaled (m base : Nat) (e : Int) : Quotient :=
  ⟨m * Nat.pow base e.toNat, Nat.pow base (-e).toNat⟩

/-! ## The interval of a double -/

/-- The decimals that round to a double. -/
structure Interval where
  low : Quotient
  high : Quotient
  closed : Bool

/-- The interval of the double `m` · 2^`e`: its ends are the midpoints with the neighbours. The
neighbour below a power of two is half as far away. -/
def Interval.of (m : Nat) (e : Int) : Interval where
  low := if m = Nat.pow 2 52 ∧ e > leastExponent then scaled (4 * m - 1) 2 (e - 2)
    else scaled (4 * m - 2) 2 (e - 2)
  high := scaled (4 * m + 2) 2 (e - 2)
  closed := m % 2 = 0

/-- Whether a decimal rounds to the double. -/
def Interval.contains (i : Interval) (x : Quotient) : Bool :=
  if i.closed then i.low.le x && x.le i.high else i.low.lt x && x.lt i.high

/-! ## The two neighbours on a grid -/

/-- The multiple of 10^`k` to write for `v`: of the nearest ones below and above it that lie in the
interval the nearer, of two equally near ones the even. -/
def onGrid (v : Quotient) (i : Interval) (k : Int) : Option Nat :=
  let c := v.num * Nat.pow 10 (-k).toNat / (v.den * Nat.pow 10 k.toNat)
  let below := scaled c 10 k
  let above := scaled (c + 1) 10 k
  match i.contains below, i.contains above with
  | true, false => some c
  | false, true => some (c + 1)
  | false, false => none
  | true, true => some (roundDiv (v.num * Nat.pow 10 (-k).toNat) (v.den * Nat.pow 10 k.toNat))

/-- The least `k` with `v < 10^k`, for a positive `v`. -/
def pointOf (v : Quotient) : Int :=
  let guess := ((v.num.log2 : Int) - (v.den.log2 : Int)) * 30103 / 100000
  let tries : List Int := [guess - 1, guess, guess + 1, guess + 2]
  (tries.find? fun k => v.lt (scaled 1 10 k)).getD (guess + 3)

/-- A decimal `0.d₁d₂…` times 10^`point`. -/
structure Digits where
  digits : List Char
  point : Int

/-- The decimal `c` · 10^`k` without zeros at the end of its digits. -/
def Digits.of (c : Nat) (k : Int) : Digits :=
  let ds := Nat.toDigits 10 c
  ⟨(ds.reverse.dropWhile (· = '0')).reverse, ds.length + k⟩

/-- The shortest decimal of the positive double `m` · 2^`e`. Seventeen digits always suffice. -/
def shortest (m : Nat) (e : Int) : Digits :=
  let v := scaled m 2 e
  let i := Interval.of m e
  let point := pointOf v
  let grids := (List.range 17).map fun n => point - (n + 1 : Nat)
  (grids.findSome? fun k => (onGrid v i k).map (Digits.of · k)).getD
    (Digits.of
      (roundDiv (v.num * Nat.pow 10 (17 - point).toNat) (v.den * Nat.pow 10 (point - 17).toNat))
      (point - 17))

/-! ## Layout -/

/-- How a double is laid out. An exponent is that of the number's first digit. -/
structure Layout where
  /-- The least exponent of positional notation. -/
  leastPositional : Int
  /-- The greatest exponent of positional notation. -/
  greatestPositional : Int
  /-- The least number of digits of a written exponent. -/
  exponentDigits : Nat
  nan : String
  infinity : String

/-- Positional notation, always with a point and a digit after it. -/
def positional (d : Digits) : List Char :=
  if d.point ≤ 0 then '0' :: '.' :: (List.replicate (-d.point).toNat '0' ++ d.digits)
  else
    let n := d.point.toNat
    if d.digits.length ≤ n then
      d.digits ++ List.replicate (n - d.digits.length) '0' ++ ['.', '0']
    else d.digits.take n ++ '.' :: d.digits.drop n

/-- Scientific notation: a point only if a second digit follows, and an exponent with its sign. -/
def scientific (width : Nat) (d : Digits) : List Char :=
  let e := d.point - 1
  let ds := Nat.toDigits 10 e.natAbs
  let fraction := if d.digits.length ≤ 1 then [] else '.' :: d.digits.drop 1
  d.digits.take 1 ++ fraction ++ 'e' :: (if e < 0 then '-' else '+') ::
    (List.replicate (width - ds.length) '0' ++ ds)

/-- The text of a double without its sign. -/
def Layout.unsigned (l : Layout) (m : Nat) (e : Int) : List Char :=
  if m = 0 then ['0', '.', '0']
  else
    let d := shortest m e
    if l.leastPositional ≤ d.point - 1 ∧ d.point - 1 ≤ l.greatestPositional then positional d
    else scientific l.exponentDigits d

/-- The text of a double. -/
def Layout.write (l : Layout) : Binary64 → String
  | .finite s m e => String.ofList ((if s then ['-'] else []) ++ l.unsigned m e)
  | .infinite s => (if s then "-" else "") ++ l.infinity
  | .nan => l.nan

end BitReaders.Decimal
