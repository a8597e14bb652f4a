/-!
# Doubles

Double-precision numbers, exactly: a significand times a power of two, an infinity, or no number.

- `Binary64`: the values. A finite one is in *canonical form* if its significand is below 2^53 and
  either at least 2^52 or with the least exponent.
- `roundDiv`: a quotient of naturals rounded to the nearest natural, a half to the even one.
- `Binary64.ofQuotient`: the double nearest to a positive quotient.
- `Binary64.ofDecimal`: the double nearest to a decimal, of two equally near ones that with the
  even significand. From half a unit beyond the greatest double on, it is an infinity.
-/

namespace BitReaders

/-- A double-precision number. -/
inductive Binary64 where
  /-- The number `significand` · 2^`exponent`, or its opposite. -/
  | finite (negative : Bool) (significand : Nat) (exponent : Int)
  | infinite (negative : Bool)
  | nan
  deriving DecidableEq, Repr

/-- `num / den` rounded to the nearest natural, a half to the even neighbour. -/
def roundDiv (num den : Nat) : Nat :=
  let q := num / den
  let r := num % den
  if 2 * r > den || (2 * r == den && q % 2 == 1) then q + 1 else q

namespace Binary64

/-- The least exponent of a double. -/
def leastExponent : Int := -1074

/-- The greatest exponent of a double. -/
def greatestExponent : Int := 971

/-- The opposite of a number. -/
def neg : Binary64 → Binary64
  | .finite s m e => .finite (!s) m e
  | .infinite s => .infinite (!s)
  | .nan => .nan

/-- The integer part of the binary logarithm of `num / den`, for positive `num` and `den`. -/
def floorLog2 (num den : Nat) : Int :=
  let a := num.log2
  let b := den.log2
  let k : Int := (a : Int) - (b : Int)
  if num * Nat.pow 2 (b - a) ≥ den * Nat.pow 2 (a - b) then k else k - 1

/-- The quotient `num / den` of naturals divided by 2^`e`, again as a quotient. -/
def unscale (num den : Nat) (e : Int) : Nat × Nat :=
  (num * Nat.pow 2 (-e).toNat, den * Nat.pow 2 e.toNat)

/-- The double nearest to `num / den`, for positive `num` and `den`. -/
def ofQuotient (num den : Nat) : Binary64 :=
  let e := max (floorLog2 num den - 52) leastExponent
  let (n, d) := unscale num den e
  let m := roundDiv n d
  let (m, e) := if m = Nat.pow 2 53 then (Nat.pow 2 52, e + 1) else (m, e)
  if e > greatestExponent then .infinite false else .finite false m e

/-- The double nearest to `digits` · 10^`scale`. Decimals far outside the range of the doubles are
told by their size. -/
def ofDecimal (digits : Nat) (scale : Int) : Binary64 :=
  if digits = 0 then .finite false 0 leastExponent
  else if scale > 400 then .infinite false
  else if scale < -(digits.log2 + 400 : Int) then .finite false 0 leastExponent
  else ofQuotient (digits * Nat.pow 10 scale.toNat) (Nat.pow 10 (-scale).toNat)

end Binary64

end BitReaders
