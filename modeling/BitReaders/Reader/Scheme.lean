import BitReaders.Text.Blank
import BitReaders.Text.Upper

/-!
# Coding schemes

The codes in which the numbers of an index are written.

- `Scheme`: the schemes; `none` stands for a quantity that is not stored.
- `Scheme.name`, `Scheme.canonicalName`, `Scheme.capitalized`: a scheme's name in upper case, in
  lower case, and with only the first letter in upper case.
- `Scheme.parse?`: the scheme that a text names, up to blanks at its ends and case.
-/

namespace BitReaders

/-- A coding scheme. -/
inductive Scheme where
  | none
  | unary
  | gamma
  | shiftedGamma
  | delta
  | golomb
  | skewedGolomb
  | interpolative
  deriving DecidableEq, Repr

namespace Scheme

/-- The schemes in their order of declaration. -/
def all : List Scheme :=
  [.none, .unary, .gamma, .shiftedGamma, .delta, .golomb, .skewedGolomb, .interpolative]

/-- Every scheme is listed. -/
theorem mem_all (s : Scheme) : s ∈ all := by
  cases s <;> decide

/-- The name in upper case. -/
def name : Scheme → String
  | .none => "NONE"
  | .unary => "UNARY"
  | .gamma => "GAMMA"
  | .shiftedGamma => "SHIFTED_GAMMA"
  | .delta => "DELTA"
  | .golomb => "GOLOMB"
  | .skewedGolomb => "SKEWED_GOLOMB"
  | .interpolative => "INTERPOLATIVE"

/-- The name in lower case. -/
def canonicalName : Scheme → String
  | .none => "none"
  | .unary => "unary"
  | .gamma => "gamma"
  | .shiftedGamma => "shifted_gamma"
  | .delta => "delta"
  | .golomb => "golomb"
  | .skewedGolomb => "skewed_golomb"
  | .interpolative => "interpolative"

/-- The name with a capital first letter, as it stands in class names. -/
def capitalized (s : Scheme) : String :=
  let letters := s.canonicalName.toList
  String.ofList ((letters.take 1).map Char.toUpper ++ letters.drop 1)

example : shiftedGamma.capitalized = "Shifted_gamma" := by decide

/-- The scheme that a text names: the text without the blanks at its ends has the scheme's name as
its upper-case form. -/
def parse? (t : Text) : Option Scheme :=
  let u := t.trim.upper
  all.find? fun s => Text.ofString s.name == u

/-- Every scheme is named by its name. -/
theorem parse?_name (s : Scheme) : parse? (Text.ofString s.name) = some s := by
  cases s <;> decide +kernel

end Scheme

end BitReaders
