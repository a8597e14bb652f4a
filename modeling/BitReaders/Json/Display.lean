import BitReaders.Json.Value
import BitReaders.Decimal.Shortest
import BitReaders.Text.Quoted

/-!
# Display of JSON values

Messages show a value as plain text. A string shows as itself, but quoted inside an array or an
object; `null` shows as `None`, the truth values capitalised.

- `Json.realLayout`: how doubles are shown.
- `Json.Kind`: the kinds of values, each with the name that messages use.
- `Json.Value.inner`: a value inside another one.
- `Json.Value.display`: a value by itself.
-/

namespace BitReaders.Json

/-- Doubles are positional from 0.0001 up to sixteen digits before the point, and have exponents of
at least two digits otherwise. -/
def realLayout : Decimal.Layout where
  leastPositional := -4
  greatestPositional := 15
  exponentDigits := 2
  nan := "nan"
  infinity := "inf"

/-- The kind of a value. -/
inductive Kind where
  | null
  | bool
  | integer
  | real
  | string
  | array
  | object
  deriving DecidableEq, Repr

/-- The name of a kind in messages. -/
def Kind.name : Kind → String
  | .null => "NoneType"
  | .bool => "bool"
  | .integer => "int"
  | .real => "float"
  | .string => "str"
  | .array => "list"
  | .object => "dict"

namespace Value

/-- The kind of a value. -/
def kind : Value → Kind
  | .null => .null
  | .bool _ => .bool
  | .integer _ => .integer
  | .real _ => .real
  | .string _ => .string
  | .array _ => .array
  | .object _ => .object

mutual

/-- A value as it shows inside another one. -/
def inner : Value → String
  | .null => "None"
  | .bool b => if b then "True" else "False"
  | .integer n => toString n
  | .real x => realLayout.write x
  | .string t => t.quoted
  | .array xs => "[" ++ ", ".intercalate (innerItems xs) ++ "]"
  | .object ms => "\x7b" ++ ", ".intercalate (innerMembers ms) ++ "\x7d"

/-- The items of an array as they show inside it. -/
def innerItems : List Value → List String
  | [] => []
  | v :: vs => v.inner :: innerItems vs

/-- The members of an object as they show inside it. -/
def innerMembers : List (Text × Value) → List String
  | [] => []
  | (k, v) :: ms => (k.quoted ++ ": " ++ v.inner) :: innerMembers ms

end

/-- A value as it shows by itself. -/
def display : Value → Text
  | .string t => t
  | v => Text.ofString v.inner

end Value

end BitReaders.Json
