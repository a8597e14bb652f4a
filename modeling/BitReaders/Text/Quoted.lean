import BitReaders.Text.Printable

/-!
# Quoted texts

Messages show a text between quotation marks, with everything that is not printable escaped.

- `Text.mark`: the apostrophe, or the double quote for a text with an apostrophe and no double
  quote.
- `CodePoint.quoted`: a code point between two marks: the mark itself and the backslash are
  escaped by a backslash; newline, carriage return and tab by a letter; any other code point that
  is not printable by the shortest of `\x`, `\u` and `\U` that holds its number.
- `Text.quoted`, `quoted`: the quoted form of a text, of a string.
-/

namespace BitReaders

/-- The quotation mark around a text: the apostrophe, unless the text holds an apostrophe and no
double quote. -/
def Text.mark (t : Text) : Char :=
  if .scalar '\'' ∈ t ∧ .scalar '"' ∉ t then '"' else '\''

/-- The escape of a code point by its number. -/
def numericEscape (n : Nat) : List Char :=
  if n ≤ 0xFF then '\\' :: 'x' :: hexDigits 2 n
  else if n ≤ 0xFFFF then '\\' :: 'u' :: hexDigits 4 n
  else '\\' :: 'U' :: hexDigits 8 n

/-- A code point as it stands between two marks. -/
def CodePoint.quoted (mark : Char) (c : CodePoint) : List Char :=
  if c = .scalar mark then ['\\', mark]
  else if c = .scalar '\\' then ['\\', '\\']
  else if c = .scalar '\n' then ['\\', 'n']
  else if c = .scalar '\r' then ['\\', 'r']
  else if c = .scalar '\t' then ['\\', 't']
  else if c.isPrintable then c.display
  else numericEscape c.val

/-- The quoted form of a text. -/
def Text.quoted (t : Text) : String :=
  String.ofList (t.mark :: t.flatMap (CodePoint.quoted t.mark) ++ [t.mark])

/-- The quoted form of a string. -/
def quoted (s : String) : String :=
  (Text.ofString s).quoted

end BitReaders
