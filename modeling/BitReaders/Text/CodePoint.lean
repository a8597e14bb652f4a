/-!
# Code points and texts

A `String` holds Unicode scalar values. A quoted string of a JSON document may also name a
surrogate that has no partner, so the texts read from such documents are lists of code points.

- `CodePoint`: a scalar value, or one of the 2048 surrogates standing alone.
- `CodePoint.val`: the number of a code point, below 0x110000.
- `Text`: a list of code points; `Text.ofString` embeds the strings.
- `Text.toString?`: the string a text denotes, if it holds no lone surrogate
  (`toString?_ofString`).
- `Text.display`: a string for every text, each lone surrogate shown as its escape.
-/

namespace BitReaders

/-- A Unicode code point. -/
inductive CodePoint where
  /-- A Unicode scalar value. -/
  | scalar (c : Char)
  /-- The surrogate with number 0xD800 + `n`, without a partner. -/
  | surrogate (n : Fin 2048)
  deriving DecidableEq, Repr

/-- The number of a code point. -/
def CodePoint.val : CodePoint → Nat
  | .scalar c => c.toNat
  | .surrogate n => 0xD800 + n.val

/-- The code point that four hexadecimal digits of value `n` name. -/
def CodePoint.ofUnit (n : Nat) : CodePoint :=
  if h : 0xD800 ≤ n ∧ n < 0xE000 then .surrogate ⟨n - 0xD800, by omega⟩
  else .scalar (Char.ofNat n)

/-- A text: a sequence of code points, surrogates included. -/
abbrev Text := List CodePoint

namespace Text

/-- The text of a list of characters. -/
def ofChars (cs : List Char) : Text :=
  cs.map .scalar

/-- The text of a string. -/
def ofString (s : String) : Text :=
  ofChars s.toList

/-- The characters of a text, if none of its code points is a lone surrogate. -/
def toChars? : Text → Option (List Char)
  | [] => some []
  | .scalar c :: t => (toChars? t).map (c :: ·)
  | .surrogate _ :: _ => none

/-- The string that a text denotes, if none of its code points is a lone surrogate. -/
def toString? (t : Text) : Option String :=
  (toChars? t).map String.ofList

theorem toChars?_ofChars (cs : List Char) : toChars? (ofChars cs) = some cs := by
  induction cs with
  | nil => rfl
  | cons c cs ih =>
    show (toChars? (ofChars cs)).map (c :: ·) = some (c :: cs)
    rw [ih]
    rfl

/-- A string is read back from its text. -/
@[simp] theorem toString?_ofString (s : String) : toString? (ofString s) = some s := by
  simp [toString?, ofString, toChars?_ofChars]

end Text

/-- The hexadecimal digits of `n`, in lower case, at least `width` of them. -/
def hexDigits (width n : Nat) : List Char :=
  let ds := Nat.toDigits 16 n
  List.replicate (width - ds.length) '0' ++ ds

/-- A code point as characters: a lone surrogate is shown as `\u` and four hexadecimal digits. -/
def CodePoint.display : CodePoint → List Char
  | .scalar c => [c]
  | .surrogate n => '\\' :: 'u' :: hexDigits 4 (0xD800 + n.val)

/-- A text as a string, each lone surrogate shown as its escape. -/
def Text.display (t : Text) : String :=
  String.ofList (t.flatMap CodePoint.display)

end BitReaders
