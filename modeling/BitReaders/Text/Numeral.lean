import BitReaders.Text.Blank

/-!
# Integer numerals

A *numeral* is an optional sign and decimal digits of any script, with at most one underscore
between two digits and blanks around the whole. No numeral has more than `maxDigits` digits.

- `digitValue?`: the value of a decimal digit of any script (Unicode 14.0).
- `Numeral.Mark`: what a character can be inside a numeral.
- `Numeral.digits?`: the digits of an unsigned numeral, if underscores stand singly between them.
- `Numeral.read?`: the integer that a text denotes, if it is a numeral.
- `Numeral.Fits`: an integer has a numeral; `Numeral.limitMessage`: what is said if it has none.
-/

namespace BitReaders

/-- The decimal zeros; the digits one to nine of its script follow each. -/
def decimalZeros : List Nat :=
  [0x30, 0x660, 0x6F0, 0x7C0, 0x966, 0x9E6, 0xA66, 0xAE6, 0xB66, 0xBE6, 0xC66, 0xCE6, 0xD66,
    0xDE6, 0xE50, 0xED0, 0xF20, 0x1040, 0x1090, 0x17E0, 0x1810, 0x1946, 0x19D0, 0x1A80, 0x1A90,
    0x1B50, 0x1BB0, 0x1C40, 0x1C50, 0xA620, 0xA8D0, 0xA900, 0xA9D0, 0xA9F0, 0xAA50, 0xABF0,
    0xFF10, 0x104A0, 0x10D30, 0x11066, 0x110F0, 0x11136, 0x111D0, 0x112F0, 0x11450, 0x114D0,
    0x11650, 0x116C0, 0x11730, 0x118E0, 0x11950, 0x11C50, 0x11D50, 0x11DA0, 0x16A60, 0x16AC0,
    0x16B50, 0x1D7CE, 0x1D7D8, 0x1D7E2, 0x1D7EC, 0x1D7F6, 0x1E140, 0x1E2F0, 0x1E950, 0x1FBF0]

/-- The value of a character as a decimal digit. -/
def digitValue? (c : Char) : Option Nat :=
  (decimalZeros.find? fun z => z ≤ c.toNat && c.toNat ≤ z + 9).map (c.toNat - ·)

/-- The number that a list of decimal digits denotes, the most significant first. -/
def ofDigits (ds : List Nat) : Nat :=
  ds.foldl (fun n d => 10 * n + d) 0

namespace Numeral

/-- The most digits that a numeral may have, leading zeros included. -/
def maxDigits : Nat := 4300

/-- An integer has a numeral: it has no more digits than one may have. -/
def Fits (n : Int) : Prop :=
  (Nat.toDigits 10 n.natAbs).length ≤ maxDigits

instance (n : Int) : Decidable (Fits n) :=
  inferInstanceAs (Decidable (_ ≤ _))

/-- The wording for an integer with more digits, with a detail about it. -/
def limitMessage (detail : String) : String :=
  "Exceeds the limit (" ++ toString maxDigits ++ " digits) for integer string conversion" ++
    detail ++ "; use sys.set_int_max_str_digits() to increase the limit"

/-- What a character can be inside a numeral. -/
inductive Mark where
  | blank
  | plus
  | minus
  | underscore
  | digit (value : Nat)
  | other
  deriving DecidableEq, Repr

/-- The kind of a character inside a numeral. The information separators are no blanks here. -/
def Mark.ofChar (c : Char) : Mark :=
  if c = '+' then .plus
  else if c = '-' then .minus
  else if c = '_' then .underscore
  else if isBlank c.toNat && !(0x1C ≤ c.toNat && c.toNat ≤ 0x1F) then .blank
  else
    match digitValue? c with
    | some d => .digit d
    | none => .other

/-- The kind of a code point. A lone surrogate has no place in a numeral. -/
def Mark.ofCodePoint : CodePoint → Mark
  | .scalar c => .ofChar c
  | .surrogate _ => .other

/-- Whether a mark is a blank. -/
def Mark.isBlank (m : Mark) : Bool :=
  m == .blank

/-- The digits of an unsigned numeral: a digit, then digits that may have one underscore before
each. -/
def digits? : List Mark → Option (List Nat)
  | [.digit d] => some [d]
  | .digit d :: .underscore :: ms => (digits? ms).map (d :: ·)
  | .digit d :: ms => (digits? ms).map (d :: ·)
  | _ => none

/-- The number of an unsigned numeral within the limit on digits. -/
def unsigned? (ms : List Mark) : Option Nat :=
  (digits? ms).bind fun ds => if ds.length ≤ maxDigits then some (ofDigits ds) else none

/-- The integer of a numeral without blanks around it. -/
def signed? : List Mark → Option Int
  | .plus :: ms => (unsigned? ms).map Int.ofNat
  | .minus :: ms => (unsigned? ms).map fun n => -Int.ofNat n
  | ms => (unsigned? ms).map Int.ofNat

/-- The integer that a text denotes, if it is a numeral. -/
def read? (t : Text) : Option Int :=
  signed? (trimEnds Mark.isBlank (t.map Mark.ofCodePoint))

end Numeral

end BitReaders
