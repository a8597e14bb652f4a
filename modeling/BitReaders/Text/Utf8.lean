/-!
# UTF-8

Octets to characters and back. Decoding is strict: it refuses overlong forms, surrogates and
numbers above U+10FFFF, and says where the first octet stands that no character can hold there.

- `Utf8.encode`: the octets of a list of characters.
- `Utf8.Flaw`: why octets are no text, with the octets from the character's first one up to the
  place of the flaw. `Flaw.message` is its wording.
- `Utf8.Partial`: a character of which some octets have been read.
- `Utf8.decode`: the characters, or the first flaw.
-/

namespace BitReaders.Utf8

/-! ## Encoding -/

/-- The octets of the scalar value with number `n`: one to four, by its size. -/
def encodeScalar (n : Nat) : List Nat :=
  if n < 0x80 then [n]
  else if n < 0x800 then [0xC0 + n / 0x40, 0x80 + n % 0x40]
  else if n < 0x10000 then [0xE0 + n / 0x1000, 0x80 + n / 0x40 % 0x40, 0x80 + n % 0x40]
  else
    [0xF0 + n / 0x40000, 0x80 + n / 0x1000 % 0x40, 0x80 + n / 0x40 % 0x40, 0x80 + n % 0x40]

/-- The octets of a list of characters. -/
def encode (cs : List Char) : List UInt8 :=
  cs.flatMap fun c => (encodeScalar c.toNat).map UInt8.ofNat

/-! ## Decoding -/

/-- Why octets are no text. -/
inductive Reason where
  /-- The octet begins no character. -/
  | start
  /-- The next octet does not continue the character. -/
  | continuation
  /-- The octets end inside the character. -/
  | ended
  deriving DecidableEq, Repr

/-- A flaw: its reason, the position and value of the first octet concerned, and how many octets
are concerned. -/
structure Flaw where
  reason : Reason
  position : Nat
  first : Nat
  size : Nat
  deriving DecidableEq, Repr

/-- The wording of a reason. -/
def Reason.message : Reason → String
  | .start => "invalid start byte"
  | .continuation => "invalid continuation byte"
  | .ended => "unexpected end of data"

/-- The octet in hexadecimal, two digits. -/
def hexOctet (n : Nat) : String :=
  String.ofList [Nat.digitChar (n / 16), Nat.digitChar (n % 16)]

/-- The wording of a flaw. -/
def Flaw.message (f : Flaw) : String :=
  let subject :=
    if f.size = 1 then
      "byte 0x" ++ hexOctet f.first ++ " in position " ++ toString f.position
    else
      "bytes in position " ++ toString f.position ++ "-" ++ toString (f.position + f.size - 1)
  "'utf-8' codec can't decode " ++ subject ++ ": " ++ f.reason.message

/-- A character of which some octets have been read: the position and value of the first, how many
have been read and how many are owed, the bounds of the next, and the number they form so far. -/
structure Partial where
  position : Nat
  first : Nat
  size : Nat
  owed : Nat
  low : Nat
  high : Nat
  number : Nat

/-- The flaw of a character cut short. -/
def Partial.flaw (p : Partial) (reason : Reason) : Flaw :=
  ⟨reason, p.position, p.first, p.size⟩

/-- The character that the octet `b` begins, if it begins one of several octets. The bounds of the
second octet exclude overlong forms, surrogates and numbers above U+10FFFF. -/
def Partial.begin? (position b : Nat) : Option Partial :=
  if 0xC2 ≤ b ∧ b ≤ 0xDF then some ⟨position, b, 1, 1, 0x80, 0xBF, b - 0xC0⟩
  else if 0xE0 ≤ b ∧ b ≤ 0xEF then
    some ⟨position, b, 1, 2, if b = 0xE0 then 0xA0 else 0x80, if b = 0xED then 0x9F else 0xBF,
      b - 0xE0⟩
  else if 0xF0 ≤ b ∧ b ≤ 0xF4 then
    some ⟨position, b, 1, 3, if b = 0xF0 then 0x90 else 0x80, if b = 0xF4 then 0x8F else 0xBF,
      b - 0xF0⟩
  else none

/-- The character after one more octet. -/
def Partial.push (p : Partial) (b : Nat) : Partial :=
  { p with
    size := p.size + 1
    owed := p.owed - 1
    low := 0x80
    high := 0xBF
    number := p.number * 0x40 + (b - 0x80) }

/-- The characters of the octets from `position` on, after the part of a character before them. -/
def decodeFrom (position : Nat) : Option Partial → List UInt8 → Except Flaw (List Char)
  | none, [] => .ok []
  | some p, [] => .error (p.flaw .ended)
  | none, b :: bs =>
    if b.toNat < 0x80 then
      (decodeFrom (position + 1) none bs).map (Char.ofNat b.toNat :: ·)
    else
      match Partial.begin? position b.toNat with
      | some p => decodeFrom (position + 1) (some p) bs
      | none => .error ⟨.start, position, b.toNat, 1⟩
  | some p, b :: bs =>
    if p.low ≤ b.toNat ∧ b.toNat ≤ p.high then
      let q := p.push b.toNat
      if q.owed = 0 then (decodeFrom (position + 1) none bs).map (Char.ofNat q.number :: ·)
      else decodeFrom (position + 1) (some q) bs
    else .error (p.flaw .continuation)

/-- The characters that octets encode, or the first flaw. -/
def decode (bs : List UInt8) : Except Flaw (List Char) :=
  decodeFrom 0 none bs

end BitReaders.Utf8
