import BitReaders.Text.CodePoint

/-!
# White space

- `blanks`: the ranges of the Unicode white-space code points, with the four information
  separators U+001C to U+001F.
- `CodePoint.isBlank`: membership in one of them.
- `Text.trim`: a text without the blanks at its two ends.
-/

namespace BitReaders

/-- The white-space code points, as ranges in increasing order. -/
def blanks : List (Nat × Nat) :=
  [(0x09, 0x0D), (0x1C, 0x20), (0x85, 0x85), (0xA0, 0xA0), (0x1680, 0x1680), (0x2000, 0x200A),
    (0x2028, 0x2029), (0x202F, 0x202F), (0x205F, 0x205F), (0x3000, 0x3000)]

/-- Whether the code point with number `n` is white space. -/
def isBlank (n : Nat) : Bool :=
  blanks.any fun r => r.1 ≤ n && n ≤ r.2

/-- Whether a code point is white space. -/
def CodePoint.isBlank (c : CodePoint) : Bool :=
  BitReaders.isBlank c.val

/-- A list without the elements satisfying `p` at its two ends. -/
def trimEnds {α : Type} (p : α → Bool) (l : List α) : List α :=
  ((l.dropWhile p).reverse.dropWhile p).reverse

/-- A text without the white space at its two ends. -/
def Text.trim (t : Text) : Text :=
  trimEnds CodePoint.isBlank t

/-- Core's blank characters are white space. -/
theorem isBlank_of_isWhitespace {c : Char} (h : c.isWhitespace = true) :
    isBlank c.toNat = true := by
  simp only [Char.isWhitespace, Bool.or_eq_true, decide_eq_true_eq] at h
  rcases h with ((h | h) | h) | h <;> subst h <;> decide

end BitReaders
