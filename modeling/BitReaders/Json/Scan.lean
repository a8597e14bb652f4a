import BitReaders.Json.Value
import BitReaders.Text.Numeral

/-!
# The tokens of a JSON document

A document is a list of characters, and a position in it is the list of characters from there on.

- `Issue`: what can be wrong with a document, with its wording.
- `Flaw`: an issue at a position, or an integer with more digits than are read.
- `skipBlanks`: a position past white space.
- `scanString`: a string after its opening quote; `scanEscape`, one escape of it.
- `scanNumber`: a number, if one starts here.
- `scanLiteral`: `null`, a truth value, `NaN` or an infinity, if one starts here.

Every scanner ends at a later position (`scanString_lt`, `scanScalar_lt`).
-/

namespace BitReaders.Json

/-! ## Flaws -/

/-- What can be wrong with a document. -/
inductive Issue where
  | byteOrderMark
  | value
  | name
  | colon
  | comma
  | extra
  | unterminated
  | control
  | escape
  | unitEscape
  deriving DecidableEq, Repr

/-- The wording of an issue. -/
def Issue.message : Issue → String
  | .byteOrderMark => "Unexpected UTF-8 BOM (decode using utf-8-sig)"
  | .value => "Expecting value"
  | .name => "Expecting property name enclosed in double quotes"
  | .colon => "Expecting ':' delimiter"
  | .comma => "Expecting ',' delimiter"
  | .extra => "Extra data"
  | .unterminated => "Unterminated string starting at"
  | .control => "Invalid control character at"
  | .escape => "Invalid \\escape"
  | .unitEscape => "Invalid \\uXXXX escape"

/-- Why a document cannot be read. -/
inductive Flaw where
  /-- The issue arises at the position before `rest`. -/
  | malformed (issue : Issue) (rest : List Char)
  /-- An integer has `digits` digits, which are too many. -/
  | oversized (digits : Nat)
  deriving DecidableEq, Repr

/-! ## White space and digits -/

/-- The white space between tokens. -/
def isSpace (c : Char) : Bool :=
  c = ' ' || c = '\t' || c = '\n' || c = '\r'

/-- The position past white space. -/
def skipBlanks (cs : List Char) : List Char :=
  cs.dropWhile isSpace

theorem skipBlanks_length_le (cs : List Char) : (skipBlanks cs).length ≤ cs.length :=
  (List.dropWhile_suffix _).length_le

/-- The value of a hexadecimal digit in either case. -/
def hexValue? (c : Char) : Option Nat :=
  if '0' ≤ c ∧ c ≤ '9' then some (c.toNat - 48)
  else if 'a' ≤ c ∧ c ≤ 'f' then some (c.toNat - 87)
  else if 'A' ≤ c ∧ c ≤ 'F' then some (c.toNat - 55)
  else none

/-- The value of four hexadecimal digits, if a character follows them. -/
def hexUnit? : List Char → Option (Nat × List Char)
  | a :: b :: c :: d :: e :: cs => do
    let a ← hexValue? a
    let b ← hexValue? b
    let c ← hexValue? c
    let d ← hexValue? d
    return (((a * 16 + b) * 16 + c) * 16 + d, e :: cs)
  | _ => none

theorem hexUnit?_lt {cs r : List Char} {n : Nat} (h : hexUnit? cs = some (n, r)) :
    r.length < cs.length := by
  unfold hexUnit? at h
  split at h
  · simp only [Option.bind_eq_bind, Option.bind_eq_some_iff, Option.pure_def,
      Option.some.injEq, Prod.mk.injEq] at h
    obtain ⟨_, _, _, _, _, _, _, _, _, rfl⟩ := h
    simp only [List.length_cons]
    omega
  · simp at h

/-! ## Strings -/

/-- The character that one letter after a backslash stands for. -/
def simpleEscape? : Char → Option Char
  | '"' => some '"'
  | '\\' => some '\\'
  | '/' => some '/'
  | 'b' => some '\x08'
  | 'f' => some '\x0c'
  | 'n' => some '\n'
  | 'r' => some '\r'
  | 't' => some '\t'
  | _ => none

/-- A low surrogate escaped at this position, after which the text goes on; none if no escape of a
unit stands here or the unit is no low surrogate. -/
def scanLow (cs : List Char) : Except Flaw (Option (Nat × List Char)) :=
  match cs with
  | '\\' :: 'u' :: r =>
    if r.length < 5 then .ok none
    else
      match hexUnit? r with
      | none => .error (.malformed .unitEscape ('u' :: r))
      | some (n, s) => if 0xDC00 ≤ n ∧ n < 0xE000 then .ok (some (n, s)) else .ok none
  | _ => .ok none

/-- An escaped unit after its `u`. A high surrogate and a low one after it make one code point. -/
def scanUnit (cs : List Char) : Except Flaw (CodePoint × List Char) :=
  match hexUnit? cs with
  | none => .error (.malformed .unitEscape ('u' :: cs))
  | some (n, r) =>
    if 0xD800 ≤ n ∧ n < 0xDC00 then
      match scanLow r with
      | .error f => .error f
      | .ok (some (m, s)) =>
        .ok (.scalar (Char.ofNat (0x10000 + (n - 0xD800) * 0x400 + (m - 0xDC00))), s)
      | .ok none => .ok (.ofUnit n, r)
    else .ok (.ofUnit n, r)

/-- One escape after its backslash, in the string that opens at `opening`. -/
def scanEscape (opening : List Char) : List Char → Except Flaw (CodePoint × List Char)
  | [] => .error (.malformed .unterminated opening)
  | 'u' :: cs => scanUnit cs
  | c :: cs =>
    match simpleEscape? c with
    | some d => .ok (.scalar d, cs)
    | none => .error (.malformed .escape ('\\' :: c :: cs))

theorem scanLow_lt {cs r : List Char} {n : Nat} (h : scanLow cs = .ok (some (n, r))) :
    r.length < cs.length := by
  unfold scanLow at h
  split at h
  · rename_i s
    split at h
    · simp at h
    · split at h
      · simp at h
      · rename_i m t hm
        have := hexUnit?_lt hm
        split at h
        · simp only [Except.ok.injEq, Option.some.injEq, Prod.mk.injEq] at h
          obtain ⟨-, rfl⟩ := h
          simp only [List.length_cons]
          omega
        · simp at h
  · simp at h

theorem scanUnit_lt {cs r : List Char} {c : CodePoint} (h : scanUnit cs = .ok (c, r)) :
    r.length < cs.length := by
  unfold scanUnit at h
  split at h
  · simp at h
  · rename_i n s hn
    have hs := hexUnit?_lt hn
    split at h
    · split at h
      · simp at h
      · rename_i m t hm
        have := scanLow_lt hm
        simp only [Except.ok.injEq, Prod.mk.injEq] at h
        obtain ⟨-, rfl⟩ := h
        omega
      · simp only [Except.ok.injEq, Prod.mk.injEq] at h
        obtain ⟨-, rfl⟩ := h
        exact hs
    · simp only [Except.ok.injEq, Prod.mk.injEq] at h
      obtain ⟨-, rfl⟩ := h
      exact hs

theorem scanEscape_lt {opening cs r : List Char} {c : CodePoint}
    (h : scanEscape opening cs = .ok (c, r)) : r.length < cs.length := by
  unfold scanEscape at h
  split at h
  · simp at h
  · have := scanUnit_lt h
    simp only [List.length_cons]
    omega
  · split at h
    · simp only [Except.ok.injEq, Prod.mk.injEq] at h
      obtain ⟨-, rfl⟩ := h
      simp
    · simp at h

/-- A string after its opening quote, which stands at `opening`: its text, and the position past
the closing quote. -/
def scanString (opening : List Char) (cs : List Char) : Except Flaw (Text × List Char) :=
  match cs with
  | [] => .error (.malformed .unterminated opening)
  | '"' :: cs => .ok ([], cs)
  | '\\' :: cs =>
    match h : scanEscape opening cs with
    | .error f => .error f
    | .ok (c, r) =>
      have : r.length < cs.length := scanEscape_lt h
      (scanString opening r).map fun p => (c :: p.1, p.2)
  | c :: cs =>
    if c.toNat ≤ 0x1F then .error (.malformed .control (c :: cs))
    else (scanString opening cs).map fun p => (.scalar c :: p.1, p.2)
  termination_by cs.length

theorem scanString_lt {opening cs r : List Char} {t : Text}
    (h : scanString opening cs = .ok (t, r)) : r.length < cs.length := by
  fun_induction scanString opening cs generalizing t r with
  | case1 => simp at h
  | case2 cs =>
    simp only [Except.ok.injEq, Prod.mk.injEq] at h
    obtain ⟨-, rfl⟩ := h
    simp
  | case3 cs f hf => simp at h
  | case4 cs c s hs hlt ih =>
    cases hr : scanString opening s with
    | error f => simp [hr, Except.map] at h
    | ok p =>
      simp only [hr, Except.map, Except.ok.injEq, Prod.mk.injEq] at h
      obtain ⟨-, rfl⟩ := h
      have := ih (t := p.1) (r := p.2) hr
      simp only [List.length_cons]
      omega
  | case5 c cs _ _ hc => simp at h
  | case6 c cs _ _ hc ih =>
    cases hr : scanString opening cs with
    | error f => simp [hr, Except.map] at h
    | ok p =>
      simp only [hr, Except.map, Except.ok.injEq, Prod.mk.injEq] at h
      obtain ⟨-, rfl⟩ := h
      have := ih (t := p.1) (r := p.2) hr
      simp only [List.length_cons]
      omega

/-! ## Literals and numbers -/

/-- The words that denote values. -/
def literals : List (String × Value) :=
  [("null", .null), ("true", .bool true), ("false", .bool false), ("NaN", .real .nan),
    ("Infinity", .real (.infinite false)), ("-Infinity", .real (.infinite true))]

/-- The value of the word that stands here, and the position past it. -/
def scanLiteral (cs : List Char) : Option (Value × List Char) :=
  literals.findSome? fun l => (List.isPrefixOf? l.1.toList cs).map (l.2, ·)

/-- The value of a list of ASCII digits. -/
def digitsValue (ds : List Char) : Nat :=
  ofDigits (ds.map fun c => c.toNat - 48)

/-- The digits of an integer without its sign: one zero, or digits that do not start with one. -/
def scanWhole : List Char → Option (List Char × List Char)
  | [] => none
  | c :: cs =>
    if c = '0' then some (['0'], cs)
    else if c.isDigit then some ((c :: cs).takeWhile Char.isDigit, (c :: cs).dropWhile Char.isDigit)
    else none

/-- The digits after a point; none if no point stands here with a digit after it. -/
def scanFraction : List Char → List Char × List Char
  | '.' :: cs =>
    let ds := cs.takeWhile Char.isDigit
    if ds.isEmpty then ([], '.' :: cs) else (ds, cs.dropWhile Char.isDigit)
  | cs => ([], cs)

/-- The digits of an exponent, after its sign. -/
def exponentDigits (negative : Bool) (cs : List Char) : Option (Int × List Char) :=
  let ds := cs.takeWhile Char.isDigit
  if ds.isEmpty then none
  else
    let n : Int := digitsValue ds
    some (if negative then -n else n, cs.dropWhile Char.isDigit)

/-- The exponent that stands here, if any. -/
def scanExponent : List Char → Option (Int × List Char)
  | c :: cs =>
    if c = 'e' ∨ c = 'E' then
      match cs with
      | '-' :: r => exponentDigits true r
      | '+' :: r => exponentDigits false r
      | r => exponentDigits false r
    else none
  | [] => none

/-- The number that stands here after its sign. Without a fraction and an exponent it is an integer,
else a double. -/
def scanUnsigned (negative : Bool) (cs : List Char) : Option (Except Flaw (Value × List Char)) :=
  (scanWhole cs).map fun (whole, r) =>
    let (fraction, r) := scanFraction r
    let exponent := scanExponent r
    if fraction.isEmpty ∧ exponent.isNone then
      if whole.length > Numeral.maxDigits then .error (.oversized whole.length)
      else
        let n : Int := digitsValue whole
        .ok (.integer (if negative then -n else n), r)
    else
      let (e, r) := exponent.getD (0, r)
      let x := Binary64.ofDecimal (digitsValue (whole ++ fraction)) (e - fraction.length)
      .ok (.real (if negative then x.neg else x), r)

/-- The number that stands here, and the position past it. -/
def scanNumber : List Char → Option (Except Flaw (Value × List Char))
  | '-' :: cs => scanUnsigned true cs
  | cs => scanUnsigned false cs

/-- The literal or number that stands here, and the position past it. -/
def scanScalar (cs : List Char) : Except Flaw (Value × List Char) :=
  match scanLiteral cs with
  | some p => .ok p
  | none => (scanNumber cs).getD (.error (.malformed .value cs))

/-! ## Progress -/

theorem isPrefixOf?_length {p cs r : List Char} (h : List.isPrefixOf? p cs = some r) :
    cs.length = p.length + r.length := by
  induction p generalizing cs with
  | nil =>
    cases h
    simp
  | cons a p ih =>
    cases cs with
    | nil => cases h
    | cons c cs =>
      have hrest : (if a == c then List.isPrefixOf? p cs else none) = some r := h
      split at hrest
      · have := ih hrest
        simp only [List.length_cons]
        omega
      · cases hrest

theorem literal_length_pos : ∀ l ∈ literals, 0 < l.1.toList.length := by
  decide

theorem scanLiteral_lt {cs r : List Char} {v : Value} (h : scanLiteral cs = some (v, r)) :
    r.length < cs.length := by
  obtain ⟨l, hl, hp⟩ := List.exists_of_findSome?_eq_some h
  obtain ⟨s, hs, he⟩ := Option.map_eq_some_iff.mp hp
  simp only [Prod.mk.injEq] at he
  obtain ⟨-, rfl⟩ := he
  have hlen := isPrefixOf?_length hs
  have hpos := literal_length_pos l hl
  omega

theorem dropWhile_length_le (p : Char → Bool) (cs : List Char) :
    (cs.dropWhile p).length ≤ cs.length :=
  (List.dropWhile_suffix _).length_le

theorem scanWhole_lt {cs ds r : List Char} (h : scanWhole cs = some (ds, r)) :
    r.length < cs.length := by
  unfold scanWhole at h
  split at h
  · simp at h
  · rename_i c cs
    split at h
    · simp only [Option.some.injEq, Prod.mk.injEq] at h
      obtain ⟨-, rfl⟩ := h
      simp
    · split at h
      · rename_i hd
        simp only [Option.some.injEq, Prod.mk.injEq] at h
        obtain ⟨-, rfl⟩ := h
        rw [List.dropWhile_cons_of_pos hd]
        have := dropWhile_length_le Char.isDigit cs
        simp only [List.length_cons]
        omega
      · simp at h

theorem scanFraction_le (cs : List Char) : (scanFraction cs).2.length ≤ cs.length := by
  unfold scanFraction
  split
  · rename_i cs
    have := dropWhile_length_le Char.isDigit cs
    simp only
    split <;> simp only [List.length_cons] <;> omega
  · exact Nat.le_refl _

theorem exponentDigits_le {negative : Bool} {cs r : List Char} {n : Int}
    (h : exponentDigits negative cs = some (n, r)) : r.length ≤ cs.length := by
  unfold exponentDigits at h
  simp only at h
  split at h
  · simp at h
  · simp only [Option.some.injEq, Prod.mk.injEq] at h
    obtain ⟨-, rfl⟩ := h
    exact dropWhile_length_le _ _

theorem scanExponent_le {cs r : List Char} {n : Int} (h : scanExponent cs = some (n, r)) :
    r.length ≤ cs.length := by
  unfold scanExponent at h
  split at h
  · split at h
    · split at h <;>
      · have := exponentDigits_le h
        simp only [List.length_cons] at this ⊢
        omega
    · simp at h
  · simp at h

theorem scanUnsigned_lt {negative : Bool} {cs r : List Char} {v : Value}
    (h : scanUnsigned negative cs = some (.ok (v, r))) : r.length < cs.length := by
  obtain ⟨⟨whole, s⟩, hw, h⟩ := Option.map_eq_some_iff.mp h
  have hs := scanWhole_lt hw
  have hf := scanFraction_le s
  simp only at h
  split at h
  · split at h
    · simp at h
    · simp only [Except.ok.injEq, Prod.mk.injEq] at h
      obtain ⟨-, rfl⟩ := h
      omega
  · simp only [Except.ok.injEq, Prod.mk.injEq] at h
    obtain ⟨-, rfl⟩ := h
    cases he : scanExponent (scanFraction s).2 with
    | none =>
      simp only [Option.getD_none]
      omega
    | some p =>
      have := scanExponent_le (n := p.1) (r := p.2) he
      simp only [Option.getD_some]
      omega

/-- A scalar ends at a later position. -/
theorem scanScalar_lt {cs r : List Char} {v : Value} (h : scanScalar cs = .ok (v, r)) :
    r.length < cs.length := by
  unfold scanScalar at h
  split at h
  · rename_i p hp
    simp only [Except.ok.injEq] at h
    subst h
    exact scanLiteral_lt hp
  · cases hn : scanNumber cs with
    | none => simp [hn] at h
    | some e =>
      simp only [hn, Option.getD_some] at h
      subst h
      unfold scanNumber at hn
      split at hn
      · have := scanUnsigned_lt hn
        simp only [List.length_cons]
        omega
      · exact scanUnsigned_lt hn

end BitReaders.Json
