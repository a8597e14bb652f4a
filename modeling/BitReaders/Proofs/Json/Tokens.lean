import BitReaders.Json.Reader
import BitReaders.Proofs.Json.Texts
import Mathlib.Data.List.TakeWhile

/-!
# Reading tokens

Each token that is written is read back by the scanner for it, whatever follows.

- `Written.exists_skipBlanks_eq`: past the white space the next token is written.
- `scanString_flatten`: a string is read back, however its characters are escaped.
- `Stops`, `scanScalar_integer`: an integer is read back where no number goes on after it.
- `Ends`, `Written.stops`: no number goes on in front of a mark, or at the end.
- `State.stepValue_scalar`: a scalar is read back in one step.
-/

namespace BitReaders.Json

/-! ## White space -/

theorem Blank.isSpace {bs : List Char} (h : Blank bs) : ∀ b ∈ bs, isSpace b = true := by
  intro b hb
  have hspace := h b hb
  simp only [List.mem_cons, List.not_mem_nil, or_false] at hspace
  rcases hspace with rfl | rfl | rfl | rfl <;> rfl

/-- A token is no white space. -/
theorem WrittenToken.not_isSpace {t : Token} {c : Char} {cs : List Char}
    (h : WrittenToken t (c :: cs)) : isSpace c = false := by
  have hle := h.forall_le c List.mem_cons_self
  obtain ⟨d, ds, heq, hspace, -⟩ := h.exists_cons
  obtain ⟨rfl, -⟩ := List.cons.inj heq
  rw [Json.isSpace, decide_eq_false hspace, Bool.false_or, Bool.or_eq_false_iff,
    Bool.or_eq_false_iff]
  refine ⟨⟨decide_eq_false ?_, decide_eq_false ?_⟩, decide_eq_false ?_⟩ <;>
  · rintro rfl
    exact absurd hle (by decide)

theorem skipBlanks_append {bs : List Char} (h : Blank bs) (cs : List Char) :
    skipBlanks (bs ++ cs) = skipBlanks cs :=
  List.dropWhile_append_of_pos h.isSpace

namespace Written

variable {t : Token} {ts : List Token} {m : Mark} {cs : List Char}

/-- After the last token there is white space only. -/
theorem skipBlanks_eq_nil (h : Written [] cs) : skipBlanks cs = [] := by
  cases h with
  | nil h => exact List.dropWhile_eq_nil_iff.mpr h.isSpace

/-- Past the white space the next token is written. -/
theorem exists_skipBlanks_eq (h : Written (t :: ts) cs) :
    ∃ text rest, skipBlanks cs = text ++ rest ∧ WrittenToken t text ∧ Written ts rest := by
  cases h with
  | @cons _ _ bs text rest hbs ht hts =>
    refine ⟨text, rest, ?_, ht, hts⟩
    obtain ⟨c, cs, rfl, -, -⟩ := ht.exists_cons
    rw [skipBlanks_append hbs, skipBlanks, List.cons_append,
      List.dropWhile_cons_of_neg (by rw [ht.not_isSpace]; exact Bool.false_ne_true)]

theorem exists_skipBlanks_eq_mark (h : Written (.mark m :: ts) cs) :
    ∃ rest, skipBlanks cs = m.char :: rest ∧ Written ts rest := by
  obtain ⟨text, rest, hskip, ht, hts⟩ := h.exists_skipBlanks_eq
  cases ht
  exact ⟨rest, hskip, hts⟩

end Written

/-! ## Strings -/

/-- The case of a letter does not matter for its value. -/
theorem hexValue?_toLower (c : Char) : hexValue? c.toLower = hexValue? c := by
  by_cases h : c.toNat < 0x60
  · have hsmall : ∀ n < 0x60, hexValue? (Char.ofNat n).toLower = hexValue? (Char.ofNat n) := by
      decide
    have hc := hsmall c.toNat h
    rwa [Char.ofNat_toNat] at hc
  · have hval : ¬ (c.val ≥ 'A'.val ∧ c.val ≤ 'Z'.val) := by
      rintro ⟨-, hle⟩
      have hle' : c.toNat ≤ 'Z'.toNat := hle
      exact h (Nat.lt_of_le_of_lt hle' (by decide))
    have hlower : c.toLower = c := dif_neg hval
    rw [hlower]

/-- Four hexadecimal digits in either case are read as their number. -/
theorem hexUnit?_of_map_toLower_eq {n : Nat} (hn : n < 0x60) {ds : List Char}
    (hds : ds.map Char.toLower = hexDigits 4 n) (c : Char) (cs : List Char) :
    hexUnit? (ds ++ c :: cs) = some (n, c :: cs) := by
  have hdigit : ∀ k < 16, hexValue? (Nat.digitChar k) = some k := by decide
  rw [hexDigits_four_eq n hn] at hds
  obtain ⟨d₁, ds₁, rfl, h₁, hds⟩ := List.map_eq_cons_iff.mp hds
  obtain ⟨d₂, ds₂, rfl, h₂, hds⟩ := List.map_eq_cons_iff.mp hds
  obtain ⟨d₃, ds₃, rfl, h₃, hds⟩ := List.map_eq_cons_iff.mp hds
  obtain ⟨d₄, ds₄, rfl, h₄, hds⟩ := List.map_eq_cons_iff.mp hds
  obtain rfl := List.map_eq_nil_iff.mp hds
  have hv₁ : hexValue? d₁ = some 0 := by rw [← hexValue?_toLower, h₁]; rfl
  have hv₂ : hexValue? d₂ = some 0 := by rw [← hexValue?_toLower, h₂]; rfl
  have hv₃ : hexValue? d₃ = some (n / 16) := by
    rw [← hexValue?_toLower, h₃, hdigit _ (by omega)]
  have hv₄ : hexValue? d₄ = some (n % 16) := by
    rw [← hexValue?_toLower, h₄, hdigit _ (by omega)]
  show (do
    let a ← hexValue? d₁
    let b ← hexValue? d₂
    let e ← hexValue? d₃
    let f ← hexValue? d₄
    return (((a * 16 + b) * 16 + e) * 16 + f, c :: cs)) = _
  rw [hv₁, hv₂, hv₃, hv₄]
  have hnumber : ((0 * 16 + 0) * 16 + n / 16) * 16 + n % 16 = n := by omega
  exact congrArg (fun k => some (k, c :: cs)) hnumber

theorem scanUnit_of_map_toLower_eq {c : Char} (hc : c.toNat < 0x60) {ds : List Char}
    (hds : ds.map Char.toLower = hexDigits 4 c.toNat) (d : Char) (cs : List Char) :
    scanUnit (ds ++ d :: cs) = .ok (.scalar c, d :: cs) := by
  rw [scanUnit, hexUnit?_of_map_toLower_eq hc hds]
  dsimp only
  rw [if_neg (by omega), CodePoint.ofUnit, dif_neg (by omega), Char.ofNat_toNat]

section Strings

variable {opening cs : List Char}

/-- A string goes on with a character as it is. -/
theorem scanString_raw {c : Char} (h : ¬ NeedsEscape c) :
    scanString opening (c :: cs) =
      (scanString opening cs).map fun p => (.scalar c :: p.1, p.2) := by
  have hquote : c ≠ '"' := fun hc => h (.inl hc)
  have hbackslash : c ≠ '\\' := fun hc => h (.inr (.inl hc))
  have hcontrol : ¬ c.toNat ≤ 0x1F := fun hc => h (.inr (.inr (Nat.lt_succ_of_le hc)))
  rw [scanString, if_neg hcontrol]
  · exact hquote
  · exact hbackslash

/-- A string goes on after an escape. -/
theorem scanString_escape {c : CodePoint} {rest : List Char}
    (h : scanEscape opening cs = .ok (c, rest)) :
    scanString opening ('\\' :: cs) =
      (scanString opening rest).map fun p => (c :: p.1, p.2) := by
  rw [scanString]
  split
  · rename_i f hf
    cases h.symm.trans hf
  · rename_i d r hr
    cases h.symm.trans hr
    rfl

/-- Each written character is read back, if something follows it. -/
theorem scanString_writtenChar {c d : Char} {p : List Char} (h : WrittenChar c p) :
    scanString opening (p ++ d :: cs) =
      (scanString opening (d :: cs)).map fun q => (.scalar c :: q.1, q.2) := by
  cases h with
  | raw h => exact scanString_raw h
  | @letter l h =>
    have hletters : escapeLetters.all fun e =>
        decide (simpleEscape? e.2 = some e.1) && decide (e.2 ≠ 'u') := by decide
    have hl := List.all_eq_true.mp hletters _ h
    rw [Bool.and_eq_true, decide_eq_true_iff, decide_eq_true_iff] at hl
    refine scanString_escape ?_
    show scanEscape opening (l :: d :: cs) = _
    rw [scanEscape, hl.1]
    exact hl.2
  | unit h hds =>
    refine scanString_escape ?_
    exact scanUnit_of_map_toLower_eq h.toNat_lt hds d cs

/-- **A written string is read back.** -/
theorem scanString_flatten {rest : List Char} {ps : List (List Char)}
    (h : List.Forall₂ WrittenChar cs ps) :
    scanString opening (ps.flatten ++ '"' :: rest) = .ok (Text.ofChars cs, rest) := by
  induction h with
  | nil =>
    show scanString opening ('"' :: rest) = _
    rw [scanString]
    rfl
  | @cons c p cs ps hp _ ih =>
    -- The closing quote at least follows the character, which an escaped number needs.
    obtain ⟨d, ds, hd⟩ : ∃ d ds, ps.flatten ++ '"' :: rest = d :: ds :=
      List.exists_cons_of_ne_nil (by simp)
    rw [List.flatten_cons, List.append_assoc, hd, scanString_writtenChar hp, ← hd, ih]
    rfl

end Strings

/-! ## Integers -/

/-- No number goes on at this position. -/
def Stops (cs : List Char) : Prop :=
  ∀ c ∈ cs.head?, c.isDigit = false ∧ c ≠ '.' ∧ c ≠ 'e' ∧ c ≠ 'E'

section Integers

variable {rest : List Char}

theorem Stops.takeWhile_isDigit (h : Stops rest) : rest.takeWhile Char.isDigit = [] := by
  cases rest with
  | nil => rfl
  | cons c cs => exact List.takeWhile_cons_of_neg (by rw [(h c rfl).1]; exact Bool.false_ne_true)

theorem Stops.dropWhile_isDigit (h : Stops rest) : rest.dropWhile Char.isDigit = rest := by
  cases rest with
  | nil => rfl
  | cons c cs => exact List.dropWhile_cons_of_neg (by rw [(h c rfl).1]; exact Bool.false_ne_true)

theorem Stops.scanFraction (h : Stops rest) : scanFraction rest = ([], rest) := by
  cases rest with
  | nil => rfl
  | cons c cs =>
    obtain ⟨-, hpoint, -, -⟩ := h c rfl
    rw [Json.scanFraction]
    rintro cs' heq
    exact hpoint (List.cons.inj heq).1

theorem Stops.scanExponent (h : Stops rest) : scanExponent rest = none := by
  cases rest with
  | nil => rfl
  | cons c cs =>
    obtain ⟨-, -, hsmall, hcapital⟩ := h c rfl
    show (if c = 'e' ∨ c = 'E' then _ else none) = none
    rw [if_neg (not_or.mpr ⟨hsmall, hcapital⟩)]

/-- The digits of a number are all that is taken. -/
theorem scanWhole_toDigits (n : Nat) (h : Stops rest) :
    scanWhole (Nat.toDigits 10 n ++ rest) = some (Nat.toDigits 10 n, rest) := by
  cases n with
  | zero => rfl
  | succ n =>
    have hall : ∀ c ∈ Nat.toDigits 10 (n + 1), c.isDigit = true :=
      fun _ => Conditional.isDigit_of_mem_toDigits
    have hzero := Conditional.head?_toDigits_ne_zero (Nat.succ_pos n)
    have htake : (Nat.toDigits 10 (n + 1) ++ rest).takeWhile Char.isDigit =
        Nat.toDigits 10 (n + 1) := by
      rw [List.takeWhile_append_of_pos hall, h.takeWhile_isDigit, List.append_nil]
    have hdrop : (Nat.toDigits 10 (n + 1) ++ rest).dropWhile Char.isDigit = rest := by
      rw [List.dropWhile_append_of_pos hall, h.dropWhile_isDigit]
    obtain ⟨c, cs, hcs⟩ := List.exists_cons_of_ne_nil (Nat.toDigits_ne_nil (n := n + 1) (b := 10))
    rw [hcs] at hall hzero htake hdrop ⊢
    have hc : c ≠ '0' := fun hc => hzero (hc ▸ rfl)
    rw [List.cons_append] at htake hdrop ⊢
    rw [scanWhole, if_neg hc, if_pos (hall c List.mem_cons_self), htake, hdrop]

theorem digitsValue_toDigits (n : Nat) : digitsValue (Nat.toDigits 10 n) = n := by
  have hvalue := Nat.ofDigitChars_toDigits (b := 10) (n := n) (by decide) (by decide)
  rw [digitsValue, ofDigits, List.foldl_map]
  exact hvalue

theorem scanUnsigned_toDigits (negative : Bool) {n : Nat}
    (hn : (Nat.toDigits 10 n).length ≤ Numeral.maxDigits) (h : Stops rest) :
    scanUnsigned negative (Nat.toDigits 10 n ++ rest) =
      some (.ok (.integer (if negative then -n else n), rest)) := by
  rw [scanUnsigned, scanWhole_toDigits n h, Option.map_some]
  simp only [h.scanFraction, h.scanExponent]
  rw [if_pos ⟨rfl, rfl⟩, if_neg (Nat.not_lt.mpr hn), digitsValue_toDigits]

/-- A text with a digit among its first two characters starts with no word for a value. -/
theorem scanLiteral_eq_none {cs : List Char} {i : Nat} {c : Char} (hi : i < 2)
    (hc : cs[i]? = some c) (hdigit : c.isDigit = true) : scanLiteral cs = none := by
  have htable : ∀ i < 2, literals.all fun l =>
      decide (2 ≤ l.1.toList.length) && l.1.toList[i]?.all fun c => !c.isDigit := by decide
  rw [scanLiteral, List.findSome?_eq_none_iff]
  intro l hl
  rw [Option.map_eq_none_iff, Option.eq_none_iff_forall_ne_some]
  intro r hr
  have hl := List.all_eq_true.mp (htable i hi) l hl
  rw [Bool.and_eq_true, decide_eq_true_iff] at hl
  rw [← List.append_eq_of_isPrefixOf?_eq_some hr, List.getElem?_append_left (by omega)] at hc
  rw [hc, Option.all_some, hdigit] at hl
  exact Bool.false_ne_true hl.2

/-- **A written integer is read back**, if it is not too long and no number goes on after it. -/
theorem scanScalar_integer {n : Int}
    (hn : (Nat.toDigits 10 n.natAbs).length ≤ Numeral.maxDigits) (h : Stops rest) :
    scanScalar ((toString n).toList ++ rest) = .ok (.integer n, rest) := by
  cases n with
  | ofNat n =>
    have hnumber : scanUnsigned false (Nat.toDigits 10 n ++ rest) =
        some (.ok (.integer n, rest)) := scanUnsigned_toDigits false hn h
    obtain ⟨c, cs, hcs⟩ := List.exists_cons_of_ne_nil (Nat.toDigits_ne_nil (n := n) (b := 10))
    have hc : c.isDigit = true :=
      Conditional.isDigit_of_mem_toDigits (n := n) (hcs ▸ List.mem_cons_self)
    show scanScalar ((toString n).toList ++ rest) = _
    rw [Conditional.toList_toString_nat]
    rw [hcs, List.cons_append] at hnumber ⊢
    rw [scanScalar, scanLiteral_eq_none (Nat.succ_pos 1) rfl hc, scanNumber, hnumber]
    · rfl
    · rintro cs' heq
      obtain ⟨rfl, -⟩ := List.cons.inj heq
      exact absurd hc (by decide)
  | negSucc n =>
    have hnumber : scanUnsigned true (Nat.toDigits 10 (n + 1) ++ rest) =
        some (.ok (.integer (Int.negSucc n), rest)) := scanUnsigned_toDigits true hn h
    obtain ⟨c, cs, hcs⟩ := List.exists_cons_of_ne_nil (Nat.toDigits_ne_nil (n := n + 1) (b := 10))
    have hc : c.isDigit = true :=
      Conditional.isDigit_of_mem_toDigits (n := n + 1) (hcs ▸ List.mem_cons_self)
    rw [Conditional.toList_toString_negSucc, List.cons_append]
    rw [hcs, List.cons_append] at hnumber ⊢
    rw [scanScalar, scanLiteral_eq_none (Nat.lt_succ_self 1) rfl hc, scanNumber, hnumber]
    rfl

end Integers

/-! ## Tokens -/

/-- The tokens that follow a value: none, or a mark first. -/
def Ends (ts : List Token) : Prop :=
  ∀ t ∈ ts.head?, ∃ m, t = .mark m

/-- No number goes on where such tokens are written. -/
theorem Written.stops {ts : List Token} {cs : List Char} (h : Written ts cs) (hts : Ends ts) :
    Stops cs := by
  have hblank : ∀ {b : Char}, b ∈ [' ', '\t', '\n', '\r'] →
      b.isDigit = false ∧ b ≠ '.' ∧ b ≠ 'e' ∧ b ≠ 'E' := by
    intro b hb
    simp only [List.mem_cons, List.not_mem_nil, or_false] at hb
    rcases hb with rfl | rfl | rfl | rfl <;> decide
  intro c hc
  cases h with
  | nil h => exact hblank (h c (List.mem_of_mem_head? hc))
  | @cons t ts bs text cs hbs ht _ =>
    cases bs with
    | cons b bs =>
      obtain rfl : b = c := Option.some.inj hc
      exact hblank (hbs b List.mem_cons_self)
    | nil =>
      obtain ⟨m, rfl⟩ := hts t rfl
      cases ht
      obtain rfl : m.char = c := Option.some.inj hc
      cases m <;> decide

namespace State

variable {stack : List Frame}

/-- A value that starts with no bracket, brace or quote is a literal or a number. -/
theorem stepValue_eq_scanScalar {c : Char} {cs : List Char} (harray : c ≠ '[')
    (hobject : c ≠ '\x7b') (hstring : c ≠ '"') :
    stepValue stack (c :: cs) =
      (scanScalar (c :: cs)).map fun p => (.afterValue p.1 stack, p.2) := by
  rw [stepValue]
  · rintro r heq
    exact harray (List.cons.inj heq).1
  · rintro r heq
    exact hobject (List.cons.inj heq).1
  · rintro r heq
    exact hstring (List.cons.inj heq).1

/-- **A written scalar is read back** in one step. -/
theorem stepValue_scalar {v : Value} (hv : v.Storable) {text rest : List Char}
    (h : WrittenToken (.scalar v) text) (hrest : Stops rest) :
    stepValue stack (text ++ rest) = .ok (.afterValue v stack, rest) := by
  cases h with
  | null => rfl
  | bool b => cases b <;> rfl
  | integer n =>
    cases hv with
    | integer hn =>
      obtain ⟨c, cs, hcs⟩ := List.exists_cons_of_ne_nil (Conditional.toList_toString_ne_nil n)
      have hc : c = '-' ∨ c.isDigit = true :=
        Conditional.of_mem_toString (hcs ▸ List.mem_cons_self)
      have hne : ∀ d, (d = '-' ∨ d.isDigit = true) = False → c ≠ d := by
        rintro d hd rfl
        rwa [hd] at hc
      have hscan := scanScalar_integer hn hrest
      rw [hcs, List.cons_append] at hscan ⊢
      rw [stepValue_eq_scanScalar (hne _ (by decide)) (hne _ (by decide)) (hne _ (by decide)),
        hscan]
      rfl
  | string h =>
    rw [List.cons_append, List.append_assoc, stepValue, List.singleton_append, scanString_flatten h]
    rfl

end State

end BitReaders.Json
