import BitReaders.Json.Display
import BitReaders.Proofs.Conditional.Spelling
import BitReaders.Proofs.Text.Trim
import BitReaders.Reader.Scheme

/-!
# Which JSON values name a scheme

The items of a list of schemes are read as they display, whatever they are. Only strings and `null`
can name a scheme that way: every other value displays with a character that is in no name.

- `Scheme.parse?_eq_some_iff`: what a text names.
- `CodePoint.Bars`: a code point that bars every text with it from naming a scheme
  (`parse?_eq_none_of_bars`): a digit, a sign, a point, an opening bracket or brace.
- `Json.Value.scheme?`: the scheme that a value names: `null` no scheme at all, a string what it
  is read as.
- `parse?_display`: **read as they display, values name just these schemes**.
-/

namespace BitReaders

/-- A code point that bars every text with it from naming a scheme: it is not trimmed, it is its
own upper-case form, and it is in no scheme's name. -/
def CodePoint.Bars (c : CodePoint) : Prop :=
  c.isBlank = false ∧ c.upper = [c] ∧ ∀ s ∈ Scheme.all, c ∉ Text.ofString s.name

instance (c : CodePoint) : Decidable c.Bars :=
  inferInstanceAs (Decidable (_ ∧ _ ∧ _))

/-- The characters that bar a text and that some value displays. -/
def barring : List Char :=
  ['0', '1', '2', '3', '4', '5', '6', '7', '8', '9', '+', '-', '.', '[', '\x7b']

theorem bars_of_mem_barring {c : Char} (h : c ∈ barring) : CodePoint.Bars (.scalar c) := by
  -- a test of the list, for the statement about all characters would be tried on each of them
  have hall : barring.all (fun c => decide (CodePoint.Bars (.scalar c))) = true := by
    decide +kernel
  exact of_decide_eq_true (List.all_eq_true.mp hall c h)

theorem mem_barring_of_isDigit {c : Char} (h : c.isDigit = true) : c ∈ barring := by
  have hrange : 48 ≤ c.toNat ∧ c.toNat ≤ 57 := by
    simpa [Char.isDigit, UInt32.le_iff_toNat_le] using h
  have hcases : ∀ n < 10, Char.ofNat (48 + n) ∈ barring := by decide
  have hc := hcases (c.toNat - 48) (by omega)
  rwa [Nat.add_sub_of_le hrange.1, Char.ofNat_toNat] at hc

namespace Scheme

/-- A text names the scheme whose name it is up to blanks at its ends and case. -/
theorem parse?_eq_some_iff {t : Text} {s : Scheme} :
    parse? t = some s ↔ Text.ofString s.name = t.trim.upper := by
  constructor
  · intro h
    have hbeq : (Text.ofString s.name == t.trim.upper) = true :=
      List.find?_some (p := fun s : Scheme => Text.ofString s.name == t.trim.upper) h
    exact eq_of_beq hbeq
  · intro h
    rw [parse?, ← h]
    cases s <;> decide +kernel

/-- A text with a code point that bars it names no scheme. -/
theorem parse?_eq_none_of_bars {t : Text} {c : CodePoint} (hc : c ∈ t) (hbars : c.Bars) :
    parse? t = .none := by
  obtain ⟨hblank, hupper, hnames⟩ := hbars
  have htrim : c ∈ t.trim := mem_trimEnds hc hblank
  have hmem : c ∈ t.trim.upper := by
    refine List.mem_flatMap.mpr ⟨c, htrim, ?_⟩
    rw [hupper]
    exact List.mem_singleton_self c
  refine List.find?_eq_none.mpr fun s hs heq => hnames s hs ?_
  rw [eq_of_beq heq]
  exact hmem

/-- The same for the text of a string. -/
theorem parse?_ofString_eq_none {s : String} {c : Char} (hc : c ∈ s.toList) (hbars : c ∈ barring) :
    parse? (Text.ofString s) = .none :=
  parse?_eq_none_of_bars (List.mem_map_of_mem hc) (bars_of_mem_barring hbars)

end Scheme

/-! ## What values display -/

namespace Json

/-- The scheme that a value names, as an item of a list of schemes. -/
def Value.scheme? : Value → Option Scheme
  | .null => some .none
  | .string t => Scheme.parse? t
  | _ => none

/-- An integer displays with a digit or a sign. -/
theorem exists_mem_barring_integer (n : Int) : ∃ c ∈ (toString n).toList, c ∈ barring := by
  cases n with
  | ofNat n =>
    obtain ⟨c, hc⟩ := List.exists_mem_of_ne_nil (Nat.toDigits 10 n) (by simp)
    refine ⟨c, ?_, mem_barring_of_isDigit (Conditional.isDigit_of_mem_toDigits hc)⟩
    show c ∈ (toString n).toList
    rw [Conditional.toList_toString_nat]
    exact hc
  | negSucc n =>
    refine ⟨'-', ?_, by decide⟩
    rw [Conditional.toList_toString_negSucc]
    exact List.mem_cons_self

/-- Positional notation has a point. -/
theorem point_mem_positional (d : Decimal.Digits) : '.' ∈ Decimal.positional d := by
  unfold Decimal.positional
  split
  · simp
  · dsimp only
    split <;> simp

/-- Scientific notation has the sign of the exponent. -/
theorem exists_mem_barring_scientific (width : Nat) (d : Decimal.Digits) :
    ∃ c ∈ Decimal.scientific width d, c ∈ barring := by
  refine ⟨if d.point - 1 < 0 then '-' else '+', ?_, ?_⟩
  · simp [Decimal.scientific]
  · split <;> decide

/-- A finite double displays with a point or with the sign of an exponent. -/
theorem exists_mem_barring_unsigned (l : Decimal.Layout) (m : Nat) (e : Int) :
    ∃ c ∈ l.unsigned m e, c ∈ barring := by
  unfold Decimal.Layout.unsigned
  split
  · exact ⟨'.', by decide, by decide⟩
  · dsimp only
    split
    · exact ⟨'.', point_mem_positional _, by decide⟩
    · exact exists_mem_barring_scientific _ _

/-- No double names a scheme. -/
theorem parse?_write (x : Binary64) :
    Scheme.parse? (Text.ofString (realLayout.write x)) = none := by
  cases x with
  | finite s m e =>
    obtain ⟨c, hc, hbars⟩ := exists_mem_barring_unsigned realLayout m e
    refine Scheme.parse?_ofString_eq_none ?_ hbars
    rw [Decimal.Layout.write, String.toList_ofList]
    exact List.mem_append_right _ hc
  | infinite s => cases s <;> decide +kernel
  | nan => decide +kernel

/-- **Read as they display, values name just these schemes.** No integer, double, truth value, array
or object does. -/
theorem parse?_display (v : Value) : Scheme.parse? v.display = v.scheme? := by
  cases v with
  | null => decide +kernel
  | bool b => cases b <;> decide +kernel
  | integer n =>
    obtain ⟨c, hc, hbars⟩ := exists_mem_barring_integer n
    exact Scheme.parse?_ofString_eq_none hc hbars
  | real x => exact parse?_write x
  | string t => rfl
  | array vs =>
    have hbracket : '[' ∈ (Value.inner (.array vs)).toList := by
      rw [Value.inner, String.toList_append, String.toList_append]
      exact List.mem_append_left _ (List.mem_append_left _ (List.mem_singleton_self _))
    exact Scheme.parse?_ofString_eq_none hbracket (by decide)
  | object ms =>
    have hbrace : '\x7b' ∈ (Value.inner (.object ms)).toList := by
      rw [Value.inner, String.toList_append, String.toList_append]
      exact List.mem_append_left _ (List.mem_append_left _ (List.mem_singleton_self _))
    exact Scheme.parse?_ofString_eq_none hbrace (by decide)

end Json

end BitReaders
