import BitReaders.Json.Reader
import Mathlib.Data.List.Infix
import Mathlib.Data.List.TakeWhile

/-!
# Positions in a document

Whatever the reader reports about a document is there: a flaw stands at a position of it, and an
integer with too many digits is a run of digits in it.

- `Flaw.Within`: a flaw is that of a document.
- `Stays`: a scanner ends at a later position, or with a flaw of the document.
- `scanString_stays`, `scanScalar_stays`, `State.step_stays`, `State.run_stays`: every scanner,
  every step and every run of the reader stays.
- `exists_digits_of_read_eq_oversized`: **an integer that is refused for its size** is a run of
  more than `Numeral.maxDigits` digits.
-/

namespace BitReaders.Json

/-! ## Flaws of a document -/

/-- The flaw is that of a document: it stands at a position, or some digits are too many. -/
def Flaw.Within (document : List Char) : Flaw → Prop
  | .malformed _ rest => rest <:+ document
  | .oversized n =>
    Numeral.maxDigits < n ∧ ∃ ds, ds <:+: document ∧ ds.length = n ∧ ∀ d ∈ ds, d.isDigit

theorem Flaw.Within.mono {f : Flaw} {cs document : List Char} (h : f.Within cs)
    (hcs : cs <:+ document) : f.Within document := by
  cases f with
  | malformed issue rest => exact List.IsSuffix.trans h hcs
  | oversized n =>
    obtain ⟨hn, ds, hds, hlength, hdigits⟩ := h
    exact ⟨hn, ds, hds.trans hcs.isInfix, hlength, hdigits⟩

/-- A scanner ends at a position of the document, or with a flaw of it. -/
def Stays {α : Type} (document : List Char) : Except Flaw (α × List Char) → Prop
  | .ok (_, r) => r <:+ document
  | .error f => f.Within document

/-- So does one that may find nothing. -/
def StaysIfAny {α : Type} (document : List Char) : Except Flaw (Option (α × List Char)) → Prop
  | .ok none => True
  | .ok (some (_, r)) => r <:+ document
  | .error f => f.Within document

namespace Stays

variable {α β : Type} {document cs : List Char} {e : Except Flaw (α × List Char)}

theorem mono (h : Stays cs e) (hcs : cs <:+ document) : Stays document e := by
  cases e with
  | ok p => exact List.IsSuffix.trans h hcs
  | error f => exact Flaw.Within.mono h hcs

/-- What the scanner makes of the text it has read does not matter. -/
theorem map {g : α × List Char → β × List Char} (h : Stays document e) (hg : ∀ p, (g p).2 = p.2) :
    Stays document (e.map g) := by
  cases e with
  | ok p =>
    show (g p).2 <:+ document
    rw [hg]
    exact h
  | error f => exact h

end Stays

theorem skipBlanks_suffix (cs : List Char) : skipBlanks cs <:+ cs :=
  List.dropWhile_suffix _

theorem suffix_of_skipBlanks_eq_cons {cs r : List Char} {c : Char} (h : skipBlanks cs = c :: r) :
    r <:+ cs :=
  (List.suffix_cons c r).trans (h ▸ skipBlanks_suffix cs)

/-! ## Strings -/

theorem hexUnit?_suffix {cs r : List Char} {n : Nat} (h : hexUnit? cs = some (n, r)) :
    r <:+ cs := by
  unfold hexUnit? at h
  split at h
  · rename_i a b c d e s
    simp only [Option.bind_eq_bind, Option.bind_eq_some_iff, Option.pure_def, Option.some.injEq,
      Prod.mk.injEq] at h
    obtain ⟨_, _, _, _, _, _, _, _, _, rfl⟩ := h
    exact List.suffix_append [a, b, c, d] (e :: s)
  · cases h

theorem scanLow_stays (cs : List Char) : StaysIfAny cs (scanLow cs) := by
  -- What follows the first unit is looked at and given back, if it is no second unit.
  unfold scanLow
  split
  · rename_i r
    have hr : 'u' :: r <:+ '\\' :: 'u' :: r := List.suffix_cons _ _
    split
    · trivial
    · split
      · exact hr
      · rename_i n s hn
        split
        · exact ((hexUnit?_suffix hn).trans (List.suffix_cons 'u' r)).trans hr
        · trivial
  · trivial

/-- The flaw of an escaped unit is reported at the letter before it. -/
theorem scanUnit_stays (cs : List Char) : Stays ('u' :: cs) (scanUnit cs) := by
  have hcs : cs <:+ 'u' :: cs := List.suffix_cons _ _
  unfold scanUnit
  split
  · exact List.suffix_rfl
  · rename_i n r hn
    have hr : r <:+ 'u' :: cs := (hexUnit?_suffix hn).trans hcs
    have hlow := scanLow_stays r
    split
    · split
      · rename_i f hf
        rw [hf] at hlow
        exact Flaw.Within.mono hlow hr
      · rename_i m s hs
        rw [hs] at hlow
        exact List.IsSuffix.trans hlow hr
      · exact hr
    · exact hr

theorem scanEscape_stays {opening cs : List Char} (h : '\\' :: cs <:+ opening) :
    Stays opening (scanEscape opening cs) := by
  unfold scanEscape
  split
  · exact List.suffix_rfl
  · rename_i cs
    exact (scanUnit_stays cs).mono ((List.suffix_cons _ _).trans h)
  · rename_i c cs _
    split
    · exact (List.suffix_append ['\\', c] cs).trans h
    · exact h

/-- A string is read up to a later position. By induction along the scan, which goes on from each
character or escape. -/
theorem scanString_stays {opening cs : List Char} (h : cs <:+ opening) :
    Stays opening (scanString opening cs) := by
  fun_induction scanString opening cs with
  | case1 => exact List.suffix_rfl
  | case2 cs => exact (List.suffix_cons _ _).trans h
  | case3 cs f hf =>
    have hescape := scanEscape_stays h
    rw [hf] at hescape
    exact hescape
  | case4 cs c s hs _ ih =>
    have hescape := scanEscape_stays h
    rw [hs] at hescape
    exact (ih hescape).map fun _ => rfl
  | case5 c cs => exact h
  | case6 c cs _ _ _ ih => exact (ih ((List.suffix_cons _ _).trans h)).map fun _ => rfl

/-! ## Literals and numbers -/

theorem scanLiteral_suffix {cs r : List Char} {v : Value} (h : scanLiteral cs = some (v, r)) :
    r <:+ cs := by
  obtain ⟨l, -, hp⟩ := List.exists_of_findSome?_eq_some h
  obtain ⟨s, hs, he⟩ := Option.map_eq_some_iff.mp hp
  cases he
  exact ⟨_, List.append_eq_of_isPrefixOf?_eq_some hs⟩

/-- The digits of an integer stand before what follows it. -/
theorem scanWhole_eq_some {cs ds r : List Char} (h : scanWhole cs = some (ds, r)) :
    ds ++ r = cs ∧ ∀ d ∈ ds, d.isDigit := by
  unfold scanWhole at h
  split at h
  · cases h
  · rename_i c cs
    split at h
    · rename_i hc
      cases h
      subst hc
      exact ⟨rfl, fun d hd => List.mem_singleton.mp hd ▸ rfl⟩
    · split at h
      · cases h
        exact ⟨List.takeWhile_append_dropWhile, fun d hd => List.mem_takeWhile_imp hd⟩
      · cases h

theorem scanFraction_suffix (cs : List Char) : (scanFraction cs).2 <:+ cs := by
  unfold scanFraction
  split
  · rename_i cs
    simp only
    split
    · exact List.suffix_rfl
    · exact (List.dropWhile_suffix _).trans (List.suffix_cons _ _)
  · exact List.suffix_rfl

theorem exponentDigits_suffix {negative : Bool} {cs r : List Char} {n : Int}
    (h : exponentDigits negative cs = some (n, r)) : r <:+ cs := by
  unfold exponentDigits at h
  simp only at h
  split at h
  · cases h
  · cases h
    exact List.dropWhile_suffix _

theorem scanExponent_suffix {cs r : List Char} {n : Int} (h : scanExponent cs = some (n, r)) :
    r <:+ cs := by
  unfold scanExponent at h
  split at h
  · rename_i c cs
    have hcs : cs <:+ c :: cs := List.suffix_cons _ _
    split at h
    · split at h
      · exact ((exponentDigits_suffix h).trans (List.suffix_cons _ _)).trans hcs
      · exact ((exponentDigits_suffix h).trans (List.suffix_cons _ _)).trans hcs
      · exact (exponentDigits_suffix h).trans hcs
    · cases h
  · cases h

/-- A number is read up to a later position; an integer is refused only if its digits, which stand
here, are too many. -/
theorem scanUnsigned_stays {negative : Bool} {cs : List Char}
    {e : Except Flaw (Value × List Char)} (h : scanUnsigned negative cs = some e) : Stays cs e := by
  obtain ⟨⟨whole, r⟩, hw, rfl⟩ := Option.map_eq_some_iff.mp h
  obtain ⟨hcs, hdigits⟩ := scanWhole_eq_some hw
  have hr : r <:+ cs := ⟨whole, hcs⟩
  have hf := (scanFraction_suffix r).trans hr
  simp only
  split
  · split
    · rename_i hmax
      exact ⟨hmax, whole, ⟨[], r, hcs⟩, rfl, hdigits⟩
    · exact hf
  · -- With a fraction or an exponent it is no integer, and its digits are not counted.
    show ((scanExponent (scanFraction r).2).getD (0, (scanFraction r).2)).2 <:+ cs
    cases he : scanExponent (scanFraction r).2 with
    | none => exact hf
    | some p => exact (scanExponent_suffix (n := p.1) he).trans hf

/-- A literal or number is read up to a later position. -/
theorem scanScalar_stays (cs : List Char) : Stays cs (scanScalar cs) := by
  unfold scanScalar
  split
  · rename_i p hp
    exact scanLiteral_suffix hp
  · cases hn : scanNumber cs with
    | none => exact List.suffix_rfl
    | some e =>
      rw [Option.getD_some]
      unfold scanNumber at hn
      split at hn
      · exact (scanUnsigned_stays hn).mono (List.suffix_cons _ _)
      · exact scanUnsigned_stays hn

/-! ## The reader -/

namespace State

theorem stepValue_stays (stack : List Frame) (cs : List Char) : Stays cs (stepValue stack cs) := by
  unfold stepValue
  split
  · rename_i cs
    have hcs : cs <:+ '[' :: cs := List.suffix_cons _ _
    split
    · rename_i hs
      exact (suffix_of_skipBlanks_eq_cons hs).trans hcs
    · exact (skipBlanks_suffix cs).trans hcs
  · rename_i cs
    have hcs : cs <:+ '\x7b' :: cs := List.suffix_cons _ _
    split
    · rename_i hs
      exact (suffix_of_skipBlanks_eq_cons hs).trans hcs
    · exact (skipBlanks_suffix cs).trans hcs
  · exact (scanString_stays (List.suffix_cons _ _)).map fun _ => rfl
  · exact (scanScalar_stays _).map fun _ => rfl

theorem string_stays (cs : List Char) : Stays cs (string cs) := by
  unfold string
  split
  · exact scanString_stays (List.suffix_cons _ _)
  · exact List.suffix_rfl

theorem stepName_stays (before : Members) (stack : List Frame) (cs : List Char) :
    Stays cs (stepName before stack cs) := by
  have hname := string_stays cs
  unfold stepName
  split
  · rename_i f hf
    rw [hf] at hname
    exact hname
  · rename_i name r hr
    rw [hr] at hname
    have hblanks := (skipBlanks_suffix r).trans hname
    split
    · rename_i s hs
      exact (skipBlanks_suffix s).trans ((suffix_of_skipBlanks_eq_cons hs).trans hname)
    · exact hblanks

theorem stepAfter_stays (v : Value) (frame : Frame) (stack : List Frame) (cs : List Char) :
    Stays cs (stepAfter v frame stack cs) := by
  unfold stepAfter
  split
  · rename_i hs
    exact suffix_of_skipBlanks_eq_cons hs
  · rename_i r hs
    exact (skipBlanks_suffix r).trans (suffix_of_skipBlanks_eq_cons hs)
  · rename_i hs
    exact suffix_of_skipBlanks_eq_cons hs
  · rename_i r hs
    exact (skipBlanks_suffix r).trans (suffix_of_skipBlanks_eq_cons hs)
  · exact skipBlanks_suffix cs

/-- Every step ends at a later position, or with a flaw of the document. -/
theorem step_stays {s : State} {cs : List Char} {e : Except Flaw (State × List Char)}
    (h : step s cs = some e) : Stays cs e := by
  cases s with
  | beforeValue stack => exact Option.some.inj h ▸ stepValue_stays stack cs
  | beforeName before stack => exact Option.some.inj h ▸ stepName_stays before stack cs
  | afterValue v stack =>
    cases stack with
    | nil => cases h
    | cons frame stack => exact Option.some.inj h ▸ stepAfter_stays v frame stack cs

/-- So does a whole run. By recursion on the text that is left, which every step shortens. -/
theorem run_stays (s : State) (cs : List Char) : Stays cs (run s cs) := by
  rw [run.eq_def]
  split
  · exact List.suffix_rfl
  · rename_i s' cs' _ hstep
    have hlt : cs'.length < cs.length := step_lt hstep
    exact (run_stays s' cs').mono (step_stays hstep)
  · rename_i f _ hstep
    exact step_stays hstep
  · exact List.suffix_rfl
  termination_by cs.length

end State

/-! ## Documents -/

theorem scanDocument_within {document : List Char} {f : Flaw}
    (h : scanDocument document = .error f) : f.Within document := by
  unfold scanDocument at h
  split at h
  · cases h
    exact List.suffix_rfl
  · have hrun := (State.run_stays (.beforeValue []) (skipBlanks document)).mono
      (skipBlanks_suffix document)
    split at h
    · rename_i g hg
      rw [hg] at hrun
      cases h
      exact hrun
    · rename_i v r hr
      rw [hr] at hrun
      split at h
      · cases h
      · cases h
        exact (skipBlanks_suffix r).trans hrun

/-- The flaw that an error tells of. -/
theorem scanDocument_eq_error_of_read {document : List Char} {e : ReadError}
    (h : read document = .error e) :
    ∃ f, scanDocument document = .error f ∧ f.toError document = e := by
  unfold read at h
  cases hs : scanDocument document with
  | ok v =>
    rw [hs] at h
    cases h
  | error f =>
    rw [hs] at h
    cases h
    exact ⟨f, rfl, rfl⟩

/-- A malformed document is malformed at one of its positions. -/
theorem offset_le_of_read_eq_malformed {document : List Char} {issue : Issue} {place : Place}
    (h : read document = .error (.malformed issue place)) :
    place = .of document place.offset ∧ place.offset ≤ document.length := by
  obtain ⟨f, -, he⟩ := scanDocument_eq_error_of_read h
  cases f with
  | malformed issue' rest =>
    cases he
    exact ⟨rfl, Nat.sub_le _ _⟩
  | oversized n => cases he

/-- **An integer that is refused for its size** is a run of more digits than are read. -/
theorem exists_digits_of_read_eq_oversized {document : List Char} {n : Nat}
    (h : read document = .error (.oversized n)) :
    Numeral.maxDigits < n ∧
      ∃ ds, ds <:+: document ∧ ds.length = n ∧ ∀ d ∈ ds, d.isDigit := by
  obtain ⟨f, hf, he⟩ := scanDocument_eq_error_of_read h
  cases f with
  | malformed issue rest => cases he
  | oversized m =>
    cases he
    exact scanDocument_within hf

end BitReaders.Json
