import BitReaders.Proofs.SchemeNames
import BitReaders.Proofs.Text.Utf8
import BitReaders.Reader.Override
import Mathlib.Data.List.Forall2
import Mathlib.Data.List.Infix

/-!
# How a scheme may be spelled

A text names a scheme if its upper-case form is the scheme's name. Many code points have upper-case
forms, and some forms are several code points long, but few of them are made of the letters that
names are made of, and so every letter of a name has only two or three spellings.

- `CodePoint.Spells`: the spellings of a letter: itself, its small letter, and for I and S the
  dotless i and the long s.
- `upperForm_cases`: where an upper-case form comes from. The tables are searched once for all
  forms that a name could have in it: no long form is part of a name (`special_not_infix`), and only
  three runs lead to capital letters (`run_below_or_known`).
- `CodePoint.upper_eq_iff`: the code points with a letter as their form are its spellings.
- `Scheme.upper_eq_name_iff`: the texts with a name as their form spell it letter by letter.
- `Scheme.parse?_eq_some_iff_spells`: **which texts name a scheme**, and what they cannot have in
  them.
-/

namespace BitReaders

/-! ## Spellings -/

/-- A code point that may stand for a letter of a name. -/
def CodePoint.Spells (c : CodePoint) (letter : Char) : Prop :=
  c = .scalar letter ∨ c = .scalar letter.toLower ∨ (letter = 'I' ∧ c = .scalar '\u0131') ∨
    (letter = 'S' ∧ c = .scalar '\u017F')

instance (c : CodePoint) (letter : Char) : Decidable (c.Spells letter) :=
  inferInstanceAs (Decidable (_ ∨ _ ∨ _ ∨ _))

/-- The letters that names are made of. -/
def nameLetters : List Char := "ABCDEFGHIJKLMNOPQRSTUVWXYZ_".toList

theorem mem_nameLetters {s : Scheme} {letter : Char} (h : letter ∈ s.name.toList) :
    letter ∈ nameLetters := by
  have hall : Scheme.all.all (fun s => s.name.toList.all (nameLetters.contains ·)) = true := by
    decide +kernel
  have hname := List.all_eq_true.mp hall s s.mem_all
  exact List.contains_iff_mem.mp (List.all_eq_true.mp hname letter h)

/-! ## The tables of upper-case forms -/

/-- An upper-case form is an entry of the table of long forms, or that of a run, or the code point
itself. -/
theorem upperForm_cases (n : Nat) :
    (∃ entry ∈ upperSpecial, entry.1 = n ∧ upperForm n = entry.2) ∨
      (∃ r ∈ upperRuns, r.contains n = true ∧ upperForm n = [(n + r.offset).toNat]) ∨
      upperForm n = [n] := by
  unfold upperForm
  split
  · next code form hfind =>
    have hcode := List.find?_some hfind
    exact .inl ⟨_, List.mem_of_find?_eq_some hfind, eq_of_beq hcode, rfl⟩
  · split
    · next r hfind =>
      have hcontains := List.find?_some (p := fun r : CaseRun => r.contains n) hfind
      exact .inr (.inl ⟨r, List.mem_of_find?_eq_some hfind, hcontains, rfl⟩)
    · exact .inr (.inr rfl)

/-- No long form is part of a name. -/
theorem special_not_infix {entry : Nat × List Nat} (h : entry ∈ upperSpecial) (s : Scheme) :
    ¬ (entry.2.map fun n => CodePoint.scalar (Char.ofNat n)) <:+: Text.ofString s.name := by
  have hall : upperSpecial.all (fun entry => Scheme.all.all fun s =>
      decide (¬ (entry.2.map fun n => CodePoint.scalar (Char.ofNat n)) <:+:
        Text.ofString s.name)) = true := by
    decide +kernel
  have hentry := List.all_eq_true.mp hall entry h
  exact of_decide_eq_true (List.all_eq_true.mp hentry s s.mem_all)

/-- Long forms are long, and no blank has one. -/
theorem special_length {entry : Nat × List Nat} (h : entry ∈ upperSpecial) :
    2 ≤ entry.2.length ∧ isBlank entry.1 = false := by
  have hall : upperSpecial.all (fun entry =>
      decide (2 ≤ entry.2.length ∧ isBlank entry.1 = false)) = true := by
    decide +kernel
  exact of_decide_eq_true (List.all_eq_true.mp hall entry h)

/-- The forms of a run lie above all letters of names, or it is one of three runs: the small
letters, the dotless i and the long s. -/
theorem run_below_or_known {r : CaseRun} (h : r ∈ upperRuns) :
    0x5F < r.first + r.offset ∨ (r.first = 0x61 ∧ r.last = 0x7A ∧ r.offset = -32) ∨
      (r.first = 0x131 ∧ r.last = 0x131 ∧ r.offset = -232) ∨
      (r.first = 0x17F ∧ r.last = 0x17F ∧ r.offset = -300) := by
  have hall : upperRuns.all (fun r => decide (0x5F < r.first + r.offset ∨
      (r.first = 0x61 ∧ r.last = 0x7A ∧ r.offset = -32) ∨
      (r.first = 0x131 ∧ r.last = 0x131 ∧ r.offset = -232) ∨
      (r.first = 0x17F ∧ r.last = 0x17F ∧ r.offset = -300))) = true := by
    decide +kernel
  exact of_decide_eq_true (List.all_eq_true.mp hall r h)

theorem CaseRun.bounds_of_contains {r : CaseRun} {n : Nat} (h : r.contains n = true) :
    r.first ≤ n ∧ n ≤ r.last := by
  rw [CaseRun.contains, Bool.and_eq_true, Bool.and_eq_true, decide_eq_true_eq,
    decide_eq_true_eq] at h
  exact h.1

/-- What has a letter of a name, or something below the letters, as its form. -/
theorem eq_of_upperForm_eq {n m : Nat} (hm : m ≤ 0x5F) (h : upperForm n = [m]) :
    n = m ∨ (0x61 ≤ n ∧ n ≤ 0x7A ∧ n = m + 32) ∨ (n = 0x131 ∧ m = 0x49) ∨
      (n = 0x17F ∧ m = 0x53) := by
  rcases upperForm_cases n with ⟨entry, hentry, -, hform⟩ | ⟨r, hr, hcontains, hform⟩ | hform
  · have hlength := (special_length hentry).1
    rw [← hform, h] at hlength
    simp at hlength
  · have hbounds := r.bounds_of_contains hcontains
    have hvalue : (n + r.offset).toNat = m := List.singleton_inj.mp (hform.symm.trans h)
    rcases run_below_or_known hr with habove | hsmall | hdotless | hlong <;> omega
  · exact .inl (List.singleton_inj.mp (hform.symm.trans h))

/-! ## Code points with a letter as their form -/

/-- The numbers of a letter of a name and of its small letter. -/
theorem toNat_of_mem_nameLetters {letter : Char} (h : letter ∈ nameLetters) :
    letter.toNat ≠ 0 ∧ letter.toNat ≤ 0x5F ∧
      (letter.toNat + 32 ≤ 0x7A → letter.toLower.toNat = letter.toNat + 32) := by
  have hall : nameLetters.all (fun letter => decide (letter.toNat ≠ 0 ∧ letter.toNat ≤ 0x5F ∧
      (letter.toNat + 32 ≤ 0x7A → letter.toLower.toNat = letter.toNat + 32))) = true := by
    decide +kernel
  exact of_decide_eq_true (List.all_eq_true.mp hall letter h)

/-- A number that stands for a character other than that with number zero is its number. -/
theorem toNat_of_ofNat_eq {n : Nat} {c : Char} (h : Char.ofNat n = c) (hc : c.toNat ≠ 0) :
    n = c.toNat := by
  subst h
  by_cases hvalid : n.isValidChar
  · rw [Utf8.toNat_ofNat hvalid]
  · rw [Char.ofNat, dif_neg hvalid] at hc
    exact absurd rfl hc

/-- The spellings of a letter of a name have it as their form. -/
theorem CodePoint.upper_of_spells {c : CodePoint} {letter : Char} (hletter : letter ∈ nameLetters)
    (h : c.Spells letter) : c.upper = [.scalar letter] := by
  have hall : nameLetters.all (fun letter =>
      decide ((CodePoint.scalar letter).upper = [.scalar letter] ∧
        (CodePoint.scalar letter.toLower).upper = [.scalar letter])) = true := by
    decide +kernel
  obtain ⟨hcapital, hsmall⟩ := of_decide_eq_true (List.all_eq_true.mp hall letter hletter)
  rcases h with rfl | rfl | ⟨rfl, rfl⟩ | ⟨rfl, rfl⟩
  · exact hcapital
  · exact hsmall
  · decide +kernel
  · decide +kernel

/-- What has a letter of a name as its form is one of the letter's spellings. -/
theorem CodePoint.spells_of_upper_eq {c : CodePoint} {letter : Char}
    (hletter : letter ∈ nameLetters) (h : c.upper = [.scalar letter]) : c.Spells letter := by
  obtain ⟨hzero, hle, hlower⟩ := toNat_of_mem_nameLetters hletter
  cases c with
  | surrogate n => cases h
  | scalar c =>
    obtain ⟨m, hform, hm⟩ := List.map_eq_singleton_iff.mp h
    have hvalue := toNat_of_ofNat_eq (CodePoint.scalar.inj hm) hzero
    subst hvalue
    rcases eq_of_upperForm_eq hle hform with hn | ⟨-, hlast, hn⟩ | ⟨hn, hI⟩ | ⟨hn, hS⟩
    · rw [Char.toNat_inj.mp hn]
      exact .inl rfl
    · have hsmall := hlower (by omega)
      rw [Char.toNat_inj.mp (hn.trans hsmall.symm)]
      exact .inr (.inl rfl)
    · have hc : c = '\u0131' := Char.toNat_inj.mp hn
      rw [hc]
      exact .inr (.inr (.inl ⟨Char.toNat_inj.mp hI, rfl⟩))
    · have hc : c = '\u017F' := Char.toNat_inj.mp hn
      rw [hc]
      exact .inr (.inr (.inr ⟨Char.toNat_inj.mp hS, rfl⟩))

/-- The code points that have a letter of a name as their form are its spellings. -/
theorem CodePoint.upper_eq_iff {c : CodePoint} {letter : Char} (hletter : letter ∈ nameLetters) :
    c.upper = [.scalar letter] ↔ c.Spells letter :=
  ⟨spells_of_upper_eq hletter, upper_of_spells hletter⟩

/-- A code point with a long form is in no text that has a name as its form, and it is no blank. -/
theorem CodePoint.length_upper_cases (c : CodePoint) :
    c.upper.length = 1 ∨
      (c.isBlank = false ∧ ∀ s : Scheme, ¬ c.upper <:+: Text.ofString s.name) := by
  cases c with
  | surrogate n => exact .inl rfl
  | scalar c =>
    rw [CodePoint.upper, List.length_map]
    rcases upperForm_cases c.toNat with ⟨entry, hentry, hcode, hform⟩ | ⟨r, -, -, hform⟩ | hform
    · refine .inr ⟨?_, ?_⟩
      · rw [CodePoint.isBlank, CodePoint.val, ← hcode]
        exact (special_length hentry).2
      · rw [hform]
        exact special_not_infix hentry
    · exact .inl (congrArg List.length hform)
    · exact .inl (congrArg List.length hform)

/-! ## Texts with a name as their form -/

/-- If every piece has length one, the whole is put together element by element. -/
theorem forall₂_of_flatMap_eq {α β : Type} {f : α → List β} {l : List α} {m : List β}
    (hone : ∀ a ∈ l, (f a).length = 1) (h : l.flatMap f = m) :
    List.Forall₂ (fun a b => f a = [b]) l m := by
  induction l generalizing m with
  | nil =>
    subst h
    exact .nil
  | cons a l ih =>
    obtain ⟨ha, hl⟩ := List.forall_mem_cons.mp hone
    obtain ⟨b, hb⟩ := List.length_eq_one_iff.mp ha
    rw [List.flatMap_cons, hb] at h
    subst h
    exact .cons hb (ih hl rfl)

theorem flatMap_eq_of_forall₂ {α β : Type} {f : α → List β} {l : List α} {m : List β}
    (h : List.Forall₂ (fun a b => f a = [b]) l m) : l.flatMap f = m := by
  induction h with
  | nil => rfl
  | cons hab _ ih => rw [List.flatMap_cons, hab, ih, List.singleton_append]

namespace Scheme

/-- No code point with a long form is in a text that has a name as its form. -/
theorem length_upper_of_upper_eq {t : Text} {s : Scheme} (h : t.upper = Text.ofString s.name) :
    ∀ c ∈ t, c.upper.length = 1 := by
  intro c hc
  rcases c.length_upper_cases with hone | ⟨-, hpart⟩
  · exact hone
  · have hinfix : c.upper <:+: t.upper := List.infix_flatMap_of_mem hc CodePoint.upper
    rw [h] at hinfix
    exact absurd hinfix (hpart s)

/-- The forms of the code points of a text are letters of names iff it spells these letters. -/
theorem forall₂_upper_iff {t : Text} {letters : List Char}
    (hletters : ∀ letter ∈ letters, letter ∈ nameLetters) :
    List.Forall₂ (fun c letter => c.upper = [.scalar letter]) t letters ↔
      List.Forall₂ CodePoint.Spells t letters := by
  induction letters generalizing t with
  | nil => rw [List.forall₂_nil_right_iff, List.forall₂_nil_right_iff]
  | cons letter letters ih =>
    obtain ⟨hletter, hrest⟩ := List.forall_mem_cons.mp hletters
    rw [List.forall₂_cons_right_iff, List.forall₂_cons_right_iff]
    simp only [CodePoint.upper_eq_iff hletter, ih hrest]

/-- The texts that have a name as their upper-case form spell it letter by letter. -/
theorem upper_eq_name_iff {t : Text} {s : Scheme} :
    t.upper = Text.ofString s.name ↔ List.Forall₂ CodePoint.Spells t s.name.toList := by
  rw [← forall₂_upper_iff fun letter => mem_nameLetters]
  constructor
  · intro h
    have hforms := forall₂_of_flatMap_eq (length_upper_of_upper_eq h) h
    rw [Text.ofString, Text.ofChars, List.forall₂_map_right_iff] at hforms
    exact hforms
  · intro h
    refine flatMap_eq_of_forall₂ ?_
    rw [Text.ofString, Text.ofChars, List.forall₂_map_right_iff]
    exact h

/-! ## Texts that name a scheme -/

/-- **Which texts name a scheme.** A text names a scheme iff without the blanks at its ends it is
as long as the scheme's name and spells it letter by letter. Every other text is refused, with an
error that shows it. No code point of a text that names a scheme, blanks included, has an upper-case
form of several code points. -/
theorem parse?_eq_some_iff_spells (t : Text) :
    (∀ s, parse? t = some s ↔ List.Forall₂ CodePoint.Spells t.trim s.name.toList) ∧
      ((∀ s : Scheme, ¬ List.Forall₂ CodePoint.Spells t.trim s.name.toList) ↔
        parse? t = Option.none ∧
          ∀ vs, Override.namedSchemes (.string t :: vs) = .error (.unknownScheme t)) ∧
      ∀ s, parse? t = some s → ∀ c ∈ t, c.upper.length = 1 := by
  have hspells : ∀ s, parse? t = some s ↔ List.Forall₂ CodePoint.Spells t.trim s.name.toList := by
    intro s
    rw [parse?_eq_some_iff, eq_comm, upper_eq_name_iff]
  have hnone : (∀ s : Scheme, ¬ List.Forall₂ CodePoint.Spells t.trim s.name.toList) ↔
      parse? t = Option.none := by
    rw [Option.eq_none_iff_forall_ne_some]
    exact forall_congr' fun s => not_congr (hspells s).symm
  refine ⟨hspells, ?_, ?_⟩
  · rw [hnone]
    constructor
    · intro h
      refine ⟨h, fun vs => ?_⟩
      have hdisplay : parse? (Json.Value.string t).display = Option.none := h
      rw [Override.namedSchemes, hdisplay]
      rfl
    · rintro ⟨h, -⟩
      exact h
  · intro s hs c hc
    rcases c.length_upper_cases with hone | ⟨hblank, hpart⟩
    · exact hone
    · exact length_upper_of_upper_eq (parse?_eq_some_iff.mp hs).symm c (mem_trimEnds hc hblank)

example : parse? (Text.ofString " \u017Fh\u0131fTed_gAmma\t") = some .shiftedGamma := by
  decide +kernel

end Scheme

end BitReaders
