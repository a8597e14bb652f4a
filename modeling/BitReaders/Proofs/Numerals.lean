import BitReaders.Proofs.Text.Trim
import BitReaders.Text.Numeral
import Mathlib.Algebra.Group.Int.Defs
import Mathlib.Data.Nat.Digits.Defs

/-!
# The spellings of integers

A text is read as an integer just if it is made of blanks, a sign, decimal digits with single
underscores between some of them, and blanks, with no more digits than the limit.

- `fits_iff`: the integers within the limit on digits.
- `Mark.Fits`: what the kind of a character says about it.
- `Digits`: the texts of a list of digits. `Digits.digits?_eq`, `exists_digits_of_digits?_eq`: the
  digits that are read are just those.
- `Spelling`: a way to spell an integer, with its text and its value.
- `read?_eq_some_iff`: **what is read as an integer**; it can be printed (`fits_of_read?_eq`).
  `Spells`, `read?_eq_natCast_iff`: what is
  read as a natural number.
-/

namespace BitReaders

namespace Numeral

/-! ## The limit on digits -/

theorem fits_iff {n : Int} : Fits n ↔ n.natAbs < 10 ^ maxDigits :=
  Nat.length_toDigits_le_iff (by decide) (by decide)

theorem Fits.of_natAbs_le {m n : Int} (hn : Fits n) (h : m.natAbs ≤ n.natAbs) : Fits m :=
  fits_iff.mpr (Nat.lt_of_le_of_lt h (fits_iff.mp hn))

/-- What the kind of a character says about it. -/
def Mark.Fits : Mark → Char → Prop
  | .blank, c => BitReaders.isBlank c.toNat = true
  | .plus, c => c = '+'
  | .minus, c => c = '-'
  | .underscore, c => c = '_'
  | .digit d, c => digitValue? c = some d
  | .other, _ => True

theorem Mark.fits_ofChar (c : Char) : (ofChar c).Fits c := by
  unfold ofChar
  split
  · assumption
  · split
    · assumption
    · split
      · assumption
      · split
        · rename_i h
          exact (Bool.and_eq_true_iff.mp h).1
        · split
          · assumption
          · trivial

/-- The kinds of the code points of a text. -/
def marks (t : Text) : List Mark :=
  t.map .ofCodePoint

theorem marks_ofChars_cons (c : Char) (cs : List Char) :
    marks (Text.ofChars (c :: cs)) = .ofChar c :: marks (Text.ofChars cs) :=
  rfl

/-- What starts with a mark that has a place in numerals starts with a character of that kind. -/
theorem exists_of_marks_eq_cons {t : Text} {m : Mark} {ms : List Mark} (h : marks t = m :: ms)
    (hm : m ≠ .other) : ∃ c u, t = .scalar c :: u ∧ m.Fits c ∧ marks u = ms := by
  obtain ⟨p, u, rfl, hp, hu⟩ := List.map_eq_cons_iff.mp h
  cases p with
  | scalar c => exact ⟨c, u, rfl, hp ▸ Mark.fits_ofChar c, hu⟩
  | surrogate n => exact absurd hp.symm hm

/-- Decimal digits are no blanks and none of the other characters of numerals. -/
theorem not_special_of_digitValue? {c : Char} {d : Nat} (h : digitValue? c = some d) :
    c ≠ '+' ∧ c ≠ '-' ∧ c ≠ '_' ∧ isBlank c.toNat = false := by
  have htable : decimalZeros.all fun z => (List.range 10).all fun k =>
      decide (z + k ≠ '+'.toNat ∧ z + k ≠ '-'.toNat ∧ z + k ≠ '_'.toNat) && !isBlank (z + k) := by
    decide +kernel
  obtain ⟨z, hz, -⟩ := Option.map_eq_some_iff.mp h
  have hbounds := List.find?_some hz
  rw [Bool.and_eq_true, decide_eq_true_iff, decide_eq_true_iff] at hbounds
  have hentry := List.all_eq_true.mp (List.all_eq_true.mp htable z (List.mem_of_find?_eq_some hz))
    (c.toNat - z) (List.mem_range.mpr (by omega))
  rw [Nat.add_sub_cancel' hbounds.1, Bool.and_eq_true, decide_eq_true_iff,
    Bool.not_eq_true'] at hentry
  obtain ⟨⟨hplus, hminus, hunderscore⟩, hblank⟩ := hentry
  exact ⟨fun hc => hplus (hc ▸ rfl), fun hc => hminus (hc ▸ rfl), fun hc => hunderscore (hc ▸ rfl),
    hblank⟩

theorem lt_ten_of_digitValue? {c : Char} {d : Nat} (h : digitValue? c = some d) : d < 10 := by
  obtain ⟨z, hz, rfl⟩ := Option.map_eq_some_iff.mp h
  have hbounds := List.find?_some hz
  rw [Bool.and_eq_true, decide_eq_true_iff, decide_eq_true_iff] at hbounds
  omega

theorem Mark.ofChar_of_digitValue? {c : Char} {d : Nat} (h : digitValue? c = some d) :
    ofChar c = .digit d := by
  obtain ⟨hplus, hminus, hunderscore, hblank⟩ := not_special_of_digitValue? h
  rw [ofChar, if_neg hplus, if_neg hminus, if_neg hunderscore, hblank, Bool.false_and,
    if_neg Bool.false_ne_true, h]

/-! ## Digits -/

/-- The text writes decimal digits, the most significant first, with an underscore between some
neighbours. -/
inductive Digits : List Char → List Nat → Prop where
  | last {c : Char} {d : Nat} (h : digitValue? c = some d) : Digits [c] [d]
  | next {c : Char} {d : Nat} {cs : List Char} {ds : List Nat} (h : digitValue? c = some d)
    (hcs : Digits cs ds) : Digits (c :: cs) (d :: ds)
  | underscore {c : Char} {d : Nat} {cs : List Char} {ds : List Nat} (h : digitValue? c = some d)
    (hcs : Digits cs ds) : Digits (c :: '_' :: cs) (d :: ds)

theorem Digits.exists_cons {cs : List Char} {ds : List Nat} (h : Digits cs ds) :
    ∃ c d cs', cs = c :: cs' ∧ digitValue? c = some d := by
  cases h with
  | last h => exact ⟨_, _, _, rfl, h⟩
  | next h _ => exact ⟨_, _, _, rfl, h⟩
  | underscore h _ => exact ⟨_, _, _, rfl, h⟩

theorem Digits.digits?_eq {cs : List Char} {ds : List Nat} (h : Digits cs ds) :
    digits? (marks (Text.ofChars cs)) = some ds := by
  induction h with
  | last h =>
    rw [marks_ofChars_cons, Mark.ofChar_of_digitValue? h]
    rfl
  | @next c d cs ds h hcs ih =>
    obtain ⟨c', d', cs', rfl, h'⟩ := hcs.exists_cons
    rw [marks_ofChars_cons, Mark.ofChar_of_digitValue? h'] at ih
    rw [marks_ofChars_cons, marks_ofChars_cons, Mark.ofChar_of_digitValue? h,
      Mark.ofChar_of_digitValue? h', digits?, ih]
    · rfl
    · exact nofun
    · exact nofun
  | underscore h _ ih =>
    rw [marks_ofChars_cons, marks_ofChars_cons, Mark.ofChar_of_digitValue? h]
    show digits? (.digit _ :: .underscore :: marks _) = _
    rw [digits?, ih]
    rfl

/-- Marks whose digits are read are those of a text that writes them. By the cases of the reader. -/
theorem exists_digits_of_digits?_eq {t : Text} {ds : List Nat}
    (h : digits? (marks t) = some ds) : ∃ cs, t = Text.ofChars cs ∧ Digits cs ds := by
  generalize hms : marks t = ms at h
  fun_induction digits? ms generalizing t ds with
  | case1 d =>
    cases h
    obtain ⟨c, u, rfl, hc, hu⟩ := exists_of_marks_eq_cons hms nofun
    obtain rfl := List.map_eq_nil_iff.mp hu
    exact ⟨[c], rfl, .last hc⟩
  | case2 d ms ih =>
    obtain ⟨ds, hds, rfl⟩ := Option.map_eq_some_iff.mp h
    obtain ⟨c, u, rfl, hc, hu⟩ := exists_of_marks_eq_cons hms nofun
    obtain ⟨_, u, rfl, rfl, hrest⟩ := exists_of_marks_eq_cons hu nofun
    obtain ⟨cs, rfl, hcs⟩ := ih hrest hds
    exact ⟨c :: '_' :: cs, rfl, .underscore hc hcs⟩
  | case3 d ms _ _ ih =>
    obtain ⟨ds, hds, rfl⟩ := Option.map_eq_some_iff.mp h
    obtain ⟨c, u, rfl, hc, hrest⟩ := exists_of_marks_eq_cons hms nofun
    obtain ⟨cs, rfl, hcs⟩ := ih hrest hds
    exact ⟨c :: cs, rfl, .next hc hcs⟩
  | case4 => cases h

/-- No blank is among digits. -/
theorem Digits.not_isBlank {cs : List Char} {ds : List Nat} (h : Digits cs ds) :
    ∀ c ∈ cs, BitReaders.isBlank c.toNat = false := by
  induction h with
  | last h => exact List.forall_mem_singleton.mpr (not_special_of_digitValue? h).2.2.2
  | next h _ ih => exact List.forall_mem_cons.mpr ⟨(not_special_of_digitValue? h).2.2.2, ih⟩
  | underscore h _ ih =>
    exact List.forall_mem_cons.mpr ⟨(not_special_of_digitValue? h).2.2.2,
      List.forall_mem_cons.mpr ⟨by decide, ih⟩⟩

theorem Digits.lt_ten {cs : List Char} {ds : List Nat} (h : Digits cs ds) : ∀ d ∈ ds, d < 10 := by
  induction h with
  | last h => exact List.forall_mem_singleton.mpr (lt_ten_of_digitValue? h)
  | next h _ ih => exact List.forall_mem_cons.mpr ⟨lt_ten_of_digitValue? h, ih⟩
  | underscore h _ ih => exact List.forall_mem_cons.mpr ⟨lt_ten_of_digitValue? h, ih⟩

/-- A list of digits denotes the number with these digits. -/
theorem ofDigits_eq (ds : List Nat) : BitReaders.ofDigits ds = Nat.ofDigits 10 ds.reverse := by
  rw [BitReaders.ofDigits, Nat.ofDigits_eq_foldr, List.foldr_reverse]
  exact congrArg (fun f => List.foldl f 0 ds) (funext₂ fun n d => Nat.add_comm _ _)

/-! ## Signs -/

/-- What may stand in front of the digits. -/
inductive Sign where
  | none
  | plus
  | minus
  deriving DecidableEq, Repr

/-- The characters of a sign. -/
def Sign.chars : Sign → List Char
  | .none => []
  | .plus => ['+']
  | .minus => ['-']

/-- The number with a sign. -/
def Sign.apply : Sign → Nat → Int
  | .minus, n => -n
  | _, n => n

theorem Sign.apply_nonneg_iff {s : Sign} {n : Nat} :
    0 ≤ s.apply n ↔ (s = .minus → n = 0) := by
  cases s <;> simp [apply]

theorem Sign.natAbs_apply (s : Sign) (n : Nat) : (s.apply n).natAbs = n := by
  cases s with
  | none => rfl
  | plus => rfl
  | minus => exact (Int.natAbs_neg n).trans (Int.natAbs_natCast n)

theorem unsigned?_eq_some_iff {ms : List Mark} {n : Nat} :
    unsigned? ms = some n ↔
      ∃ ds, digits? ms = some ds ∧ ds.length ≤ maxDigits ∧ Nat.ofDigits 10 ds.reverse = n := by
  rw [unsigned?, Option.bind_eq_some_iff]
  refine exists_congr fun ds => and_congr_right fun _ => ?_
  rw [← ofDigits_eq]
  by_cases h : ds.length ≤ maxDigits
  · rw [if_pos h, Option.some_inj]
    exact (and_iff_right h).symm
  · rw [if_neg h]
    exact ⟨nofun, fun h' => absurd h'.1 h⟩

/-- A number that is read is that of the digits after its sign. -/
theorem exists_of_signed?_eq {t : Text} {i : Int} (h : signed? (marks t) = some i) :
    ∃ sign u n, t = Text.ofChars (Sign.chars sign) ++ u ∧ unsigned? (marks u) = some n ∧
      sign.apply n = i := by
  generalize hms : marks t = ms at h
  unfold signed? at h
  split at h
  · obtain ⟨n, hn, rfl⟩ := Option.map_eq_some_iff.mp h
    obtain ⟨_, u, rfl, rfl, rfl⟩ := exists_of_marks_eq_cons hms nofun
    exact ⟨.plus, u, n, rfl, hn, rfl⟩
  · obtain ⟨n, hn, rfl⟩ := Option.map_eq_some_iff.mp h
    obtain ⟨_, u, rfl, rfl, rfl⟩ := exists_of_marks_eq_cons hms nofun
    exact ⟨.minus, u, n, rfl, hn, rfl⟩
  · obtain ⟨n, hn, rfl⟩ := Option.map_eq_some_iff.mp h
    exact ⟨.none, t, n, rfl, hms ▸ hn, rfl⟩

/-! ## Spellings -/

/-- How a text spells an integer: blanks, a sign, digits, and blanks. -/
structure Spelling where
  before : Text
  sign : Sign
  body : List Char
  digits : List Nat
  after : Text
  blank_before : ∀ c ∈ before, c.isBlank = true
  blank_after : ∀ c ∈ after, c.isBlank = true
  body_digits : Digits body digits
  length_le : digits.length ≤ maxDigits

namespace Spelling

/-- The sign and the digits. -/
def core (s : Spelling) : List Char :=
  s.sign.chars ++ s.body

/-- The whole text. -/
def text (s : Spelling) : Text :=
  s.before ++ (Text.ofChars s.core ++ s.after)

/-- The number of the digits. -/
def magnitude (s : Spelling) : Nat :=
  Nat.ofDigits 10 s.digits.reverse

/-- The integer that is spelled. -/
def value (s : Spelling) : Int :=
  s.sign.apply s.magnitude

/-- What is spelled has no more digits than the spelling. -/
theorem fits_magnitude (s : Spelling) : Fits s.magnitude := by
  have hdigits : ∀ d ∈ s.digits.reverse, d < 10 :=
    fun d hd => s.body_digits.lt_ten d (List.mem_reverse.mp hd)
  have hlt := Nat.ofDigits_lt_base_pow_length (by decide : 1 < 10) hdigits
  rw [List.length_reverse] at hlt
  rw [fits_iff, Int.natAbs_natCast]
  exact Nat.lt_of_lt_of_le hlt (Nat.pow_le_pow_right (by decide) s.length_le)

theorem fits_value (s : Spelling) : Fits s.value :=
  s.fits_magnitude.of_natAbs_le (Sign.natAbs_apply s.sign s.magnitude).le

theorem signed?_core (s : Spelling) : signed? (marks (Text.ofChars s.core)) = some s.value := by
  obtain ⟨_, sign, body, ds, _, _, _, hbody, hlen⟩ := s
  have hunsigned := unsigned?_eq_some_iff.mpr ⟨ds, hbody.digits?_eq, hlen, rfl⟩
  cases sign with
  | none =>
    obtain ⟨c, d, cs, rfl, hc⟩ := hbody.exists_cons
    rw [marks_ofChars_cons, Mark.ofChar_of_digitValue? hc] at hunsigned
    show signed? (marks (Text.ofChars (c :: cs))) = _
    rw [marks_ofChars_cons, Mark.ofChar_of_digitValue? hc]
    exact Option.map_eq_some_iff.mpr ⟨_, hunsigned, rfl⟩
  | plus => exact Option.map_eq_some_iff.mpr ⟨_, hunsigned, rfl⟩
  | minus => exact Option.map_eq_some_iff.mpr ⟨_, hunsigned, rfl⟩

end Spelling

/-- The code points that are white space, but no blanks of numerals. -/
def IsSeparator (c : CodePoint) : Prop :=
  0x1C ≤ c.val ∧ c.val ≤ 0x1F

theorem isBlank_of_isBlank_ofCodePoint {p : CodePoint}
    (h : (Mark.ofCodePoint p).isBlank = true) : p.isBlank = true := by
  cases p with
  | scalar c =>
    have hfits := Mark.fits_ofChar c
    have hblank : Mark.ofChar c = .blank := by simpa [Mark.isBlank, Mark.ofCodePoint] using h
    rw [hblank] at hfits
    exact hfits
  | surrogate n => cases h

theorem isBlank_ofCodePoint {p : CodePoint} (h : p.isBlank = true) (hp : ¬ IsSeparator p) :
    (Mark.ofCodePoint p).isBlank = true := by
  cases p with
  | scalar c =>
    have hblank : BitReaders.isBlank c.toNat = true := h
    have hne : ∀ d : Char, BitReaders.isBlank d.toNat = false → c ≠ d := by
      rintro d hd rfl
      exact Bool.false_ne_true (hd.symm.trans hblank)
    have hseparator : (decide (0x1C ≤ c.toNat) && decide (c.toNat ≤ 0x1F)) = false := by
      rw [← Bool.decide_and]
      exact decide_eq_false hp
    rw [Mark.ofCodePoint, Mark.ofChar, if_neg (hne _ (by decide)), if_neg (hne _ (by decide)),
      if_neg (hne _ (by decide)), if_pos (by rw [hblank, hseparator]; rfl)]
    rfl
  | surrogate n =>
    have hlast : blanks.all fun r => decide (r.2 < 0xD800) := by decide
    obtain ⟨r, hr, hn⟩ := List.any_eq_true.mp h
    have hr := of_decide_eq_true (List.all_eq_true.mp hlast r hr)
    have hval : (CodePoint.surrogate n).val = 0xD800 + n.val := rfl
    rw [hval, Bool.and_eq_true, decide_eq_true_iff, decide_eq_true_iff] at hn
    omega

theorem Spelling.not_isBlank_core (s : Spelling) :
    ∀ m ∈ marks (Text.ofChars s.core), m.isBlank = false := by
  intro m hm
  rw [marks, Text.ofChars, List.map_map] at hm
  obtain ⟨c, hc, rfl⟩ := List.mem_map.mp hm
  have hblank : BitReaders.isBlank c.toNat = false := by
    rcases List.mem_append.mp hc with hc | hc
    · have hsigns : ∀ sign : Sign, ∀ c ∈ sign.chars, BitReaders.isBlank c.toNat = false := by
        intro sign
        cases sign
        · exact nofun
        · exact List.forall_mem_singleton.mpr (by decide)
        · exact List.forall_mem_singleton.mpr (by decide)
      exact hsigns s.sign c hc
    · exact s.body_digits.not_isBlank c hc
  rw [← Bool.not_eq_true]
  intro hmark
  exact Bool.false_ne_true (hblank.symm.trans (isBlank_of_isBlank_ofCodePoint hmark))

/-- What is spelled is read. -/
theorem Spelling.read?_text (s : Spelling) (h : ∀ c ∈ s.text, ¬ IsSeparator c) :
    read? s.text = some s.value := by
  -- All white space at the ends is trimmed off, since none of it is a separator.
  have hblank : ∀ u : Text, u ⊆ s.text → (∀ c ∈ u, c.isBlank = true) →
      ∀ m ∈ marks u, m.isBlank = true := by
    intro u hu hblanks m hm
    obtain ⟨c, hc, rfl⟩ := List.mem_map.mp hm
    exact isBlank_ofCodePoint (hblanks c hc) (h c (hu hc))
  have hbefore := hblank s.before (List.subset_append_left _ _) s.blank_before
  have hafter := hblank s.after (List.subset_append_of_subset_right _
    (List.subset_append_right _ _)) s.blank_after
  have htrim : trimEnds Mark.isBlank (marks s.text) = marks (Text.ofChars s.core) := by
    rw [marks, text, List.map_append, List.map_append]
    exact (trimEnds_append hbefore hafter).trans (trimEnds_eq_self s.not_isBlank_core)
  exact (congrArg signed? htrim).trans s.signed?_core

/-- What is read is spelled. -/
theorem exists_spelling_of_read?_eq {t : Text} {i : Int} (h : read? t = some i) :
    ∃ s : Spelling, s.text = t ∧ s.value = i := by
  obtain ⟨ms, ns, hmarks, hms, hns⟩ := exists_eq_append_trimEnds Mark.isBlank (marks t)
  -- The text is cut where its marks are.
  obtain ⟨before, u, rfl, hbefore, hu⟩ := List.map_eq_append_iff.mp hmarks
  obtain ⟨mid, after, rfl, hmid, hafter⟩ := List.map_eq_append_iff.mp hu
  have hblank : ∀ v : Text, (∀ m ∈ marks v, m.isBlank = true) → ∀ c ∈ v, c.isBlank = true :=
    fun v hv c hc => isBlank_of_isBlank_ofCodePoint (hv _ (List.mem_map_of_mem hc))
  have hsigned : signed? (marks mid) = some i := by
    rw [marks, hmid]
    exact h
  obtain ⟨sign, u, n, rfl, hunsigned, rfl⟩ := exists_of_signed?_eq hsigned
  obtain ⟨ds, hds, hlen, rfl⟩ := unsigned?_eq_some_iff.mp hunsigned
  obtain ⟨body, rfl, hbody⟩ := exists_digits_of_digits?_eq hds
  refine ⟨⟨before, sign, body, ds, after, hblank before ?_, hblank after ?_, hbody, hlen⟩, ?_, rfl⟩
  · exact fun m hm => hms m (hbefore ▸ hm)
  · exact fun m hm => hns m (hafter ▸ hm)
  · rw [Spelling.text, Spelling.core, Text.ofChars, List.map_append]
    rfl

/-- What is read can be printed. -/
theorem fits_of_read?_eq {t : Text} {i : Int} (h : read? t = some i) : Fits i := by
  obtain ⟨s, -, rfl⟩ := exists_spelling_of_read?_eq h
  exact s.fits_value

/-- **A text is read as an integer just if it spells it.** -/
theorem read?_eq_some_iff {t : Text} (h : ∀ c ∈ t, ¬ IsSeparator c) {i : Int} :
    read? t = some i ↔ ∃ s : Spelling, s.text = t ∧ s.value = i := by
  constructor
  · exact exists_spelling_of_read?_eq
  · rintro ⟨s, rfl, rfl⟩
    exact s.read?_text h

theorem ofDigits_eq_zero_iff {ds : List Nat} : Nat.ofDigits 10 ds = 0 ↔ ∀ d ∈ ds, d = 0 := by
  induction ds with
  | nil => exact iff_of_true rfl nofun
  | cons d ds ih =>
    rw [Nat.ofDigits_cons, List.forall_mem_cons, ← ih]
    omega

/-- Under a minus sign the number is not negative only if all its digits are zeros. -/
theorem Spelling.value_nonneg_iff (s : Spelling) :
    0 ≤ s.value ↔ (s.sign = .minus → ∀ d ∈ s.digits, d = 0) := by
  rw [value, Sign.apply_nonneg_iff, magnitude, ofDigits_eq_zero_iff]
  simp only [List.mem_reverse]

/-- A number that is not negative is that of the digits, whatever the sign. -/
theorem Spelling.value_eq_magnitude {s : Spelling} (h : 0 ≤ s.value) : s.value = s.magnitude := by
  rw [value, Sign.apply_nonneg_iff] at h
  rw [value]
  cases hsign : s.sign with
  | none => rfl
  | plus => rfl
  | minus =>
    rw [h hsign]
    rfl

/-- The text spells a natural number: under a minus sign there are only zeros. -/
def Spells (t : Text) (n : Nat) : Prop :=
  ∃ s : Spelling, s.text = t ∧ (s.sign = .minus → ∀ d ∈ s.digits, d = 0) ∧ s.magnitude = n

theorem Spells.fits {t : Text} {n : Nat} (h : Spells t n) : Fits n := by
  obtain ⟨s, -, -, rfl⟩ := h
  exact s.fits_magnitude

/-- **A text is read as a natural number just if it spells it.** -/
theorem read?_eq_natCast_iff {t : Text} (h : ∀ c ∈ t, ¬ IsSeparator c) {n : Nat} :
    read? t = some (n : Int) ↔ Spells t n := by
  rw [read?_eq_some_iff h]
  refine exists_congr fun s => and_congr_right fun _ => ?_
  rw [← s.value_nonneg_iff]
  constructor
  · intro hn
    have hnonneg : 0 ≤ s.value := hn ▸ Int.natCast_nonneg n
    exact ⟨hnonneg, Int.ofNat.inj ((s.value_eq_magnitude hnonneg).symm.trans hn)⟩
  · rintro ⟨hnonneg, rfl⟩
    exact s.value_eq_magnitude hnonneg

end Numeral

end BitReaders
