import BitReaders.Reader.Variant
import Mathlib.Logic.Function.Basic
import Mathlib.Tactic.MkIffOfInductiveProp

/-!
# Class names can be decoded

A class name is written without separators, from words of different lengths. It can be decoded all
the same, because no word is the beginning of another one, whatever the case of the letters.

- `PrefixFree code`: no code word begins another one. Texts over such a code have one decoding
  (`PrefixFree.flatMap_injective`).
- `NameWord`: the words of class names, with the suffixes of the default families as words of
  their own; `NameWord.folded` is a word without regard to case, and `folded_prefixFree` says that
  these words are a prefix code.
- `Variant.words`: the words before the suffix in the name of a variant; `Variant.SameChoices`
  says when they agree (`words_eq_iff`).
- `className_decodable`: **a class name determines the choices**, also if case is ignored, and the
  names of the default families and their suffixes stay apart.
-/

namespace BitReaders

/-! ## Prefix codes -/

section PrefixCode

variable {α β : Type} {code : α → List β}

/-- No code word begins the code word of another symbol. -/
def PrefixFree (code : α → List β) : Prop :=
  ∀ a b, code a <+: code b → a = b

/-- The first symbol of an encoded text is determined, and so is the rest. -/
theorem PrefixFree.head_unique (h : PrefixFree code) {a b : α} {s t : List β}
    (heq : code a ++ s = code b ++ t) : a = b ∧ s = t := by
  have ha : code a <+: code b ++ t := ⟨s, heq⟩
  -- two beginnings of one text: the shorter of them begins the other
  have hab : a = b := by
    rcases List.prefix_or_prefix_of_prefix ha (List.prefix_append (code b) t) with hpre | hpre
    · exact h a b hpre
    · exact (h b a hpre).symm
  subst hab
  exact ⟨rfl, List.append_cancel_left heq⟩

/-- **An encoded text has one decoding**, if no symbol is encoded by nothing. -/
theorem PrefixFree.flatMap_injective (h : PrefixFree code) (hne : ∀ a, code a ≠ []) :
    Function.Injective (List.flatMap code) := by
  intro l₁ l₂ heq
  induction l₁ generalizing l₂ with
  | nil =>
    cases l₂ with
    | nil => rfl
    | cons b l₂ =>
      rw [List.flatMap_nil, List.flatMap_cons] at heq
      exact absurd (List.append_eq_nil_iff.mp heq.symm).1 (hne b)
  | cons a l₁ ih =>
    cases l₂ with
    | nil =>
      rw [List.flatMap_nil, List.flatMap_cons] at heq
      exact absurd (List.append_eq_nil_iff.mp heq).1 (hne a)
    | cons b l₂ =>
      rw [List.flatMap_cons, List.flatMap_cons] at heq
      obtain ⟨rfl, hrest⟩ := h.head_unique heq
      rw [ih hrest]

end PrefixCode

/-! ## The words of class names -/

/-- Case is lowered letter by letter. -/
theorem toList_toLower (s : String) : s.toLower.toList = s.toList.map Char.toLower :=
  String.toList_map

/-- A word of a class name. -/
inductive NameWord where
  | skip
  | scheme (s : Scheme)
  | payload
  | standardSuffix
  | highPerformanceSuffix
  deriving DecidableEq

namespace NameWord

/-- The words. -/
def all : List NameWord :=
  [.skip, .payload, .standardSuffix, .highPerformanceSuffix] ++ Scheme.all.map .scheme

theorem mem_all (u : NameWord) : u ∈ all := by
  cases u with
  | scheme s => exact List.mem_append_right _ (List.mem_map_of_mem (Scheme.mem_all s))
  | _ => exact List.mem_append_left _ (by simp)

/-- The word as it is written. -/
def text : NameWord → String
  | .skip => "Skip"
  | .scheme s => s.capitalized
  | .payload => "Payload"
  | .standardSuffix => "BitStreamIndexReader"
  | .highPerformanceSuffix => "BitStreamHPIndexReader"

/-- The word without regard to case. -/
def folded (u : NameWord) : List Char := u.text.toList.map Char.toLower

theorem folded_ne_nil (u : NameWord) : u.folded ≠ [] := by
  have h : ∀ u ∈ all, u.folded ≠ [] := by decide +kernel
  exact h u (mem_all u)

/-- No word begins another one, even without regard to case. -/
theorem folded_prefixFree : PrefixFree folded := by
  have h : ∀ u ∈ all, ∀ v ∈ all, u.folded <+: v.folded → u = v := by decide +kernel
  exact fun u v => h u (mem_all u) v (mem_all v)

/-- The suffixes of the default families are words. -/
theorem exists_text_eq_of_mem {s : String}
    (h : s ∈ ["BitStreamIndexReader", "BitStreamHPIndexReader"]) : ∃ u : NameWord, s = u.text := by
  rcases List.mem_cons.mp h with rfl | h
  · exact ⟨.standardSuffix, rfl⟩
  · exact ⟨.highPerformanceSuffix, List.mem_singleton.mp h⟩

/-- Words in a row can be told apart without regard to case. -/
theorem flatMap_folded_injective : Function.Injective (List.flatMap folded) :=
  folded_prefixFree.flatMap_injective folded_ne_nil

end NameWord

namespace Variant

/-- The words before the suffix in the name of a variant. -/
def words (v : Variant) : List NameWord :=
  (if v.hasSkips then [.skip] else []) ++ [.scheme v.frequencies, .scheme v.pointers] ++
    (if v.isPayload then [.payload] else [.scheme v.counts, .scheme v.positions])

theorem words_ne_nil (v : Variant) : v.words ≠ [] := by
  intro h
  have hnil := List.append_eq_nil_iff.mp (List.append_eq_nil_iff.mp h).1
  cases hnil.2

/-- Two variants make the same choices, as far as their readers differ: payload readers have
neither counts nor positions. -/
@[mk_iff]
structure SameChoices (v w : Variant) : Prop where
  hasSkips : v.hasSkips = w.hasSkips
  frequencies : v.frequencies = w.frequencies
  pointers : v.pointers = w.pointers
  isPayload : v.isPayload = w.isPayload
  counts : v.isPayload = false → v.counts = w.counts
  positions : v.isPayload = false → v.positions = w.positions

/-- The words of a name determine the choices: only a name with skips starts with a word that is no
scheme, and only a name with a payload ends in one. -/
theorem words_eq_iff (v w : Variant) : v.words = w.words ↔ v.SameChoices w := by
  obtain ⟨f, skips, frequencies, pointers, counts, positions, payload⟩ := v
  obtain ⟨g, skips', frequencies', pointers', counts', positions', payload'⟩ := w
  cases skips <;> cases skips' <;> cases payload <;> cases payload' <;>
    simp [words, sameChoices_iff]

/-! ## Class names -/

theorem toList_className (v : Variant) :
    v.className.toList = v.words.flatMap (fun u => u.text.toList) ++ v.family.suffix.toList := by
  obtain ⟨f, skips, frequencies, pointers, counts, positions, payload⟩ := v
  cases skips <;> cases payload <;> simp [className, words, NameWord.text]

/-- A class name without regard to case. -/
theorem toList_toLower_className (v : Variant) :
    v.className.toLower.toList =
      v.words.flatMap NameWord.folded ++ v.family.suffix.toLower.toList := by
  rw [toList_toLower, toList_toLower, toList_className, List.map_append, List.map_flatMap]
  rfl

/-- If the suffix is a word, the name is a row of words. -/
theorem toList_toLower_className_of_suffix {v : Variant} {u : NameWord}
    (h : v.family.suffix = u.text) :
    v.className.toLower.toList = (v.words ++ [u]).flatMap NameWord.folded := by
  rw [toList_toLower_className, h, List.flatMap_append, List.flatMap_singleton, toList_toLower]
  rfl

/-- Equal choices give equal names. -/
theorem SameChoices.className_eq {v w : Variant} (h : v.SameChoices w)
    (hsuffix : v.family.suffix = w.family.suffix) : v.className = w.className := by
  rw [← String.toList_inj, toList_className, toList_className, (words_eq_iff v w).mpr h, hsuffix]

/-- Names that are equal up to case come from equal choices. -/
theorem sameChoices_of_toLower_eq {v w : Variant} (hsuffix : v.family.suffix = w.family.suffix)
    (h : v.className.toLower = w.className.toLower) : v.SameChoices w := by
  have hlist := congrArg String.toList h
  rw [toList_toLower_className, toList_toLower_className, hsuffix] at hlist
  have hwords := NameWord.flatMap_folded_injective (List.append_cancel_right hlist)
  exact (words_eq_iff v w).mp hwords

/-- Names with different words as suffixes differ, even up to case. -/
theorem toLower_className_ne {v w : Variant} {a b : NameWord} (hv : v.family.suffix = a.text)
    (hw : w.family.suffix = b.text) (hne : a ≠ b) :
    v.className.toLower ≠ w.className.toLower := by
  intro h
  have hlist := congrArg String.toList h
  rw [toList_toLower_className_of_suffix hv, toList_toLower_className_of_suffix hw] at hlist
  have hwords := NameWord.flatMap_folded_injective hlist
  -- rows of words that are equal have equal last words
  have hlast := List.append_inj_right' hwords rfl
  exact hne (List.cons.inj hlast).1

/-- A name is no word, not even up to case. -/
theorem toLower_className_ne_text {v : Variant} {u : NameWord} (hv : v.family.suffix = u.text)
    (u' : NameWord) : v.className.toLower ≠ u'.text.toLower := by
  intro h
  have hlist := congrArg String.toList h
  have hword : u'.text.toLower.toList = [u'].flatMap NameWord.folded := by
    rw [List.flatMap_singleton, toList_toLower]
    rfl
  rw [toList_toLower_className_of_suffix hv, hword] at hlist
  -- the name is a row of two words or more, and the other text of only one
  have hwords := congrArg List.length (NameWord.flatMap_folded_injective hlist)
  have hlen := List.length_pos_iff.mpr v.words_ne_nil
  rw [List.length_append, List.length_singleton, List.length_singleton] at hwords
  omega

/-- **Class names can be decoded.** Names with the same suffix are equal iff the choices are, and
also equal up to case only then. The names of the two default families differ up to case, and none
of them is one of the bare suffixes. -/
theorem className_decodable (v w : Variant) :
    (v.family.suffix = w.family.suffix →
      (v.className = w.className ↔ v.SameChoices w) ∧
      (v.className.toLower = w.className.toLower ↔ v.SameChoices w)) ∧
    (v.family.suffix = "BitStreamIndexReader" →
      w.family.suffix = "BitStreamHPIndexReader" →
      v.className.toLower ≠ w.className.toLower) ∧
    (v.family.suffix ∈ ["BitStreamIndexReader", "BitStreamHPIndexReader"] →
      ∀ s ∈ ["BitStreamIndexReader", "BitStreamHPIndexReader"],
        v.className.toLower ≠ s.toLower) := by
  refine ⟨?_, ?_, ?_⟩
  -- a common suffix need not be a word: it is cancelled before the rest is decoded
  · intro hsuffix
    constructor
    · constructor
      · intro h
        exact sameChoices_of_toLower_eq hsuffix (congrArg String.toLower h)
      · intro h
        exact h.className_eq hsuffix
    · constructor
      · intro h
        exact sameChoices_of_toLower_eq hsuffix h
      · intro h
        exact congrArg String.toLower (h.className_eq hsuffix)
  -- the suffixes of the default families are decoded as the last words of the names
  · intro hv hw
    exact toLower_className_ne (a := .standardSuffix) (b := .highPerformanceSuffix) hv hw
      (by decide)
  · intro hv s hs
    obtain ⟨u, hu⟩ := NameWord.exists_text_eq_of_mem hv
    obtain ⟨u', rfl⟩ := NameWord.exists_text_eq_of_mem hs
    exact toLower_className_ne_text hu u'

/-- Two payload variants that differ in what a payload reader does not have, a high-performance
variant with the same words otherwise, and a suffix. -/
theorem className_decodable_payload :
    Variant.className ⟨.standard, true, .gamma, .golomb, .none, .none, true⟩ =
        Variant.className ⟨.standard, true, .gamma, .golomb, .unary, .delta, true⟩ ∧
      (Variant.className ⟨.standard, true, .gamma, .golomb, .none, .none, true⟩).toLower ≠
        (Variant.className ⟨.highPerformance, true, .gamma, .golomb, .none, .none, true⟩).toLower ∧
      (Variant.className ⟨.standard, true, .gamma, .golomb, .none, .none, true⟩).toLower ≠
        "BitStreamHPIndexReader".toLower := by
  refine ⟨?_, ?_, ?_⟩
  · exact ((className_decodable _ _).1 rfl).1.mpr ⟨rfl, rfl, rfl, rfl, nofun, nofun⟩
  · exact (className_decodable _ _).2.1 rfl rfl
  · exact (className_decodable _ ⟨.standard, false, .gamma, .gamma, .none, .none, true⟩).2.2
      (by decide) _ (by decide)

end Variant

end BitReaders
