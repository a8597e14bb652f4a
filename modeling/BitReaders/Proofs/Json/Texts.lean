import BitReaders.Json.Value
import BitReaders.Proofs.Conditional.Spelling
import BitReaders.Proofs.Text.LineEnds
import BitReaders.Text.Numeral
import Mathlib.Data.List.Forall2

/-!
# The texts of a JSON value

A value is written as a sequence of tokens with white space around them. So it has many texts, which
differ in their white space and in how they escape characters.

- `Token`, `Value.tokens`: the tokens of a value, with the members of objects in order.
- `WrittenChar`, `WrittenToken`, `Written`: the texts of a character of a string, of a token, and of
  tokens with white space around them. In strings only the quote, the backslash and the control
  characters are escaped. No text is given to doubles.
- `Value.Storable`: the values made of null, truth values, integers that are not too long, strings
  without lone surrogates, arrays, and objects with distinct names. `Storable.exists_written`: each
  of them has a text.
- `Written.foldLineEnds`, `Written.store`: a text stays one of the same tokens when line ends are
  folded, or stored as others.
-/

namespace BitReaders.Json

/-! ## Tokens -/

/-- A mark of punctuation. -/
inductive Mark where
  | openArray
  | closeArray
  | openObject
  | closeObject
  | comma
  | colon
  deriving DecidableEq, Repr

/-- The character of a mark. -/
def Mark.char : Mark → Char
  | .openArray => '['
  | .closeArray => ']'
  | .openObject => '\x7b'
  | .closeObject => '\x7d'
  | .comma => ','
  | .colon => ':'

/-- A token of a document. -/
inductive Token where
  | mark (m : Mark)
  /-- A value that is no array and no object. -/
  | scalar (v : Value)

namespace Value

mutual

/-- The tokens of a value. -/
def tokens : Value → List Token
  | .array vs =>
    .mark .openArray :: ([.mark .comma].intercalate (itemTokens vs) ++ [.mark .closeArray])
  | .object ms =>
    .mark .openObject :: ([.mark .comma].intercalate (memberTokens ms) ++ [.mark .closeObject])
  | v => [.scalar v]

/-- The tokens of each item of an array. -/
def itemTokens : List Value → List (List Token)
  | [] => []
  | v :: vs => v.tokens :: itemTokens vs

/-- The tokens of each member of an object. -/
def memberTokens : List (Text × Value) → List (List Token)
  | [] => []
  | (name, v) :: ms =>
    (.scalar (.string name) :: .mark .colon :: v.tokens) :: memberTokens ms

end

end Value

/-! ## Texts -/

/-- The characters that a string has to escape. -/
def NeedsEscape (c : Char) : Prop :=
  c = '"' ∨ c = '\\' ∨ c.toNat < 0x20

instance (c : Char) : Decidable (NeedsEscape c) :=
  inferInstanceAs (Decidable (_ ∨ _ ∨ _))

/-- The characters with an escape of one letter, and these letters. -/
def escapeLetters : List (Char × Char) :=
  [('"', '"'), ('\\', '\\'), ('\x08', 'b'), ('\x0c', 'f'), ('\n', 'n'), ('\r', 'r'), ('\t', 't')]

/-- The text writes a character of a string: as it is, or escaped if that is needed, by a letter or
by four hexadecimal digits in either case. -/
inductive WrittenChar : Char → List Char → Prop where
  | raw {c : Char} (h : ¬ NeedsEscape c) : WrittenChar c [c]
  | letter {c l : Char} (h : (c, l) ∈ escapeLetters) : WrittenChar c ['\\', l]
  | unit {c : Char} {ds : List Char} (h : NeedsEscape c)
    (hds : ds.map Char.toLower = hexDigits 4 c.toNat) : WrittenChar c ('\\' :: 'u' :: ds)

/-- The text writes a token. -/
inductive WrittenToken : Token → List Char → Prop where
  | mark (m : Mark) : WrittenToken (.mark m) [m.char]
  | null : WrittenToken (.scalar .null) "null".toList
  | bool (b : Bool) : WrittenToken (.scalar (.bool b)) (if b then "true" else "false").toList
  | integer (n : Int) : WrittenToken (.scalar (.integer n)) (toString n).toList
  | string {cs : List Char} {ps : List (List Char)} (h : List.Forall₂ WrittenChar cs ps) :
    WrittenToken (.scalar (.string (Text.ofChars cs))) ('"' :: (ps.flatten ++ ['"']))

/-- White space between tokens. -/
def Blank (bs : List Char) : Prop :=
  ∀ b ∈ bs, b ∈ [' ', '\t', '\n', '\r']

/-- The text writes tokens, with white space around them. -/
inductive Written : List Token → List Char → Prop where
  | nil {bs : List Char} (h : Blank bs) : Written [] bs
  | cons {t : Token} {ts : List Token} {bs text cs : List Char} (hbs : Blank bs)
    (ht : WrittenToken t text) (hts : Written ts cs) : Written (t :: ts) (bs ++ (text ++ cs))

/-! ## Characters of texts -/

theorem NeedsEscape.toNat_lt {c : Char} (h : NeedsEscape c) : c.toNat < 0x60 := by
  rcases h with rfl | rfl | h
  · decide
  · decide
  · omega

/-- A small number in four hexadecimal digits. -/
theorem hexDigits_four_eq :
    ∀ n < 0x60, hexDigits 4 n = ['0', '0', Nat.digitChar (n / 16), Nat.digitChar (n % 16)] := by
  decide

/-- Control characters have no case. -/
theorem toLower_eq_self_of_lt {c : Char} (h : c.toNat < 0x20) : c.toLower = c := by
  have hval : ¬ (c.val ≥ 'A'.val ∧ c.val ≤ 'Z'.val) := by
    rintro ⟨hge, -⟩
    have hle : 'A'.toNat ≤ c.toNat := hge
    exact absurd (Nat.lt_of_le_of_lt hle h) (by decide)
  exact dif_neg hval

theorem forall_le_of_map_toLower_eq {n : Nat} (hn : n < 0x60) {ds : List Char}
    (hds : ds.map Char.toLower = hexDigits 4 n) : ∀ d ∈ ds, 0x20 ≤ d.toNat := by
  have hchars : ∀ k < 16, 0x20 ≤ (Nat.digitChar k).toNat := by decide
  intro d hd
  by_contra hlt
  have hlower : d.toLower = d := toLower_eq_self_of_lt (Nat.lt_of_not_le hlt)
  have hmem : d ∈ hexDigits 4 n := hds ▸ hlower ▸ List.mem_map_of_mem hd
  rw [hexDigits_four_eq n hn] at hmem
  simp only [List.mem_cons, List.not_mem_nil, or_false] at hmem
  rcases hmem with rfl | rfl | rfl | rfl
  · exact hlt (by decide)
  · exact hlt (by decide)
  · exact hlt (hchars _ (by omega))
  · exact hlt (hchars _ (by omega))

/-- The characters of a list that are tested at once. -/
theorem forall_le_of_all {cs : List Char} (h : (cs.all fun d => decide (0x20 ≤ d.toNat)) = true) :
    ∀ d ∈ cs, 0x20 ≤ d.toNat :=
  fun d hd => of_decide_eq_true (List.all_eq_true.mp h d hd)

theorem WrittenChar.forall_le {c : Char} {p : List Char} (h : WrittenChar c p) :
    ∀ d ∈ p, 0x20 ≤ d.toNat := by
  cases h with
  | raw h =>
    intro d hd
    obtain rfl := List.mem_singleton.mp hd
    exact Nat.le_of_not_lt fun hlt => h (.inr (.inr hlt))
  | letter h =>
    have hletters : escapeLetters.all fun e => decide (0x20 ≤ e.2.toNat) := by decide
    have hl := of_decide_eq_true (List.all_eq_true.mp hletters _ h)
    exact List.forall_mem_cons.mpr ⟨by decide, List.forall_mem_singleton.mpr hl⟩
  | unit h hds =>
    have hdigits := forall_le_of_map_toLower_eq h.toNat_lt hds
    exact List.forall_mem_cons.mpr ⟨by decide, List.forall_mem_cons.mpr ⟨by decide, hdigits⟩⟩

theorem forall_le_flatten {cs : List Char} {ps : List (List Char)}
    (h : List.Forall₂ WrittenChar cs ps) : ∀ d ∈ ps.flatten, 0x20 ≤ d.toNat := by
  induction h with
  | nil => exact nofun
  | cons hp _ ih =>
    intro d hd
    rw [List.flatten_cons, List.mem_append] at hd
    exact hd.elim (hp.forall_le d) (ih d)

/-- A token is written without control characters. -/
theorem WrittenToken.forall_le {t : Token} {text : List Char} (h : WrittenToken t text) :
    ∀ d ∈ text, 0x20 ≤ d.toNat := by
  cases h with
  | mark m =>
    have hmark : 0x20 ≤ m.char.toNat := by cases m <;> decide
    exact List.forall_mem_singleton.mpr hmark
  | null => exact forall_le_of_all (by decide)
  | bool b => exact forall_le_of_all (by cases b <;> decide)
  | integer n =>
    intro d hd
    rcases Conditional.of_mem_toString hd with rfl | hdigit
    · decide
    · exact Nat.le_trans (by decide) (Char.isDigit_iff_toNat.mp hdigit).1
  | string h =>
    refine List.forall_mem_cons.mpr ⟨by decide, fun d hd => ?_⟩
    rcases List.mem_append.mp hd with hd | hd
    · exact forall_le_flatten h d hd
    · obtain rfl := List.mem_singleton.mp hd
      decide

/-- A token is written in one character at least, which is neither a space nor a mark of byte
order. -/
theorem WrittenToken.exists_cons {t : Token} {text : List Char} (h : WrittenToken t text) :
    ∃ c cs, text = c :: cs ∧ c ≠ ' ' ∧ c ≠ '\uFEFF' := by
  cases h with
  | mark m => exact ⟨m.char, [], rfl, by cases m <;> decide, by cases m <;> decide⟩
  | null => exact ⟨'n', _, rfl, by decide, by decide⟩
  | bool b =>
    cases b with
    | true => exact ⟨'t', _, rfl, by decide, by decide⟩
    | false => exact ⟨'f', _, rfl, by decide, by decide⟩
  | integer n =>
    obtain ⟨c, cs, hn⟩ := List.exists_cons_of_ne_nil (Conditional.toList_toString_ne_nil n)
    have hc : c = '-' ∨ c.isDigit = true :=
      Conditional.of_mem_toString (hn ▸ List.mem_cons_self)
    refine ⟨c, cs, hn, ?_, ?_⟩
    · rintro rfl
      exact absurd hc (by decide)
    · rintro rfl
      exact absurd hc (by decide)
  | string h => exact ⟨'"', _, rfl, by decide, by decide⟩

/-! ## Line ends in texts -/

theorem Blank.foldLineEnds {bs : List Char} (h : Blank bs) : Blank (foldLineEnds bs) := by
  intro b hb
  rcases mem_foldLineEnds hb with rfl | hb
  · decide
  · exact h b hb

theorem blank_chars (e : LineEnd) : Blank e.chars := by
  cases e <;> simp [Blank, LineEnd.chars]

theorem Blank.store {bs : List Char} (h : Blank bs) (e : LineEnd) : Blank (e.store bs) := by
  intro b hb
  rcases LineEnd.mem_store hb with hb | hb
  · exact blank_chars e b hb
  · exact h b hb

/-- A text that was folded is one of the same tokens: line ends are white space between them. -/
theorem Written.foldLineEnds {ts : List Token} {cs : List Char} (h : Written ts cs) :
    Written ts (foldLineEnds cs) := by
  induction h with
  | nil h => exact .nil h.foldLineEnds
  | @cons t ts bs text cs hbs ht _ ih =>
    -- No line end begins in the token, or goes on in it from the white space before it.
    have hreturn : '\r' ∉ text := fun hmem => absurd (ht.forall_le _ hmem) (by decide)
    have hnewline : (text ++ cs).head? ≠ some '\n' := by
      obtain ⟨c, text', rfl, -, -⟩ := ht.exists_cons
      intro hhead
      obtain rfl : c = '\n' := Option.some.inj hhead
      exact absurd (ht.forall_le _ List.mem_cons_self) (by decide)
    rw [foldLineEnds_append hnewline, foldLineEnds_append_of_not_mem hreturn]
    exact .cons hbs.foldLineEnds ht ih

/-- So is one with its newlines stored as other line ends. -/
theorem Written.store {ts : List Token} {cs : List Char} (h : Written ts cs) (e : LineEnd) :
    Written ts (e.store cs) := by
  induction h with
  | nil h => exact .nil (h.store e)
  | @cons t ts bs text cs hbs ht _ ih =>
    have hnewline : '\n' ∉ text := fun hmem => absurd (ht.forall_le _ hmem) (by decide)
    rw [LineEnd.store_append, LineEnd.store_append, LineEnd.store_of_not_mem e hnewline]
    exact .cons (hbs.store e) ht ih

/-! ## Values that have texts -/

/-- The values made of null, truth values, integers that are not too long, strings without lone
surrogates, arrays, and objects with distinct names. -/
inductive Value.Storable : Value → Prop where
  | null : Storable .null
  | bool (b : Bool) : Storable (.bool b)
  | integer {n : Int} (h : (Nat.toDigits 10 n.natAbs).length ≤ Numeral.maxDigits) :
    Storable (.integer n)
  | string (cs : List Char) : Storable (.string (Text.ofChars cs))
  | array {vs : List Value} (items : ∀ v ∈ vs, Storable v) : Storable (.array vs)
  | object {ms : Members} (names : (ms.map (·.1)).Nodup)
    (scalars : ∀ m ∈ ms, ∃ cs, m.1 = Text.ofChars cs) (values : ∀ m ∈ ms, Storable m.2) :
    Storable (.object ms)

/-- A character has a text: it is escaped by its number, if it has to be. -/
theorem exists_writtenChar (c : Char) : ∃ p, WrittenChar c p := by
  by_cases h : NeedsEscape c
  · have hlower : ∀ n < 0x60, (hexDigits 4 n).map Char.toLower = hexDigits 4 n := by decide
    exact ⟨_, .unit h (hlower _ h.toNat_lt)⟩
  · exact ⟨_, .raw h⟩

theorem exists_writtenToken_string (cs : List Char) :
    ∃ text, WrittenToken (.scalar (.string (Text.ofChars cs))) text := by
  obtain ⟨ps, hps⟩ : ∃ ps, List.Forall₂ WrittenChar cs ps := by
    induction cs with
    | nil => exact ⟨[], .nil⟩
    | cons c cs ih =>
      obtain ⟨p, hp⟩ := exists_writtenChar c
      obtain ⟨ps, hps⟩ := ih
      exact ⟨p :: ps, .cons hp hps⟩
  exact ⟨_, .string hps⟩

/-- Lists joined by a separator have its elements and theirs. -/
theorem mem_intercalate {α : Type} {sep : List α} {ls : List (List α)} {a : α}
    (h : a ∈ sep.intercalate ls) : a ∈ sep ∨ ∃ l ∈ ls, a ∈ l := by
  induction ls with
  | nil => cases h
  | cons l ls ih =>
    cases ls with
    | nil =>
      rw [List.intercalate_singleton] at h
      exact .inr ⟨l, List.mem_cons_self, h⟩
    | cons k ls =>
      rw [List.intercalate_cons_cons, List.mem_append, List.mem_append] at h
      rcases h with (h | h) | h
      · exact .inr ⟨l, List.mem_cons_self, h⟩
      · exact .inl h
      · refine (ih h).imp_right ?_
        rintro ⟨m, hm, ha⟩
        exact ⟨m, List.mem_cons_of_mem l hm, ha⟩

/-- Tokens between two marks, in parts separated by commas, can be written if the parts can. -/
theorem exists_writtenToken_joined (first last : Mark) {tss : List (List Token)}
    (h : ∀ ts ∈ tss, ∀ t ∈ ts, ∃ text, WrittenToken t text) :
    ∀ t ∈ .mark first :: ([.mark .comma].intercalate tss ++ [.mark last]),
      ∃ text, WrittenToken t text := by
  intro t ht
  rw [List.mem_cons, List.mem_append, List.mem_singleton] at ht
  rcases ht with rfl | ht | rfl
  · exact ⟨_, .mark first⟩
  · rcases mem_intercalate ht with ht | ⟨ts, hts, ht⟩
    · obtain rfl := List.mem_singleton.mp ht
      exact ⟨_, .mark .comma⟩
    · exact h ts hts t ht
  · exact ⟨_, .mark last⟩

namespace Value

theorem itemTokens_eq (vs : List Value) : itemTokens vs = vs.map tokens := by
  induction vs with
  | nil => rfl
  | cons v vs ih => rw [itemTokens, ih, List.map_cons]

/-- The tokens of one member. -/
def pairTokens (m : Text × Value) : List Token :=
  .scalar (.string m.1) :: .mark .colon :: m.2.tokens

theorem memberTokens_eq (ms : Members) : memberTokens ms = ms.map pairTokens := by
  induction ms with
  | nil => rfl
  | cons m ms ih =>
    rw [memberTokens, ih, List.map_cons]
    rfl

/-- Each token of a storable value can be written. By induction on the value. -/
theorem Storable.exists_writtenToken {v : Value} (h : v.Storable) :
    ∀ t ∈ v.tokens, ∃ text, WrittenToken t text := by
  induction h with
  | null => exact List.forall_mem_singleton.mpr ⟨_, .null⟩
  | bool b => exact List.forall_mem_singleton.mpr ⟨_, .bool b⟩
  | @integer n _ => exact List.forall_mem_singleton.mpr ⟨_, .integer n⟩
  | string cs => exact List.forall_mem_singleton.mpr (exists_writtenToken_string cs)
  | @array vs _ ih =>
    rw [tokens, itemTokens_eq]
    refine exists_writtenToken_joined _ _ fun ts hts => ?_
    obtain ⟨v, hv, rfl⟩ := List.mem_map.mp hts
    exact ih v hv
  | @object ms _ hscalars _ ih =>
    rw [tokens, memberTokens_eq]
    refine exists_writtenToken_joined _ _ fun ts hts => ?_
    obtain ⟨m, hm, rfl⟩ := List.mem_map.mp hts
    obtain ⟨cs, hcs⟩ := hscalars m hm
    rw [pairTokens, hcs]
    exact List.forall_mem_cons.mpr ⟨exists_writtenToken_string cs,
      List.forall_mem_cons.mpr ⟨⟨_, .mark _⟩, ih m hm⟩⟩

end Value

theorem blank_nil : Blank [] :=
  nofun

/-- A token may be written right where a text starts. -/
theorem Written.tight {t : Token} {ts : List Token} {text cs : List Char}
    (ht : WrittenToken t text) (hts : Written ts cs) : Written (t :: ts) (text ++ cs) :=
  .cons blank_nil ht hts

/-- Tokens that can be written one by one can be written together. -/
theorem exists_written_of_forall {ts : List Token} (h : ∀ t ∈ ts, ∃ text, WrittenToken t text) :
    ∃ cs, Written ts cs := by
  induction ts with
  | nil => exact ⟨[], .nil blank_nil⟩
  | cons t ts ih =>
    obtain ⟨⟨text, ht⟩, hts⟩ := List.forall_mem_cons.mp h
    obtain ⟨cs, hcs⟩ := ih hts
    exact ⟨_, .tight ht hcs⟩

/-- **A storable value has a text.** -/
theorem Value.Storable.exists_written {v : Value} (h : v.Storable) : ∃ cs, Written v.tokens cs :=
  exists_written_of_forall h.exists_writtenToken

end BitReaders.Json
