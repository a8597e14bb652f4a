import BitReaders.Command.Bits
import BitReaders.Proofs.Options.Comparison
import BitReaders.Proofs.Printing

/-!
# What the command line for decision trees accepts

An operand is accepted just if it spells a natural number. A run whose operands are all accepted
prints the listing, and every other run prints nothing on standard output and ends with status 2,
unless it was asked for help.

- `Grammar.words_eq_map_operand`, `Grammar.scan_map_operand`: arguments that start with no dash are
  operands, in one run.
- `fill_operand`: the next pending operand takes the next argument.
- `Bits.natural_eq_ok_iff`: the operands that are accepted.
- `Bits.parse_operands`: one operand or two, read in order. `Bits.parse_eq_ok`,
  `Bits.exists_parse_eq_error`: they are all accepted, or it is a usage error.
- `Bits.fits_of_parse`: what is read can be printed, so that no listing fails for its digits.
- `Bits.run_operands`: **all or nothing**, for every list of arguments and every volume.
-/

namespace BitReaders

/-! ## Arguments that are all operands -/

section Operands

variable {σ : Type} {g : Grammar σ} {as : List String}

/-- The text starts with no dash. -/
def Undashed (a : String) : Prop :=
  a.toList.head? ≠ some '-'

theorem Undashed.ne_separator {a : String} (h : Undashed a) : a ≠ "--" := by
  rintro rfl
  exact h rfl

theorem Grammar.words_eq_map_operand (h : ∀ a ∈ as, Undashed a) :
    g.words as = .ok (as.map .operand) := by
  induction as with
  | nil => rfl
  | cons a as ih =>
    obtain ⟨ha, has⟩ := List.forall_mem_cons.mp h
    have hword : g.word a = .ok (.operand a) := if_pos ha
    rw [Grammar.words_cons ha.ne_separator hword, ih has]
    rfl

theorem Grammar.scan_map_operand (ps : List Plain) (p : Progress σ) :
    g.scan ps p (as.map .operand) = p.run (ps ++ as.map .operand) := by
  induction as generalizing ps with
  | nil =>
    rw [List.map_nil, List.map_nil, List.append_nil]
    rfl
  | cons a as ih =>
    rw [List.map_cons, Grammar.scan, ih, List.append_assoc, List.map_cons, List.singleton_append]

/-- The next pending operand takes the next argument. -/
theorem fill_operand {a : String} (ha : Undashed a) (o : Operand σ) (os : List (Operand σ))
    (s : σ) :
    fill (o :: os) ((a :: as).map .operand) s =
      (o.give (some a) s).bind fun t => fill os (as.map .operand) t := by
  have hrest : (as.map Plain.operand).dropWhile Plain.isSeparator = as.map .operand := by
    cases as <;> rfl
  have hdrop : ((a :: as).map Plain.operand).dropWhile Plain.isSeparator =
      .operand a :: as.map .operand := rfl
  have hhead : ((a :: as).map Plain.operand).head? ≠ some .separator := nofun
  have hkeep : keepValue a = some a := if_neg ha.ne_separator
  rw [fill, hdrop]
  dsimp only
  rw [if_neg hhead, hkeep, hrest]
  cases o.give (some a) s <;> rfl

/-- Arguments that are all operands are given to the pending ones together. -/
theorem Grammar.parse_eq_fill (h : ∀ a ∈ as, Undashed a) (hne : as ≠ []) (s : σ) :
    g.parse s as = (fill g.operands (as.map .operand) s).bind fun r =>
      finish ⟨r.1, r.2.1, r.2.2.map Plain.argument⟩ := by
  have hrun : Progress.run ⟨s, g.operands, []⟩ (as.map .operand) =
      (fill g.operands (as.map .operand) s).map fun r =>
        ⟨r.1, r.2.1, r.2.2.map Plain.argument⟩ := by
    rw [Progress.run, List.isEmpty_map, if_neg (by rwa [List.isEmpty_iff])]
    dsimp only
    cases fill g.operands (as.map .operand) s <;> rfl
  rw [Grammar.parse_eq_bind, Grammar.words_eq_map_operand h]
  show Except.bind (g.scan [] ⟨s, g.operands, []⟩ (as.map .operand)) finish = _
  rw [Grammar.scan_map_operand, List.nil_append, hrun]
  cases fill g.operands (as.map .operand) s <;> rfl

end Operands

namespace Bits

/-! ## Operands of the program -/

/-- **The operands that are accepted** are those that spell a natural number. -/
theorem natural_eq_ok_iff {t : Text} (h : ∀ c ∈ t, ¬ Numeral.IsSeparator c) {k : Int} :
    natural t = .ok k ↔ ∃ n : Nat, Numeral.Spells t n ∧ k = n := by
  unfold natural
  split
  · rename_i hread
    refine ⟨nofun, ?_⟩
    rintro ⟨n, hn, -⟩
    cases hread.symm.trans ((Numeral.read?_eq_natCast_iff h).mpr hn)
  · rename_i i hread
    split
    · rename_i hneg
      refine ⟨nofun, ?_⟩
      rintro ⟨n, hn, -⟩
      cases hread.symm.trans ((Numeral.read?_eq_natCast_iff h).mpr hn)
      exact absurd (Int.natCast_nonneg n) (Int.not_le.mpr hneg)
    · rename_i hnonneg
      obtain ⟨n, rfl⟩ := Int.eq_ofNat_of_zero_le (Int.not_lt.mp hnonneg)
      rw [Except.ok.injEq]
      constructor
      · rintro rfl
        exact ⟨n, (Numeral.read?_eq_natCast_iff h).mp hread, rfl⟩
      · rintro ⟨m, hm, rfl⟩
        have hreadm := (Numeral.read?_eq_natCast_iff h).mpr hm
        exact Option.some.inj (hread.symm.trans hreadm)

/-- What an operand with a label is read as. -/
def accepted (label a : String) : Except Stop Int :=
  (natural (.ofString a)).mapError fun cause => .usage (.refused label cause)

theorem give_eq (label : String) (required : Bool) (set : Int → Settings → Settings) (a : String)
    (s : Settings) :
    Operand.give ⟨label, required, fun v s => (natural (.ofString v)).map fun n => set n s⟩
      (some a) s = (accepted label a).map fun n => set n s := by
  rw [Operand.give, accepted]
  dsimp only
  cases natural (.ofString a) <;> rfl

/-- What the second operand is read as. Its absence asks for no indentation. -/
def acceptedTabs : Option String → Except Stop Int
  | none => .ok 0
  | some b => accepted "tabs" b

variable {a : String} {b : Option String}

/-- One operand or two are read in order. -/
theorem parse_operands (ha : Undashed a) (hb : ∀ x ∈ b, Undashed x) :
    grammar.parse {} (a :: b.toList) =
      (accepted "bits" a).bind fun n => (acceptedTabs b).map fun k => ⟨n, k⟩ := by
  have hall : ∀ x ∈ a :: b.toList, Undashed x :=
    List.forall_mem_cons.mpr ⟨ha, fun x hx => hb x (Option.mem_toList.mp hx)⟩
  rw [Grammar.parse_eq_fill hall (List.cons_ne_nil _ _)]
  show Except.bind (fill operands _ _) _ = _
  rw [operands, fill_operand ha, give_eq "bits" true fun n s => { s with bits := n }]
  -- The second operand is looked at only if the first is accepted.
  cases accepted "bits" a with
  | error stop => rfl
  | ok n =>
    cases b with
    | none => rfl
    | some b =>
      show Except.bind (fill _ ([b].map .operand) _) _ = _
      rw [fill_operand (hb b rfl), give_eq "tabs" false fun n s => { s with tabs := n }]
      show _ = Except.map _ (accepted "tabs" b)
      cases accepted "tabs" b <;> rfl

/-! ## What is accepted -/

/-- An operand that starts with no dash and has no separators. -/
structure Regular (a : String) : Prop where
  undashed : Undashed a
  noSeparators : ∀ c ∈ Text.ofString a, ¬ Numeral.IsSeparator c

theorem Regular.accepted_eq_ok_iff (h : Regular a) (label : String) {k : Int} :
    accepted label a = .ok k ↔ ∃ n : Nat, Numeral.Spells (.ofString a) n ∧ k = n := by
  rw [← natural_eq_ok_iff h.noSeparators, accepted]
  cases natural (.ofString a) with
  | error cause => exact ⟨nofun, nofun⟩
  | ok n => simp only [Except.mapError, Except.ok.injEq]

/-- An operand that is refused is a usage error. -/
theorem exists_usage_of_accepted_eq_error {label : String} {stop : Stop}
    (h : accepted label a = .error stop) : ∃ e, stop = .usage e := by
  rw [accepted] at h
  cases hnatural : natural (.ofString a) with
  | error cause =>
    rw [hnatural] at h
    cases h
    exact ⟨_, rfl⟩
  | ok n =>
    rw [hnatural] at h
    cases h

/-- The indentation that is spelled: none if the second operand is absent. -/
def SpellsTabs : Option String → Nat → Prop
  | none, k => k = 0
  | some b, k => Numeral.Spells (.ofString b) k

theorem parse_eq_ok (ha : Regular a) (hb : ∀ x ∈ b, Regular x) {n k : Nat}
    (hn : Numeral.Spells (.ofString a) n) (hk : SpellsTabs b k) :
    grammar.parse {} (a :: b.toList) = .ok ⟨n, k⟩ := by
  have htabs : acceptedTabs b = .ok (k : Int) := by
    cases b with
    | none =>
      obtain rfl : k = 0 := hk
      rfl
    | some b => exact ((hb b rfl).accepted_eq_ok_iff "tabs").mpr ⟨k, hk, rfl⟩
  rw [parse_operands ha.undashed fun x hx => (hb x hx).undashed,
    (ha.accepted_eq_ok_iff "bits").mpr ⟨n, hn, rfl⟩, htabs]
  rfl

theorem exists_parse_eq_error (ha : Regular a) (hb : ∀ x ∈ b, Regular x)
    (h : ∃ x ∈ a :: b.toList, ∀ n, ¬ Numeral.Spells (.ofString x) n) :
    ∃ e, grammar.parse {} (a :: b.toList) = .error (.usage e) := by
  obtain ⟨x, hx, hspells⟩ := h
  have hrefused : ∀ {label : String} {k : Int}, Regular x → accepted label x ≠ .ok k := by
    intro label k hregular hk
    obtain ⟨n, hn, -⟩ := (hregular.accepted_eq_ok_iff label).mp hk
    exact hspells n hn
  rw [parse_operands ha.undashed fun x hx => (hb x hx).undashed]
  cases hbits : accepted "bits" a with
  | error stop =>
    obtain ⟨e, rfl⟩ := exists_usage_of_accepted_eq_error hbits
    exact ⟨e, rfl⟩
  | ok n =>
    -- The first operand is accepted, so the second is there and is refused.
    rcases List.mem_cons.mp hx with rfl | hx
    · exact absurd hbits (hrefused ha)
    · obtain rfl := Option.mem_toList.mp hx
      have hx := hb x rfl
      cases htabs : accepted "tabs" x with
      | error stop =>
        obtain ⟨e, rfl⟩ := exists_usage_of_accepted_eq_error htabs
        refine ⟨e, ?_⟩
        show Except.map _ (accepted "tabs" x) = _
        rw [htabs]
        rfl
      | ok k => exact absurd htabs (hrefused hx)

/-! ## What is read can be printed -/

/-- Neither number has too many digits to be printed. -/
structure Settings.Fits (s : Settings) : Prop where
  bits : Numeral.Fits s.bits
  tabs : Numeral.Fits s.tabs

theorem fits_of_natural {t : Text} {n : Int} (h : natural t = .ok n) : Numeral.Fits n := by
  unfold natural at h
  split at h
  · cases h
  · rename_i i hread
    split at h
    · cases h
    · cases h
      exact Numeral.fits_of_read?_eq hread

/-- An operand that puts its number into the settings keeps them so. -/
theorem respects_operand (label : String) (required : Bool) {set : Int → Settings → Settings}
    (hset : ∀ n s, Numeral.Fits n → s.Fits → (set n s).Fits) :
    Operand.Respects (Unchanged Settings.Fits)
      ⟨label, required, fun v s => (natural (.ofString v)).map fun n => set n s⟩ := by
  rintro v _ s ⟨hs, rfl⟩
  dsimp only
  cases hn : natural (.ofString v) with
  | error cause => exact .error trivial
  | ok n => exact .ok ⟨hset n s (fits_of_natural hn) hs, rfl⟩

theorem respects_operands : ∀ o ∈ operands, o.Respects (Unchanged Settings.Fits) := by
  rw [operands, List.forall_mem_cons, List.forall_mem_singleton]
  exact ⟨respects_operand "bits" true fun n s hn hs => ⟨hn, hs.tabs⟩,
    respects_operand "tabs" false fun n s hn hs => ⟨hs.bits, hn⟩⟩

/-- What is read from arguments can be printed. -/
theorem fits_of_parse {argv : List String} {s : Settings} (h : grammar.parse {} argv = .ok s) :
    s.Fits := by
  have hoptions : ∀ o ∈ options,
      o.action.Respects (fun _ => True) (Unchanged Settings.Fits) := by
    rw [options, List.forall_mem_singleton]
    exact trivial
  have hnone : Settings.Fits {} := ⟨by decide, by decide⟩
  exact Grammar.of_parse respects_operands hnone
    (fun ws hws o ho => hoptions o (Grammar.mem_options_of_involves hws ho)) h

/-! ## Runs -/

/-- Every run ends well, or with status 2 and without a listing. -/
theorem run_ending (argv : List String) (v : Volume) :
    (run argv v).ending = .exit 0 ∨ (run argv v).ending = .exit 2 ∧ (run argv v).stdout = "" := by
  unfold run
  split
  · rename_i stop _
    cases stop with
    | help => exact .inl rfl
    | usage e => exact .inr ⟨rfl, rfl⟩
  · rename_i s hparse
    split
    · exact .inl rfl
    · rename_i e hgenerate
      have hfits := fits_of_parse hparse
      rw [if_pos (DecisionTree.isRefusal_of_generate_eq_error hfits.bits hfits.tabs hgenerate)]
      exact .inr ⟨rfl, rfl⟩

/-- **All or nothing.** An operand is accepted just if it spells a natural number. If one or two
operands are all accepted, the listing is printed; else nothing is, and the status is 2. So is it of
every run that does not end well. -/
theorem run_operands :
    (∀ t : Text, (∀ c ∈ t, ¬ Numeral.IsSeparator c) → ∀ k : Int,
      natural t = .ok k ↔ ∃ n : Nat, Numeral.Spells t n ∧ k = n) ∧
    (∀ (a : String) (b : Option String) (v : Volume), Regular a → (∀ x ∈ b, Regular x) →
      (∀ n k : Nat, Numeral.Spells (.ofString a) n → SpellsTabs b k →
        ∃ text, DecisionTree.generate n k = .ok text ∧
          run (a :: b.toList) v = ⟨.exit 0, text, "", v⟩) ∧
      ((∃ x ∈ a :: b.toList, ∀ n, ¬ Numeral.Spells (.ofString x) n) →
        (run (a :: b.toList) v).ending = .exit 2 ∧ (run (a :: b.toList) v).stdout = "")) ∧
    ∀ (argv : List String) (v : Volume), (run argv v).ending = .exit 0 ∨
      (run argv v).ending = .exit 2 ∧ (run argv v).stdout = "" := by
  refine ⟨fun t ht k => natural_eq_ok_iff ht, fun a b v ha hb => ⟨?_, ?_⟩, run_ending⟩
  · intro n k hn hk
    have hlisting : DecisionTree.generate n k = .ok _ :=
      DecisionTree.generate_eq_ok_iff.mpr ⟨hn.fits, rfl⟩
    refine ⟨_, hlisting, ?_⟩
    rw [run, parse_eq_ok ha hb hn hk]
    dsimp only
    rw [hlisting]
  · intro h
    obtain ⟨e, he⟩ := exists_parse_eq_error ha hb h
    rw [run, he]
    exact ⟨rfl, rfl⟩

theorem regular_of_all {a : String} (h : (a.toList.head? != some '-' &&
    (Text.ofString a).all fun c => !decide (0x1C ≤ c.val ∧ c.val ≤ 0x1F)) = true) : Regular a := by
  rw [Bool.and_eq_true, bne_iff_ne] at h
  refine ⟨h.1, fun c hc hseparator => ?_⟩
  have hall := List.all_eq_true.mp h.2 c hc
  rw [Bool.not_eq_true', decide_eq_false_iff_not] at hall
  exact hall hseparator

/-- A plus sign and an underscore are accepted, and a minus sign before a zero between blanks. Two
underscores in a row are not. -/
theorem run_operands_signs :
    (∃ text, DecisionTree.generate 4 0 = .ok text ∧
      run ["+0_4", " -0\n"] ⟨[], []⟩ = ⟨.exit 0, text, "", ⟨[], []⟩⟩) ∧
    (run ["1__0"] ⟨[], []⟩).ending = .exit 2 := by
  have hfour : Numeral.Spells (.ofString "+0_4") 4 :=
    ⟨⟨[], .plus, ['0', '_', '4'], [0, 4], [], nofun, nofun, .underscore rfl (.last rfl),
      by decide⟩, rfl, nofun, rfl⟩
  have hzero : Numeral.Spells (.ofString " -0\n") 0 :=
    ⟨⟨[.scalar ' '], .minus, ['0'], [0], [.scalar '\n'],
      List.forall_mem_singleton.mpr rfl, List.forall_mem_singleton.mpr rfl, .last rfl, by decide⟩,
      rfl, fun _ => List.forall_mem_singleton.mpr rfl, rfl⟩
  have htwo : Regular "1__0" := regular_of_all (by decide)
  have hnone : ∀ n, ¬ Numeral.Spells (.ofString "1__0") n := by
    intro n hn
    cases (Numeral.read?_eq_natCast_iff htwo.noSeparators).mpr hn
  refine ⟨?_, ?_⟩
  · exact (run_operands.2.1 "+0_4" (some " -0\n") ⟨[], []⟩ (regular_of_all (by decide))
      (by rintro x ⟨⟩; exact regular_of_all (by decide))).1 4 0 hfour hzero
  · exact ((run_operands.2.1 "1__0" none ⟨[], []⟩ htwo nofun).2
      ⟨_, List.mem_cons_self, hnone⟩).1

end Bits

end BitReaders
