import BitReaders.Command.Readers
import BitReaders.Proofs.Options.Comparison

/-!
# The options of the program for readers

- `named_of_involves`: arguments use options under their names; short names belong to the option for
  the manual.
- `parse_alike_of_not_uses`: settings in a relation stay so, if every option keeps it but those that
  the arguments do not use.
- `parse_ne_help`: the manual is shown only if arguments ask for it.
- `Changed`: settings, and the same after a change; `respects_flag`, `respects_value`,
  `respects_chooseFamily`: the options that keep two settings so.
- `parse_out`, `parse_verbose`: an option in front of the other arguments.
- `familyArguments`: options that choose families, one for each name;
  `parse_familyArguments`: the other arguments are read with these chosen.
-/

namespace BitReaders.Readers

variable {s t : Settings} {argv : List String} {o : Opt Settings}

/-! ## Names -/

theorem equals_not_mem_names : ∀ e ∈ grammar.names, '=' ∉ e.1 := by
  decide

/-- The names of the option for the manual. -/
def helpNames : List String :=
  ["-h", "--help"]

/-- A short name, or one that is not introduced by two dashes, is of the option for the manual. -/
theorem names_of_short :
    ∀ e ∈ grammar.names, e.1.length = 2 ∨ e.1.take 2 ≠ ['-', '-'] → e.2.names = helpNames := by
  decide

theorem names_of_find?_short {c : Char} (h : grammar.find? ['-', c] = some o) :
    o.names = helpNames :=
  names_of_short _ (Grammar.mem_names_of_find? h) (.inl rfl)

/-- The options that words stand for are named in the words or by the names of the option for the
manual. -/
theorem named_of_involves {ws : List (Word Settings)} (h : grammar.Involves ws o) :
    (∃ name attached, .option o name attached ∈ ws) ∨ o.names = helpNames := by
  obtain ⟨named, name, attached, hw, rfl | ⟨-, c, hc⟩⟩ := h
  · exact .inl ⟨name, attached, hw⟩
  · exact .inr (names_of_find?_short hc)

/-! ## Options that are not used -/

/-- Settings in a relation stay so, if every option keeps it but those that the arguments do not
use. -/
theorem parse_alike_of_not_uses {R : Settings → Settings → Prop} {unused : String}
    (hhelp : unused ∉ helpNames) (hunused : ¬ grammar.Uses unused argv)
    (hR : ∀ o ∈ options, unused ∉ o.names → o.action.Respects (fun _ => True) R) (h : R s t) :
    Alike (fun _ => True) R (grammar.parse s argv) (grammar.parse t argv) := by
  refine Grammar.parse_alike (fun _ => trivial) (List.forall_mem_nil _) h fun ws hws o ho => ?_
  refine hR o (Grammar.mem_options_of_involves hws ho) fun hname => ?_
  rcases named_of_involves ho with ⟨name, attached, hw⟩ | hnames
  · exact hunused ⟨ws, hws, o, name, attached, hw, hname⟩
  · exact hhelp (hnames ▸ hname)

theorem names_of_action_eq_help : ∀ o ∈ options, o.action = .help → o.names = helpNames := by
  intro o ho haction
  simp only [options, List.mem_cons, List.not_mem_nil, or_false] at ho
  rcases ho with rfl | rfl | rfl | rfl | rfl | rfl | rfl | rfl | rfl
  · rfl
  all_goals cases haction

/-- The manual is shown only if arguments ask for it. -/
theorem parse_ne_help (h : ¬ grammar.Uses "--help" argv) : grammar.parse s argv ≠ .error .help := by
  have halike : Alike (· ≠ .help) Eq (grammar.parse s argv) (grammar.parse s argv) := by
    refine Grammar.parse_alike (fun _ => nofun) (List.forall_mem_nil _) rfl fun ws hws o ho => ?_
    refine Action.respects_eq fun haction => ?_
    have hnames := names_of_action_eq_help o (Grammar.mem_options_of_involves hws ho) haction
    -- The word itself names the option, or another one under a short name: the option it is.
    obtain ⟨named, name, attached, hw, rfl | ⟨hshort, -⟩⟩ := ho
    · exact (h ⟨ws, hws, o, name, attached, hw, hnames ▸ by decide⟩).elim
    · have hnamed := names_of_short _ (Grammar.mem_names_of_mem_words hws hw) (.inr hshort)
      exact (h ⟨ws, hws, named, name, attached, hw, hnamed ▸ by decide⟩).elim
  intro hparse
  rw [hparse] at halike
  cases halike with
  | error hne => exact hne rfl

/-! ## Settings that differ in one option -/

/-- Settings with a property, and the same after a change. -/
def Changed (P : Settings → Prop) (change : Settings → Settings) (s t : Settings) : Prop :=
  P s ∧ t = change s

section Changed

variable {P : Settings → Prop} {change : Settings → Settings}

theorem respects_flag {set : Settings → Settings} (hP : ∀ s, P s → P (set s))
    (hset : ∀ s, change (set s) = set (change s)) :
    (Action.flag set).Respects (fun _ => True) (Changed P change) := by
  rintro s _ ⟨hs, rfl⟩
  exact ⟨hP s hs, (hset s).symm⟩

theorem respects_value {set : Option String → Settings → Settings} (hP : ∀ v s, P s → P (set v s))
    (hset : ∀ v s, change (set v s) = set v (change s)) :
    (Action.value fun v s => .ok (set v s)).Respects (fun _ => True) (Changed P change) := by
  rintro v s _ ⟨hs, rfl⟩
  exact .ok ⟨hP v s hs, (hset v s).symm⟩

/-- The choice of a family is refused for its name, whatever the other settings are. -/
theorem respects_chooseFamily (hP : ∀ fs s, P s → P { s with families := fs })
    (hchange : ∀ (g : Option (List String) → Option (List String)) s,
      change { s with families := g s.families } =
        { change s with families := g (change s).families }) :
    (Action.value chooseFamily).Respects (fun _ => True) (Changed P change) := by
  rintro v s _ ⟨hs, rfl⟩
  cases v with
  | none => exact .ok ⟨hP _ s hs, (hchange (fun fs => some (fs.getD [])) s).symm⟩
  | some n =>
    by_cases hn : n ∈ familyChoices
    · simp only [chooseFamily, if_pos hn]
      exact .ok ⟨hP _ s hs, (hchange (fun fs => some (fs.getD [] ++ [n])) s).symm⟩
    · simp only [chooseFamily, if_neg hn]
      exact .error trivial

end Changed

/-! ## One option more -/

theorem parse_out {path : String} (hpath : path ≠ "--") (s : Settings) (argv : List String) :
    grammar.parse s (("--out=" ++ path) :: argv) = grammar.parse { s with out := path } argv := by
  have hword := Grammar.word_append_value equals_not_mem_names "--out" rfl (by decide) rfl path
  have hseparator : "--out=" ++ path ≠ "--" := by
    intro heq
    have hlength := congrArg String.length heq
    rw [String.length_append] at hlength
    exact absurd hlength (by show 6 + path.length ≠ 2; omega)
  refine Grammar.parse_cons_value hseparator hword rfl ?_ argv
  rw [String.ofList_toList, keepValue, if_neg hpath]
  rfl

theorem parse_verbose (s : Settings) (argv : List String) :
    grammar.parse s ("--verbose" :: argv) = grammar.parse { s with verbose := true } argv := by
  have hfind : grammar.find? "--verbose".toList =
      some ⟨["--verbose"], .flag fun s => { s with verbose := true }⟩ := rfl
  exact Grammar.parse_cons_flag (by decide) (Grammar.word_of_find? rfl hfind) rfl s argv

/-! ## Options for families -/

/-- The options that choose some families, one for each name. -/
def familyArguments (names : List String) : List String :=
  names.flatMap fun n => ["--family", n]

/-- The choice of families that these options make: without any, all families are printed. -/
def choiceOf (names : List String) : Option (List String) :=
  if names = [] then none else some names

/-- The settings with some more families to print. -/
def Settings.addFamilies (s : Settings) (names : List String) : Settings :=
  { s with families := some (s.families.getD [] ++ names) }

theorem parse_family {n : String} (hn : n ∈ familyChoices) (s : Settings) (argv : List String) :
    grammar.parse s ("--family" :: n :: argv) = grammar.parse (s.addFamilies [n]) argv := by
  have hfind : grammar.find? "--family".toList = some ⟨["--family"], .value chooseFamily⟩ := rfl
  have hname : n ≠ "--" ∧ grammar.word n = .ok (.operand n) := by
    rcases List.mem_pair.mp hn with rfl | rfl
    · exact ⟨by decide, rfl⟩
    · exact ⟨by decide, rfl⟩
  refine Grammar.parse_cons_next (by decide) hname.1 (Grammar.word_of_find? rfl hfind) hname.2 rfl
    ?_ argv
  rw [keepValue, if_neg hname.1]
  exact if_pos hn

/-- The other arguments are read from the settings with all the families chosen, by induction on
their names. -/
theorem parse_familyArguments_cons {n : String} {ns : List String}
    (hns : ∀ m ∈ n :: ns, m ∈ familyChoices) (s : Settings) (argv : List String) :
    grammar.parse s (familyArguments (n :: ns) ++ argv) =
      grammar.parse (s.addFamilies (n :: ns)) argv := by
  induction ns generalizing n s with
  | nil => exact parse_family (hns n List.mem_cons_self) s argv
  | cons m ns ih =>
    obtain ⟨hn, hns⟩ := List.forall_mem_cons.mp hns
    have hadd : (s.addFamilies [n]).addFamilies (m :: ns) = s.addFamilies (n :: m :: ns) := by
      rw [Settings.addFamilies, Settings.addFamilies, Settings.addFamilies, Option.getD_some,
        List.append_assoc]
      rfl
    show grammar.parse s ("--family" :: n :: (familyArguments (m :: ns) ++ argv)) = _
    rw [parse_family hn, ih hns, hadd]

/-- The other arguments are read from the settings with the choice made; without names there is
nothing to read before them. -/
theorem parse_familyArguments {ns : List String} (hns : ∀ n ∈ ns, n ∈ familyChoices)
    (argv : List String) :
    grammar.parse {} (familyArguments ns ++ argv) =
      grammar.parse { families := choiceOf ns } argv := by
  cases ns with
  | nil => rfl
  | cons n ns => exact parse_familyArguments_cons hns {} argv

end BitReaders.Readers
