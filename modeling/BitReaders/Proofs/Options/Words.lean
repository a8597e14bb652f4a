import BitReaders.Options.Grammar
import Mathlib.Data.List.TakeDrop

/-!
# The roles of arguments

- `splitValue_of_not_mem`, `splitValue_append`: where an argument is cut.
- `Grammar.word_of_find?`, `Grammar.word_append_value`: an option under its full name, alone and
  with a value attached.
- `Grammar.mem_names_of_mem_words`: the options that arguments name are options of the program,
  under these names.
- `Grammar.Uses`: arguments use the option with a name, which they may have cut short.
-/

namespace BitReaders

/-! ## Names and values -/

section SplitValue

variable {name : List Char}

/-- The search for the first equals sign passes over a name without one. -/
theorem span_append_of_not_mem (h : '=' ∉ name) (rest : List Char) :
    (name ++ rest).span (fun c => decide (c ≠ '=')) =
      (name ++ rest.takeWhile (fun c => decide (c ≠ '=')),
        rest.dropWhile (fun c => decide (c ≠ '='))) := by
  have hall : ∀ c ∈ name, decide (c ≠ '=') = true :=
    fun c hc => decide_eq_true (ne_of_mem_of_not_mem hc h)
  rw [List.span_eq_takeWhile_dropWhile, List.takeWhile_append_of_pos hall,
    List.dropWhile_append_of_pos hall]

/-- A text without an equals sign is all name. -/
theorem splitValue_of_not_mem (h : '=' ∉ name) : splitValue name = (name, none) := by
  have hspan := span_append_of_not_mem h []
  rw [List.append_nil] at hspan
  rw [splitValue, hspan, List.takeWhile_nil, List.append_nil]
  rfl

/-- The first equals sign ends the name, whatever the value is. -/
theorem splitValue_append (h : '=' ∉ name) (value : List Char) :
    splitValue (name ++ '=' :: value) = (name, some value) := by
  rw [splitValue, span_append_of_not_mem h, List.takeWhile_cons_of_neg (by decide),
    List.dropWhile_cons_of_neg (by decide), List.append_nil]

end SplitValue

namespace Grammar

variable {σ : Type} {g : Grammar σ} {o : Opt σ}

/-! ## Options under their names -/

theorem mem_options_of_mem_names {e : List Char × Opt σ} (h : e ∈ g.names) : e.2 ∈ g.options := by
  obtain ⟨o, ho, he⟩ := List.mem_flatMap.mp h
  obtain ⟨n, -, rfl⟩ := List.mem_map.mp he
  exact ho

theorem mem_names_of_find? {name : List Char} (h : g.find? name = some o) :
    (name, o) ∈ g.names := by
  obtain ⟨⟨n, o⟩, he, rfl⟩ := Option.map_eq_some_iff.mp h
  obtain rfl : n = name := by simpa using List.find?_some he
  exact List.mem_of_find?_eq_some he

/-- A text with an equals sign is no name, if no name has one. -/
theorem find?_eq_none_of_mem {cs : List Char} (hnames : ∀ e ∈ g.names, '=' ∉ e.1)
    (h : '=' ∈ cs) : g.find? cs = none := by
  rw [find?, Option.map_eq_none_iff, List.find?_eq_none]
  rintro e he heq
  rw [beq_iff_eq] at heq
  exact hnames e he (heq ▸ h)

/-- An option under its name, with nothing attached. -/
theorem word_of_find? {a : String} (hdash : a.toList.head? = some '-')
    (h : g.find? a.toList = some o) : g.word a = .ok (.option o a.toList none) := by
  simp only [word, hdash, ne_eq, not_true_eq_false, if_false, h]

/-- An option under its name, with a value attached, whatever the value is. -/
theorem word_append_value (hnames : ∀ e ∈ g.names, '=' ∉ e.1) (name : String)
    (hdash : name.toList.head? = some '-') (hequals : '=' ∉ name.toList)
    (h : g.find? name.toList = some o) (value : String) :
    g.word (name ++ "=" ++ value) = .ok (.option o name.toList (some value.toList)) := by
  have hcs : (name ++ "=" ++ value).toList = name.toList ++ '=' :: value.toList := by
    rw [String.toList_append, String.toList_append, List.append_assoc]
    rfl
  have hhead : (name.toList ++ '=' :: value.toList).head? = some '-' := by
    rw [List.head?_append, hdash]
    rfl
  have hnone : g.find? (name.toList ++ '=' :: value.toList) = none :=
    find?_eq_none_of_mem hnames (by simp)
  have hne : name.toList ++ '=' :: value.toList ≠ ['-'] := by
    intro heq
    have hmem : '=' ∈ ['-'] := heq ▸ by simp
    exact absurd hmem (by decide)
  simp only [word, hcs, hhead, hnone, hne, ne_eq, not_true_eq_false, if_false,
    splitValue_append hequals, Option.bind_some, h]

/-! ## The options that arguments name -/

theorem mem_names_of_mem_readings {cs : List Char} {r : Opt σ × List Char × Option (List Char)}
    (h : r ∈ g.readings cs) : (r.2.1, r.1) ∈ g.names := by
  unfold readings at h
  split at h
  · obtain ⟨e, he, rfl⟩ := List.mem_map.mp h
    exact (List.mem_filter.mp he).1
  · obtain ⟨e, he, hr⟩ := List.mem_filterMap.mp h
    split at hr
    · cases hr
      exact he
    · split at hr
      · cases hr
        exact he
      · cases hr

theorem mem_names_of_word {a : String} {name : List Char} {attached : Option (List Char)}
    (h : g.word a = .ok (.option o name attached)) : (name, o) ∈ g.names := by
  unfold word at h
  simp only at h
  split at h
  · cases h
  · split at h
    · rename_i hfind
      cases h
      exact mem_names_of_find? hfind
    · split at h
      · cases h
      · split at h
        · rename_i hfind
          cases h
          obtain ⟨v, -, hfind⟩ := Option.bind_eq_some_iff.mp hfind
          exact mem_names_of_find? hfind
        · split at h
          · rename_i hreadings
            cases h
            exact mem_names_of_mem_readings (hreadings ▸ List.mem_singleton_self _)
          · split at h
            · cases h
            · cases h
          · cases h

/-- The options that arguments name are options of the program, under these names. -/
theorem mem_names_of_mem_words {argv : List String} {ws : List (Word σ)} {name : List Char}
    {attached : Option (List Char)} (h : g.words argv = .ok ws)
    (hw : .option o name attached ∈ ws) : (name, o) ∈ g.names := by
  induction argv generalizing ws with
  | nil =>
    cases h
    cases hw
  | cons a as ih =>
    rw [words] at h
    split at h
    · -- After the separator there are operands only.
      cases h
      rcases List.mem_cons.mp hw with hw | hw
      · cases hw
      · obtain ⟨b, -, hb⟩ := List.mem_map.mp hw
        cases hb
    · split at h
      · cases h
      · rename_i w hword
        cases hrest : g.words as with
        | error e =>
          rw [hrest] at h
          cases h
        | ok us =>
          rw [hrest] at h
          cases h
          rcases List.mem_cons.mp hw with rfl | hw
          · exact mem_names_of_word hword
          · exact ih hrest hw

/-- The arguments use the option with a name, which they may cut short. -/
def Uses (g : Grammar σ) (name : String) (argv : List String) : Prop :=
  ∃ ws, g.words argv = .ok ws ∧ ∃ o n attached, .option o n attached ∈ ws ∧ name ∈ o.names

/-- Arguments that name one option use no other one. -/
theorem not_uses_of_words_eq {argv : List String} {o : Opt σ} {name : List Char}
    {attached : Option (List Char)} (h : g.words argv = .ok [.option o name attached])
    {unused : String} (hunused : unused ∉ o.names) : ¬ g.Uses unused argv := by
  rintro ⟨ws, hws, o', n, text, hw, hname⟩
  rw [h] at hws
  cases hws
  obtain ⟨rfl, -, -⟩ := Word.option.inj (List.mem_singleton.mp hw)
  exact hunused hname

end Grammar

end BitReaders
