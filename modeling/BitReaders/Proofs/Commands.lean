import BitReaders.Proofs.Collisions
import BitReaders.Proofs.Options.Words
import BitReaders.Proofs.Text.Lines
import BitReaders.Proofs.Variants

/-!
# Commands can be read back

Commands are written without quoting: a space ends a word, and a newline ends a command. So the
words of a command can be found in the text exactly if none of them has a space or a newline. The
requests that are built for families can then be read back whole.

- `commandWords`: the words of a text, line by line; `Unbroken`: a word without spaces and newlines.
- `commandWords_renderRequests`, `unbroken_of_commandWords_eq`: the two directions.
- `Macro.ofFlag?`, `Request.ofTokens?`, `readRequests?`: a macro from its flag, a request from its
  words, and requests from a text.
- `Request.Legible`: what reading a request back depends on; `legible_of_buildRequests_eq_ok`: the
  requests that are built have it, whatever the suffixes and directories are.
- `commandWords_renderRequests_eq_iff`: **when the words are found, and what is read back**.
-/

namespace BitReaders

/-! ## Words of commands -/

/-- The words of a text, line by line: it is cut at newlines, what is left after the last of them is
dropped, and each line is cut at single spaces. -/
def commandWords (text : String) : List (List String) :=
  ((text.toList.splitOn '\n').dropLast).map fun line => (line.splitOn ' ').map String.ofList

/-- A word without spaces and newlines. -/
def Unbroken (word : String) : Prop :=
  ' ' ∉ word.toList ∧ '\n' ∉ word.toList

instance (word : String) : Decidable (Unbroken word) :=
  inferInstanceAs (Decidable (_ ∧ _))

/-- What is found in a text has neither spaces nor newlines. -/
theorem unbroken_of_mem_commandWords {text : String} {ws : List String}
    (hws : ws ∈ commandWords text) {word : String} (hword : word ∈ ws) : Unbroken word := by
  obtain ⟨line, hline, rfl⟩ := List.mem_map.mp hws
  obtain ⟨piece, hpiece, rfl⟩ := List.mem_map.mp hword
  have hwhole := not_mem_and_subset_of_mem_splitOn (List.dropLast_subset _ hline)
  have hpart := not_mem_and_subset_of_mem_splitOn hpiece
  rw [Unbroken, String.toList_ofList]
  exact ⟨hpart.1, fun h => hwhole.1 (hpart.2 h)⟩

theorem tokens_ne_nil (e : String) (r : Request) : r.tokens e ≠ [] := by
  simp [Request.tokens]

/-- The letters of a command. -/
theorem toList_render (e : String) (r : Request) :
    (r.render e).toList = [' '].intercalate ((r.tokens e).map String.toList) :=
  String.toList_intercalate

/-- The words of a command are found in it. -/
theorem splitOn_render {e : String} {r : Request} (h : ∀ word ∈ r.tokens e, Unbroken word) :
    ((r.render e).toList.splitOn ' ').map String.ofList = r.tokens e := by
  have hpieces : ∀ piece ∈ (r.tokens e).map String.toList, ' ' ∉ piece :=
    List.forall_mem_map.mpr fun word hword => (h word hword).1
  rw [toList_render, List.splitOn_intercalate ' ' hpieces (by simp [tokens_ne_nil]), List.map_map]
  simp [Function.comp_def]

/-- A command has a newline only inside a word. -/
theorem newline_not_mem_render {e : String} {r : Request} (h : ∀ word ∈ r.tokens e, Unbroken word) :
    '\n' ∉ (r.render e).toList := by
  rw [toList_render]
  exact not_mem_intercalate (by decide) (List.forall_mem_map.mpr fun word hword => (h word hword).2)

/-- The words of all commands are found in the text, if they have neither spaces nor newlines. -/
theorem commandWords_renderRequests {e : String} {rs : List Request}
    (h : ∀ r ∈ rs, ∀ word ∈ r.tokens e, Unbroken word) :
    commandWords (renderRequests e rs) = rs.map (Request.tokens e) := by
  have htext : (renderRequests e rs).toList =
      (rs.map fun r => (r.render e).toList).flatMap (· ++ ['\n']) := by
    simp [renderRequests, String.toList_join, List.flatMap_map]
  have hlines : ∀ line ∈ rs.map fun r => (r.render e).toList, '\n' ∉ line :=
    List.forall_mem_map.mpr fun r hr => newline_not_mem_render (h r hr)
  rw [commandWords, htext, dropLast_splitOn_flatMap hlines, List.map_map]
  exact List.map_congr_left fun r hr => splitOn_render (h r hr)

/-- The words of the commands have neither spaces nor newlines, if they are found in the text. -/
theorem unbroken_of_commandWords_eq {text e : String} {rs : List Request}
    (h : commandWords text = rs.map (Request.tokens e)) {r : Request} (hr : r ∈ rs) {word : String}
    (hword : word ∈ r.tokens e) : Unbroken word :=
  unbroken_of_mem_commandWords (h ▸ List.mem_map_of_mem hr) hword

/-! ## Macros from their flags -/

/-- The macro that a flag sets: the letter after the dash, the name up to the first equals sign, and
what comes after it, if there is one. -/
def Macro.ofFlag? (flag : String) : Option Macro :=
  match flag.toList with
  | _ :: kind :: cs =>
    let (name, value) := splitValue cs
    some ⟨String.singleton kind, String.ofList name, value.map String.ofList⟩
  | _ => none

/-- A macro whose kind is one letter and whose name has no equals sign. -/
def Macro.Plain (m : Macro) : Prop :=
  (∃ c, m.kind = String.singleton c) ∧ '=' ∉ m.name.toList

/-- The flag of a plain macro says all about it: a value that is empty is not an absent one. -/
theorem Macro.ofFlag?_flag {m : Macro} (h : m.Plain) : Macro.ofFlag? m.flag = some m := by
  obtain ⟨⟨c, hkind⟩, hname⟩ := h
  obtain ⟨kind, name, value⟩ := m
  obtain rfl : kind = String.singleton c := hkind
  cases value with
  | none =>
    have hflag :
        (Macro.flag ⟨String.singleton c, name, none⟩).toList = '-' :: c :: name.toList := by
      simp [Macro.flag]
    rw [Macro.ofFlag?, hflag]
    simp [splitValue_of_not_mem hname]
  | some value =>
    have hflag : (Macro.flag ⟨String.singleton c, name, some value⟩).toList =
        '-' :: c :: (name.toList ++ '=' :: value.toList) := by
      simp [Macro.flag]
    rw [Macro.ofFlag?, hflag]
    simp [splitValue_append hname]

/-! ## Requests from their words -/

/-- The class that macros name. -/
def definedClass? (ms : List Macro) : Option String :=
  (ms.find? fun m => m.name = "CLASSNAME").bind Macro.value

/-- The request that some words are the command of: four words are before the flags and four after
them, of which the second and the last are the paths. -/
def Request.ofTokens? (words : List String) : Option Request :=
  match (words.drop (expanderFlags.length + 1)).reverse with
  | outputPath :: _ :: templatePath :: _ :: flags =>
    (flags.reverse.mapM Macro.ofFlag?).bind fun ms =>
      (definedClass? ms).map fun className => ⟨className, templatePath, outputPath, ms⟩
  | _ => none

/-- The requests whose commands a text is. -/
def readRequests? (text : String) : Option (List Request) :=
  (commandWords text).mapM Request.ofTokens?

/-- What reading a request back depends on: its macros are plain, and they name its class. -/
structure Request.Legible (r : Request) : Prop where
  plain : ∀ m ∈ r.macros, m.Plain
  definedClass : definedClass? r.macros = some r.className

/-- What is read back one by one is read back as a list. -/
theorem mapM_map_eq_some {α β : Type} {write : α → β} {read : β → Option α} {l : List α}
    (h : ∀ a ∈ l, read (write a) = some a) : (l.map write).mapM read = some l := by
  induction l with
  | nil => rfl
  | cons a l ih =>
    obtain ⟨ha, hl⟩ := List.forall_mem_cons.mp h
    rw [List.map_cons, List.mapM_cons, ha, ih hl]
    rfl

/-- A legible request is read back from its words, whatever the expander is. -/
theorem Request.ofTokens?_tokens {r : Request} (h : r.Legible) (e : String) :
    Request.ofTokens? (r.tokens e) = some r := by
  -- The macros are as many as may be: the words after them are counted from the end.
  have hbody : ((r.tokens e).drop (expanderFlags.length + 1)).reverse =
      r.outputPath :: ">" :: r.templatePath :: "-c" :: (r.macros.map Macro.flag).reverse := by
    simp [Request.tokens, expanderFlags]
  have hflags := mapM_map_eq_some fun m hm => Macro.ofFlag?_flag (h.plain m hm)
  rw [Request.ofTokens?, hbody]
  simp [hflags, h.definedClass]

/-- Legible requests are read back from their commands. -/
theorem readRequests?_renderRequests {e : String} {rs : List Request}
    (hlegible : ∀ r ∈ rs, r.Legible) (h : ∀ r ∈ rs, ∀ word ∈ r.tokens e, Unbroken word) :
    readRequests? (renderRequests e rs) = some rs := by
  rw [readRequests?, commandWords_renderRequests h]
  exact mapM_map_eq_some fun r hr => Request.ofTokens?_tokens (hlegible r hr) e

/-! ## What is built is legible -/

section Plain

variable {name : String} (h : '=' ∉ name.toList)

include h

theorem plain_present : (Macro.present name).Plain :=
  ⟨⟨'D', rfl⟩, h⟩

theorem plain_define (value : String) : (Macro.define name value).Plain :=
  ⟨⟨'D', rfl⟩, h⟩

theorem plain_assertion (value : String) : (Macro.assertion name value).Plain :=
  ⟨⟨'A', rfl⟩, h⟩

end Plain

theorem legible_generic (f : Family) (l : Layout) : (Request.generic f l).Legible := by
  refine ⟨?_, rfl⟩
  intro m hm
  rcases List.mem_pair.mp hm with rfl | rfl
  · exact plain_present (by decide)
  · exact plain_define (by decide) f.suffix

theorem legible_ofVariant (v : Variant) (l : Layout) : (Request.ofVariant v l).Legible := by
  constructor
  · intro m hm
    rcases Variant.mem_macros_iff.mp hm with ⟨-, rfl⟩ | ⟨a, rfl⟩ | rfl | ⟨-, rfl⟩
    · exact plain_present (by decide)
    · refine plain_assertion ?_ _
      cases a <;> decide
    · exact plain_define (by decide) v.className
    · exact plain_present (by decide)
  · show definedClass? v.macros = some v.className
    rw [definedClass?, Variant.macros]
    cases v.hasSkips <;> rfl

/-- The requests that are built for families are legible, whatever the suffixes and directories
are. -/
theorem legible_of_buildRequests_eq_ok {fs : List Family} {l : Layout} {rs : List Request}
    (h : buildRequests fs l = .ok rs) : ∀ r ∈ rs, r.Legible := by
  obtain ⟨-, -, rfl⟩ := buildRequests_eq_ok_iff_nodup.mp h
  intro r hr
  obtain ⟨f, -, hr⟩ := List.mem_flatMap.mp hr
  rcases mem_ownRequests hr with rfl | ⟨v, -, rfl⟩
  · exact legible_generic f l
  · exact legible_ofVariant v l

/-! ## The law -/

/-- **When the words are found, and what is read back.** The words of some commands are found in the
text if and only if none of them has a space or a newline; requests that are built for families are
then read back whole, and the text alone is needed for it. -/
theorem commandWords_renderRequests_eq_iff (e : String) (rs : List Request) :
    (commandWords (renderRequests e rs) = rs.map (Request.tokens e) ↔
      ∀ r ∈ rs, ∀ word ∈ r.tokens e, Unbroken word) ∧
    ((∀ r ∈ rs, ∀ word ∈ r.tokens e, Unbroken word) →
      ∀ fs l, buildRequests fs l = .ok rs → readRequests? (renderRequests e rs) = some rs) := by
  refine ⟨⟨?_, commandWords_renderRequests⟩, ?_⟩
  · intro h r hr word hword
    exact unbroken_of_commandWords_eq h hr hword
  · intro h fs l hbuilt
    exact readRequests?_renderRequests (legible_of_buildRequests_eq_ok hbuilt) h

/-- The requests of one family in a directory, and what they are read back as; a directory with a
space breaks its paths. -/
theorem commandWords_renderRequests_eq_iff_single :
    (∃ rs, buildRequests [Family.single] {} = .ok rs ∧
      readRequests? (renderRequests defaultExpander rs) = some rs) ∧
    ∃ rs, buildRequests [Family.single] { indexDir := "my index" } = .ok rs ∧
      commandWords (renderRequests defaultExpander rs) ≠
        rs.map (Request.tokens defaultExpander) := by
  have hown : ∀ l, (∃ rs, buildRequests [Family.single] l = .ok rs) →
      buildRequests [Family.single] l = .ok (Family.single.ownRequests l) := by
    rintro l ⟨rs, h⟩
    rw [h, (buildRequests_eq_ok_iff_nodup.mp h).2.2]
    simp
  have hbuilt := hown {} ⟨_, rfl⟩
  have hspace := hown { indexDir := "my index" } ⟨_, rfl⟩
  refine ⟨⟨_, hbuilt, ?_⟩, _, hspace, ?_⟩
  · exact (commandWords_renderRequests_eq_iff _ _).2 (by decide +kernel) _ _ hbuilt
  · rw [ne_eq, (commandWords_renderRequests_eq_iff _ _).1]
    decide +kernel

end BitReaders
