import BitReaders.Proofs.Commands

/-!
# What a request says more than once

A request names its class in four places: by itself, in the class list, by a macro, and in the path
of its file. The request for a variant says its choices twice, in the class name and in the macros.
All of these agree.

- `macroValue?`, `IsSet`: the value of a macro, and whether there is one, by its name.
- `spelledClass?`: the class name that the other macros of a variant spell; `spelledClass?_macros`.
- `Request.Coherent`: the class is named alike in the macros and in the path.
- `Request.Spelled`: the class name and the macros of a variant say the same.
- `toList_render_ofVariant`: the command of a variant, cut after the text that does not depend on it
  and then after each of its choices. Every piece is from a prefix code, so that the command
  determines the choices (`choices_eq_of_render_eq`), whatever the expander, the directories and the
  suffix look like.
- `requests_agree`: **all places agree**, and macros and commands tell variants apart.
-/

namespace BitReaders

/-! ## What macros tell -/

/-- The value of the first macro with a name. -/
def macroValue? (ms : List Macro) (name : String) : Option String :=
  (ms.find? fun m => m.name = name).bind Macro.value

/-- Some macro has the name. -/
def IsSet (ms : List Macro) (name : String) : Prop :=
  name ∈ ms.map Macro.name

instance (ms : List Macro) (name : String) : Decidable (IsSet ms name) :=
  inferInstanceAs (Decidable (_ ∈ _))

/-- A text in lower case with a capital first letter. -/
def capitalizedLower (t : String) : String :=
  match t.toList.map Char.toLower with
  | [] => ""
  | c :: cs => String.ofList (c.toUpper :: cs)

/-- The word for the scheme on an axis. -/
def axisWord? (ms : List Macro) (a : Axis) : Option String :=
  (macroValue? ms a.name).map capitalizedLower

/-- The class name that macros spell, for a family with a suffix. The macro for the class name
itself is not looked at. -/
def spelledClass? (ms : List Macro) (suffix : String) : Option String := do
  let frequencies ← axisWord? ms .frequencies
  let pointers ← axisWord? ms .pointers
  let ending ←
    if IsSet ms "PAYLOADS" then some "Payload"
    else do
      let counts ← axisWord? ms .counts
      let positions ← axisWord? ms .positions
      some (counts ++ positions)
  some ((if IsSet ms "SKIPS" then "Skip" else "") ++ frequencies ++ pointers ++ ending ++ suffix)

/-- The words of class names are made of the names of schemes. -/
theorem capitalizedLower_name (s : Scheme) : capitalizedLower s.name = s.capitalized := by
  cases s <;> decide +kernel

namespace Variant

theorem macroValue?_macros (v : Variant) (a : Axis) :
    macroValue? v.macros a.name = some (v.scheme a).name := by
  rw [macroValue?, macros]
  cases v.hasSkips <;> cases a <;> rfl

theorem axisWord?_macros (v : Variant) (a : Axis) :
    axisWord? v.macros a = some (v.scheme a).capitalized := by
  rw [axisWord?, macroValue?_macros, Option.map_some, capitalizedLower_name]

theorem isSet_skips_iff (v : Variant) : IsSet v.macros "SKIPS" ↔ v.hasSkips = true := by
  constructor
  · intro h
    obtain ⟨m, hm, hname⟩ := List.mem_map.mp h
    exact hasSkips_of_mem_macros hm hname
  · intro h
    exact List.mem_map.mpr ⟨_, mem_macros_iff.mpr (.inl ⟨h, rfl⟩), rfl⟩

theorem isSet_payloads_iff (v : Variant) : IsSet v.macros "PAYLOADS" ↔ v.isPayload = true := by
  constructor
  · intro h
    obtain ⟨m, hm, hname⟩ := List.mem_map.mp h
    exact isPayload_of_mem_macros hm hname
  · intro h
    exact List.mem_map.mpr ⟨_, mem_macros_iff.mpr (.inr (.inr (.inr ⟨h, rfl⟩))), rfl⟩

/-- **The macros of a variant spell its class name.** -/
theorem spelledClass?_macros (v : Variant) :
    spelledClass? v.macros v.family.suffix = some v.className := by
  simp only [spelledClass?, axisWord?_macros, isSet_skips_iff, isSet_payloads_iff, className]
  cases v.isPayload <;> rfl

end Variant

/-! ## One request -/

namespace Request

/-- One macro names the class of the request, and its file is named for it in a directory. -/
structure Coherent (directory extension : String) (r : Request) : Prop where
  defined : r.macros.filter (fun m => m.name = "CLASSNAME") = [.define "CLASSNAME" r.className]
  outputPath : r.outputPath = directory ++ r.className ++ extension

/-- The request is for a specialised reader of a family with a suffix: its class name and its macros
say the same. -/
structure Spelled (suffix : String) (r : Request) : Prop where
  skips : IsSet r.macros "SKIPS" ↔ "Skip".toList <+: r.className.toList
  className : spelledClass? r.macros suffix = some r.className
  payload : IsSet r.macros "PAYLOADS" →
    macroValue? r.macros "counts" = some "NONE" ∧ macroValue? r.macros "positions" = some "NONE"

theorem coherent_generic (f : Family) (l : Layout) :
    (Request.generic f l).Coherent (l.indexDir ++ "/") l.outputExt :=
  ⟨rfl, rfl⟩

theorem coherent_ofVariant (v : Variant) (l : Layout) :
    (Request.ofVariant v l).Coherent (l.indexDir ++ "/" ++ l.wiredSubdir ++ "/") l.outputExt := by
  refine ⟨?_, rfl⟩
  show v.macros.filter _ = [.define "CLASSNAME" v.className]
  rw [Variant.macros]
  cases v.hasSkips <;> cases v.isPayload <;> rfl

theorem spelled_ofVariant {f : Family} {v : Variant} (hv : v ∈ f.variants) (l : Layout) :
    (Request.ofVariant v l).Spelled f.suffix := by
  obtain rfl : v.family = f := Family.family_of_mem_variants hv
  refine ⟨?_, v.spelledClass?_macros, fun hpay => ?_⟩
  · show IsSet v.macros "SKIPS" ↔ "Skip".toList <+: v.className.toList
    rw [Variant.isSet_skips_iff, Variant.skip_prefix_className_iff]
  · obtain ⟨hcounts, hpositions⟩ :=
      Family.counts_positions_of_isPayload hv (v.isSet_payloads_iff.mp hpay)
    have hvalue := v.macroValue?_macros
    constructor
    · rw [← show (v.scheme .counts).name = "NONE" by rw [Variant.scheme, hcounts]; rfl]
      exact hvalue .counts
    · rw [← show (v.scheme .positions).name = "NONE" by rw [Variant.scheme, hpositions]; rfl]
      exact hvalue .positions

end Request

/-! ## The class list -/

theorem classList_append (rs rs' : List Request) :
    classList (rs ++ rs') = classList rs ++ classList rs' := by
  rw [classList, List.map_append, String.join_append]
  rfl

theorem classList_cons (r : Request) (rs : List Request) :
    classList (r :: rs) = r.className ++ "\n" ++ classList rs :=
  String.join_cons

/-- The class list has the entries of the requests before, the entry of a request, and those of the
requests after it. -/
theorem classList_eq_append (rs : List Request) (i : Fin rs.length) :
    classList rs =
      classList (rs.take i) ++ (rs[i].className ++ "\n") ++ classList (rs.drop (i + 1)) := by
  rw [String.append_assoc, ← classList_cons, ← classList_append, Fin.getElem_fin,
    List.getElem_cons_drop, List.take_append_drop]

/-! ## Two variants -/

/-- The words of class names are a prefix code as they are written. -/
theorem NameWord.text_prefixFree : PrefixFree fun u : NameWord => u.text.toList :=
  fun a b h => folded_prefixFree a b (h.map Char.toLower)

namespace Variant

/-- The choices of a variant. -/
def choices (v : Variant) : Bool × Scheme × Scheme × Scheme × Scheme × Bool :=
  (v.hasSkips, v.frequencies, v.pointers, v.counts, v.positions, v.isPayload)

/-- The flag for skips, if it is set, and the next one up to its value. -/
def skipLetters (skips : Bool) : List Char :=
  (if skips then "-DSKIPS -Afrequencies=" else "-Afrequencies=").toList

/-- The name of a scheme and the space after it. -/
def schemeLetters (s : Scheme) : List Char :=
  (s.name ++ " ").toList

theorem skipLetters_prefixFree : PrefixFree skipLetters := by
  intro a b
  cases a <;> cases b <;> decide +kernel

theorem schemeLetters_prefixFree : PrefixFree schemeLetters := by
  have h : ∀ s ∈ Scheme.all, ∀ t ∈ Scheme.all, schemeLetters s <+: schemeLetters t → s = t := by
    decide +kernel
  exact fun s t => h s (Scheme.mem_all s) t (Scheme.mem_all t)

/-- The class name up to the frequencies and pointers. -/
def nameStart (v : Variant) : String :=
  (if v.hasSkips then "Skip" else "") ++ v.frequencies.capitalized ++ v.pointers.capitalized

/-- The next word of the class name, which tells whether it is that of a payload variant. -/
def nextWord (v : Variant) : NameWord :=
  if v.isPayload then .payload else .scheme v.counts

theorem className_eq_append (v : Variant) :
    ∃ rest, v.className = v.nameStart ++ v.nextWord.text ++ rest := by
  cases hpay : v.isPayload with
  | false =>
    exact ⟨v.positions.capitalized ++ v.family.suffix, by
      simp [className, nameStart, nextWord, hpay, NameWord.text, String.append_assoc]⟩
  | true =>
    exact ⟨v.family.suffix, by
      simp [className, nameStart, nextWord, hpay, NameWord.text]⟩

theorem isPayload_eq_of_nextWord_eq {v w : Variant} (h : v.nextWord = w.nextWord) :
    v.isPayload = w.isPayload := by
  rw [nextWord, nextWord] at h
  cases hv : v.isPayload <;> cases hw : w.isPayload <;> simp_all

/-- The letters of the command of a variant, cut where a choice has been told. -/
theorem toList_render_ofVariant (v : Variant) (l : Layout) (e : String) :
    ∃ rest, ((Request.ofVariant v l).render e).toList =
      (e ++ " -E -C -P ").toList ++ (skipLetters v.hasSkips ++ (schemeLetters v.frequencies ++
        ("-Apointers=".toList ++ (schemeLetters v.pointers ++
        ("-Acounts=".toList ++ (schemeLetters v.counts ++
        ("-Apositions=".toList ++ (schemeLetters v.positions ++
        ("-DCLASSNAME=".toList ++ (v.nameStart.toList ++
        (v.nextWord.text.toList ++ rest))))))))))) := by
  obtain ⟨rest, hname⟩ := v.className_eq_append
  refine ⟨(rest ++ (if v.isPayload then " -DPAYLOADS" else "") ++ " -c " ++
    l.templatePath v.family ++ " > " ++ l.variantOutputPath v.className).toList, ?_⟩
  have hclass : v.className.toList =
      v.nameStart.toList ++ (v.nextWord.text.toList ++ rest.toList) := by
    rw [hname, String.toList_append, String.toList_append, List.append_assoc]
  rw [toList_render]
  cases hs : v.hasSkips <;> cases hp : v.isPayload <;>
    simp [Request.tokens, Request.ofVariant, expanderFlags, macros, hs, hp, Axis.all, Axis.name,
      scheme, Macro.flag, Macro.present, Macro.define, Macro.assertion, skipLetters, schemeLetters,
      List.intercalate_cons_cons, hclass]

/-- **The command of a variant determines its choices**, one after the other from the left. -/
theorem choices_eq_of_render_eq {v w : Variant} {l : Layout} {e : String}
    (h : (Request.ofVariant v l).render e = (Request.ofVariant w l).render e) :
    v.choices = w.choices := by
  obtain ⟨restV, hv⟩ := v.toList_render_ofVariant l e
  obtain ⟨restW, hw⟩ := w.toList_render_ofVariant l e
  have hlist := congrArg String.toList h
  rw [hv, hw] at hlist
  obtain ⟨hskips, hlist⟩ :=
    skipLetters_prefixFree.head_unique (List.append_cancel_left hlist)
  obtain ⟨hfrequencies, hlist⟩ := schemeLetters_prefixFree.head_unique hlist
  obtain ⟨hpointers, hlist⟩ :=
    schemeLetters_prefixFree.head_unique (List.append_cancel_left hlist)
  obtain ⟨hcounts, hlist⟩ :=
    schemeLetters_prefixFree.head_unique (List.append_cancel_left hlist)
  obtain ⟨hpositions, hlist⟩ :=
    schemeLetters_prefixFree.head_unique (List.append_cancel_left hlist)
  -- The class names start alike by now, and tell next whether they are those of payload variants.
  have hstart : v.nameStart = w.nameStart := by
    rw [nameStart, nameStart, hskips, hfrequencies, hpointers]
  have hlist := List.append_cancel_left hlist
  rw [hstart] at hlist
  obtain ⟨hword, -⟩ := NameWord.text_prefixFree.head_unique (List.append_cancel_left hlist)
  rw [choices, choices, hskips, hfrequencies, hpointers, hcounts, hpositions,
    isPayload_eq_of_nextWord_eq hword]

variable {v w : Variant}

/-- Equal choices give equal macros. -/
theorem macros_eq_of_choices_eq (hsuffix : v.family.suffix = w.family.suffix)
    (h : v.choices = w.choices) : v.macros = w.macros := by
  simp only [choices, Prod.mk.injEq] at h
  obtain ⟨hskips, hfrequencies, hpointers, hcounts, hpositions, hpay⟩ := h
  have hscheme : v.scheme = w.scheme := by
    funext a
    cases a <;> assumption
  have hname : v.className = w.className := by
    rw [className, className, hskips, hfrequencies, hpointers, hcounts, hpositions, hpay, hsuffix]
  rw [macros, macros, hskips, hscheme, hname, hpay]

/-- Equal macros give equal requests: they name the class. -/
theorem ofVariant_eq_of_macros_eq (hsuffix : v.family.suffix = w.family.suffix)
    (h : v.macros = w.macros) (l : Layout) : Request.ofVariant v l = .ofVariant w l := by
  have hv := (legible_ofVariant v l).definedClass
  have hw := (legible_ofVariant w l).definedClass
  have hname : v.className = w.className :=
    Option.some.inj ((hv.symm.trans (congrArg definedClass? h)).trans hw)
  rw [Request.ofVariant, Request.ofVariant, h, hname, Layout.templatePath, Layout.templatePath,
    hsuffix]

end Variant

/-! ## The law -/

/-- **All places agree.** In the requests that are built for some families, each class is named
alike by the request, by its entry in the class list, by its one macro for it, and by its path. For
a variant, the macros spell the class name, and a payload variant has neither counts nor positions.
Two variants of families with one suffix have the same macros, or the same command, just if they
make the same choices, whatever the texts around them are. -/
theorem requests_agree (fs : List Family) (l : Layout) :
    (∀ rs, buildRequests fs l = .ok rs → ∀ i : Fin rs.length,
      classList rs =
          classList (rs.take i) ++ (rs[i].className ++ "\n") ++ classList (rs.drop (i + 1)) ∧
        ((∃ f ∈ fs, rs[i] = .generic f l ∧ rs[i].Coherent (l.indexDir ++ "/") l.outputExt) ∨
          ∃ f ∈ fs, ∃ v ∈ f.variants, rs[i] = .ofVariant v l ∧
            rs[i].Coherent (l.indexDir ++ "/" ++ l.wiredSubdir ++ "/") l.outputExt ∧
            rs[i].Spelled f.suffix)) ∧
    ∀ (e : String) (v w : Variant), v.family.suffix = w.family.suffix →
      (v.macros = w.macros ↔ v.choices = w.choices) ∧
      ((Request.ofVariant v l).render e = (Request.ofVariant w l).render e ↔
        v.choices = w.choices) := by
  constructor
  · intro rs hbuilt i
    obtain ⟨-, -, rfl⟩ := buildRequests_eq_ok_iff_nodup.mp hbuilt
    refine ⟨classList_eq_append _ i, ?_⟩
    obtain ⟨f, hf, hr⟩ := List.mem_flatMap.mp (List.getElem_mem i.isLt)
    rcases mem_ownRequests hr with heq | ⟨v, hv, heq⟩
    · exact .inl ⟨f, hf, heq, heq ▸ Request.coherent_generic f l⟩
    · exact .inr ⟨f, hf, v, hv, heq, heq ▸ Request.coherent_ofVariant v l,
        heq ▸ Request.spelled_ofVariant hv l⟩
  · intro e v w hsuffix
    -- Equal choices, equal macros, equal requests, equal commands, and equal choices again.
    have hcommand : v.macros = w.macros →
        (Request.ofVariant v l).render e = (Request.ofVariant w l).render e := by
      intro h
      rw [Variant.ofVariant_eq_of_macros_eq hsuffix h l]
    have hmacros := Variant.macros_eq_of_choices_eq hsuffix
    have hchoices := Variant.choices_eq_of_render_eq (v := v) (w := w) (l := l) (e := e)
    exact ⟨⟨fun h => hchoices (hcommand h), hmacros⟩, ⟨hchoices, fun h => hcommand (hmacros h)⟩⟩

/-- The requests for one family, and two variants that differ in skips, with an expander that looks
like the flag for them. -/
theorem requests_agree_single :
    (∃ rs, buildRequests [Family.single] {} = .ok rs ∧ ∃ i : Fin rs.length,
      classList rs =
        classList (rs.take i) ++ (rs[i].className ++ "\n") ++ classList (rs.drop (i + 1))) ∧
    (Request.ofVariant ⟨.single, true, .gamma, .delta, .unary, .golomb, false⟩ {}).render
        "gcc -DSKIPS" ≠
      (Request.ofVariant ⟨.single, false, .gamma, .delta, .unary, .golomb, false⟩ {}).render
        "gcc -DSKIPS" := by
  constructor
  · exact ⟨_, rfl, ⟨1, by decide⟩, ((requests_agree [Family.single] {}).1 _ rfl _).1⟩
  · have hlaw := (requests_agree [] {}).2 "gcc -DSKIPS"
      ⟨.single, true, .gamma, .delta, .unary, .golomb, false⟩
      ⟨.single, false, .gamma, .delta, .unary, .golomb, false⟩ rfl
    exact fun h => absurd (hlaw.2.mp h) (by decide)

end BitReaders
