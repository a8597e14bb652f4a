import BitReaders.Proofs.Agreement
import BitReaders.Proofs.Ranks
import Mathlib.Algebra.GroupWithZero.Nat

/-!
# The numbers of a summary

The summary counts the variants of each family anew, without a look at the requests. It agrees with
them all the same.

- `Family.choiceCount`, `Family.regularCount`, `Family.payloadCount`: the numbers of a family in
  closed form, by the lengths of its axes.
- `countP_isPayload_variants`, `countP_not_isPayload_variants`: the enumeration has these numbers.
- `requestsFor`: the requests that expand the template of a family; `requestsFor_eq`: they are the
  family's own, since no two families share a template.
- `summary_agrees`: **a summary tells the numbers of the requests**, by kind and in all.
-/

namespace BitReaders

namespace Family

/-! ## Closed forms -/

/-- The number of choices of skips, frequencies and pointers. -/
def choiceCount (f : Family) : Nat :=
  f.skips.length * f.frequencies.length * f.pointers.length

/-- The number of variants that are no payload variants: for each choice one per allowed pair. -/
def regularCount (f : Family) : Nat :=
  f.choiceCount * f.rowMajorPairs.length

/-- The number of payload variants: one per choice, if there are any. -/
def payloadCount (f : Family) : Nat :=
  if f.payloads then f.choiceCount else 0

theorem countP_isPayload_variants (f : Family) :
    f.variants.countP Variant.isPayload = f.payloadCount := by
  rw [payloadCount]
  split
  · rename_i h
    rw [List.countP_eq_length_filter, filter_isPayload_variants h, List.length_map,
      List.length_product, List.length_product, choiceCount, Nat.mul_assoc]
  · rename_i h
    exact List.countP_eq_zero.mpr fun v hv hpay => h (payloads_of_isPayload hv hpay)

theorem length_variants_eq (f : Family) :
    f.variants.length = f.regularCount + f.payloadCount := by
  rw [length_variants, pairs_eq_rowMajorPairs, regularCount, payloadCount, choiceCount]
  split
  · simp only [Nat.mul_add, Nat.mul_one, Nat.mul_assoc]
  · simp only [Nat.add_zero, Nat.mul_assoc]

theorem countP_not_isPayload_variants (f : Family) :
    f.variants.countP (fun v => ¬ v.isPayload) = f.regularCount := by
  have hlength := List.length_eq_countP_add_countP Variant.isPayload (l := f.variants)
  rw [length_variants_eq, countP_isPayload_variants] at hlength
  simp only [Bool.not_eq_true] at hlength ⊢
  omega

/-- The line of a family tells its numbers. -/
theorem summaryLine_eq (f : Family) :
    f.summaryLine = "readergen: " ++ f.name ++ ": " ++ toString f.regularCount ++ " variants, " ++
      toString f.payloadCount ++ " payload variants, 1 generic" := by
  have hregular : f.variants.length - f.variants.countP Variant.isPayload = f.regularCount := by
    rw [length_variants_eq, countP_isPayload_variants, Nat.add_sub_cancel]
  unfold summaryLine
  dsimp only
  rw [hregular, countP_isPayload_variants]

end Family

/-! ## The requests of one family -/

/-- The requests that expand the template of a family. -/
def requestsFor (rs : List Request) (l : Layout) (f : Family) : List Request :=
  rs.filter fun r => r.templatePath = l.templatePath f

variable {fs : List Family} {l : Layout} {f g : Family}

theorem Layout.templatePath_eq_iff :
    l.templatePath f = l.templatePath g ↔ f.suffix = g.suffix := by
  constructor
  · intro h
    have hlist := congrArg String.toList h
    simp only [templatePath, String.toList_append] at hlist
    exact String.toList_inj.mp (List.append_cancel_left (List.append_cancel_right hlist))
  · intro h
    rw [templatePath, templatePath, h]

/-- The requests of families with another suffix expand other templates. -/
theorem requestsFor_flatMap_eq_nil (h : f.suffix ∉ fs.map Family.suffix) :
    requestsFor (fs.flatMap (Family.ownRequests l)) l f = [] := by
  refine List.filter_eq_nil_iff.mpr fun r hr htemplate => h ?_
  obtain ⟨g, hg, hr⟩ := List.mem_flatMap.mp hr
  have hpath := (templatePath_of_mem_ownRequests hr).symm.trans (of_decide_eq_true htemplate)
  exact List.mem_map.mpr ⟨g, hg, Layout.templatePath_eq_iff.mp hpath⟩

/-- No two families share a template, so that the requests for one are its own. -/
theorem requestsFor_eq (hsuffixes : (fs.map Family.suffix).Nodup) (hf : f ∈ fs) :
    requestsFor (fs.flatMap (Family.ownRequests l)) l f = f.ownRequests l := by
  obtain ⟨before, after, rfl⟩ := List.append_of_mem hf
  rw [List.map_append, List.map_cons, List.nodup_middle, List.nodup_cons, List.mem_append,
    not_or] at hsuffixes
  obtain ⟨⟨hbefore, hafter⟩, -⟩ := hsuffixes
  have hown : requestsFor (f.ownRequests l) l f = f.ownRequests l :=
    List.filter_eq_self.mpr fun r hr => decide_eq_true (templatePath_of_mem_ownRequests hr)
  have hb := requestsFor_flatMap_eq_nil (l := l) hbefore
  have ha := requestsFor_flatMap_eq_nil (l := l) hafter
  unfold requestsFor at hown hb ha ⊢
  rw [List.flatMap_append, List.flatMap_cons, List.filter_append, List.filter_append, hb, ha, hown,
    List.nil_append, List.append_nil]

/-! ## Kinds of requests -/

/-- A variant is not asked for as an unspecialised reader. -/
theorem Variant.not_isSet_generic (v : Variant) : ¬ IsSet v.macros "GENERIC" := by
  intro h
  obtain ⟨m, hm, hname⟩ := List.mem_map.mp h
  rcases mem_macros_iff.mp hm with ⟨-, rfl⟩ | ⟨a, rfl⟩ | rfl | ⟨-, rfl⟩
  · exact absurd (show "SKIPS" = "GENERIC" from hname) (by decide)
  · exact absurd (show a.name = "GENERIC" from hname) (by cases a <;> decide)
  · exact absurd (show "CLASSNAME" = "GENERIC" from hname) (by decide)
  · exact absurd (show "PAYLOADS" = "GENERIC" from hname) (by decide)

section Kinds

variable (f : Family) (l : Layout)

/-- One request is for the unspecialised reader. -/
theorem countP_generic_ownRequests :
    (f.ownRequests l).countP (fun r => IsSet r.macros "GENERIC") = 1 := by
  have hvariants : (f.variants.map (Request.ofVariant · l)).countP
      (fun r => IsSet r.macros "GENERIC") = 0 := by
    refine List.countP_eq_zero.mpr fun r hr => ?_
    obtain ⟨v, -, rfl⟩ := List.mem_map.mp hr
    exact fun h => v.not_isSet_generic (of_decide_eq_true h)
  rw [Family.ownRequests, List.countP_cons, hvariants]
  rfl

theorem countP_payloads_ownRequests :
    (f.ownRequests l).countP (fun r => IsSet r.macros "PAYLOADS") = f.payloadCount := by
  rw [Family.ownRequests, List.countP_cons, List.countP_map, ← f.countP_isPayload_variants]
  refine List.countP_congr fun v _ => ?_
  exact decide_eq_true_iff.trans v.isSet_payloads_iff

theorem countP_regular_ownRequests :
    (f.ownRequests l).countP (fun r => ¬ IsSet r.macros "GENERIC" ∧ ¬ IsSet r.macros "PAYLOADS") =
      f.regularCount := by
  rw [Family.ownRequests, List.countP_cons, List.countP_map, ← f.countP_not_isPayload_variants]
  refine List.countP_congr fun v _ => ?_
  rw [decide_eq_true_iff]
  refine decide_eq_true_iff.trans ⟨fun h hpay => h.2 (v.isSet_payloads_iff.mpr hpay), fun h => ?_⟩
  exact ⟨v.not_isSet_generic, mt v.isSet_payloads_iff.mp h⟩

theorem length_ownRequests : (f.ownRequests l).length = f.regularCount + f.payloadCount + 1 := by
  rw [Family.ownRequests, List.length_cons, List.length_map, f.length_variants_eq]

end Kinds

/-! ## The law -/

/-- **A summary tells the numbers of the requests.** It has a line per family and then the total.
The numbers of a family are in closed form; of the requests that expand its template one is for the
unspecialised reader, and the others are as many with the payload macro and without it as the line
says. The numbers of all lines, with the unspecialised readers, add up to the total. -/
theorem summary_agrees {rs : List Request} (h : buildRequests fs l = .ok rs) :
    summary fs rs =
        (fs.map fun f => "readergen: " ++ f.name ++ ": " ++ toString f.regularCount ++
          " variants, " ++ toString f.payloadCount ++ " payload variants, 1 generic") ++
          ["readergen: " ++ toString rs.length ++ " expansion requests"] ∧
      (∀ f ∈ fs,
        (requestsFor rs l f).countP (fun r => IsSet r.macros "GENERIC") = 1 ∧
        (requestsFor rs l f).countP (fun r => IsSet r.macros "PAYLOADS") = f.payloadCount ∧
        (requestsFor rs l f).countP
          (fun r => ¬ IsSet r.macros "GENERIC" ∧ ¬ IsSet r.macros "PAYLOADS") = f.regularCount) ∧
      (fs.map fun f => f.regularCount + f.payloadCount + 1).sum = rs.length := by
  obtain ⟨hnames, hpaths, rfl⟩ := buildRequests_eq_ok_iff_nodup.mp h
  have hsuffixes := ((nodup_outputPaths_iff fs l hnames).mp hpaths).1
  refine ⟨?_, fun f hf => ?_, ?_⟩
  · rw [summary, List.map_congr_left fun f _ => f.summaryLine_eq]
  · rw [requestsFor_eq hsuffixes hf]
    exact ⟨countP_generic_ownRequests f l, countP_payloads_ownRequests f l,
      countP_regular_ownRequests f l⟩
  · rw [List.length_flatMap]
    simp only [length_ownRequests]

/-- A family with skips, payloads and counts that may be absent. -/
def Family.sampler : Family :=
  { Family.single with
    name := "sampler"
    suffix := "Sampler"
    counts := [.none, .unary]
    positions := [.none, .golomb]
    skips := [true, false]
    payloads := true }

/-- Of the four pairs of counts and positions three are allowed. -/
theorem summary_agrees_sampler :
    ∃ rs, buildRequests [Family.single, .sampler] {} = .ok rs ∧
      summary [Family.single, .sampler] rs =
        ["readergen: single: 1 variants, 0 payload variants, 1 generic",
          "readergen: sampler: 6 variants, 2 payload variants, 1 generic",
          "readergen: 11 expansion requests"] := by
  obtain ⟨rs, h⟩ : ∃ rs, buildRequests [Family.single, .sampler] {} = .ok rs := ⟨_, rfl⟩
  obtain ⟨hlines, -, htotal⟩ := summary_agrees h
  refine ⟨rs, h, hlines.trans ?_⟩
  rw [← htotal]
  rfl

end BitReaders
