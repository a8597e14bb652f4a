import BitReaders.Command.Readers
import BitReaders.Proofs.Collisions

/-!
# The stages of a run

A run reads its arguments, then the override document, then makes its report, and delivers the
report last. Each stage may end the run.

- `Settings.prepare`: the report that some settings ask for, or why there is none.
- `run_eq_stop`, `run_eq_outcome`, `run_eq_deliver`: the run that ends with its arguments, that is
  in trouble, and that delivers a report; `run_cases`: there is no other.
- `Settings.material`: the requests of a report and their text; `report_eq_map`: the summary is all
  that a report has more.
- `Settings.Kept`: no text option has lost its value. Then a report is refused by a complaint only
  (`exists_complaint_of_report_eq_error`).
- `exists_prepare_eq_ok`: without an override document there is always a report.
-/

namespace BitReaders.Readers

/-- The report that the settings ask for, or why there is none. -/
def Settings.prepare (s : Settings) (v : Volume) : Except Trouble Report :=
  (s.catalogue v).bind s.report

variable {argv : List String} {s : Settings} {v : Volume}

/-! ## How a run ends -/

theorem run_eq_stop {stop : Stop} (h : grammar.parse {} argv = .error stop) :
    run argv v = manual.stop v stop := by
  rw [run, h]

theorem run_eq_outcome {t : Trouble} (h : grammar.parse {} argv = .ok s)
    (ht : s.prepare v = .error t) : run argv v = t.outcome v := by
  rw [Settings.prepare] at ht
  simp only [run, h, ht]

theorem run_eq_deliver {r : Report} (h : grammar.parse {} argv = .ok s)
    (hr : s.prepare v = .ok r) : run argv v = s.deliver r v := by
  rw [Settings.prepare] at hr
  simp only [run, h, hr]

/-- Every run ends at one of the stages. -/
theorem run_cases (argv : List String) (v : Volume) :
    (∃ stop, grammar.parse {} argv = .error stop ∧ run argv v = manual.stop v stop) ∨
      ∃ s, grammar.parse {} argv = .ok s ∧
        ((∃ t, s.prepare v = .error t ∧ run argv v = t.outcome v) ∨
          ∃ r, s.prepare v = .ok r ∧ run argv v = s.deliver r v) := by
  cases h : grammar.parse {} argv with
  | error stop => exact .inl ⟨stop, rfl, run_eq_stop h⟩
  | ok s =>
    refine .inr ⟨s, rfl, ?_⟩
    cases hr : s.prepare v with
    | error t => exact .inl ⟨t, rfl, run_eq_outcome h hr⟩
    | ok r => exact .inr ⟨r, rfl, run_eq_deliver h hr⟩

/-! ## What a report is made of -/

/-- The requests for the families of a catalogue and their text. -/
def Settings.material (s : Settings) (c : Catalogue) : Except Trouble (List Request × String) :=
  match s.layout with
  | .error a => .error (.abort a)
  | .ok l =>
    match buildRequests (s.selected c) l with
    | .error r => .error (.complaint (.repetition r))
    | .ok rs =>
      match s.text rs with
      | .error a => .error (.abort a)
      | .ok t => .ok (rs, t)

/-- A report is its material with a summary, if that is asked for. -/
theorem report_eq_map (s : Settings) (c : Catalogue) :
    s.report c = (s.material c).map fun m =>
      ⟨m.2, if s.verbose then summary (s.selected c) m.1 else []⟩ := by
  rw [Settings.report, Settings.material]
  cases s.layout with
  | error a => rfl
  | ok l =>
    dsimp only
    cases buildRequests (s.selected c) l with
    | error r => rfl
    | ok rs =>
      dsimp only
      cases s.text rs <;> rfl

/-- The requests of a report are those that are built for the layout, and the text is theirs. -/
theorem exists_layout_of_material_eq_ok {c : Catalogue} {m : List Request × String}
    (h : s.material c = .ok m) :
    ∃ l, s.layout = .ok l ∧ buildRequests (s.selected c) l = .ok m.1 ∧ s.text m.1 = .ok m.2 := by
  unfold Settings.material at h
  split at h
  · cases h
  · rename_i l hl
    split at h
    · cases h
    · rename_i rs hrs
      split at h
      · cases h
      · rename_i text htext
        cases h
        exact ⟨l, hl, hrs, htext⟩

/-! ## Options that have kept their values -/

/-- Every text option has a value. -/
structure Settings.Kept (s : Settings) : Prop where
  expander : s.expander ≠ none
  indexDir : s.indexDir ≠ none
  wiredSubdir : s.wiredSubdir ≠ none

namespace Settings.Kept

theorem exists_layout (h : s.Kept) : ∃ l, s.layout = .ok l := by
  obtain ⟨d, hd⟩ := Option.ne_none_iff_exists'.mp h.indexDir
  obtain ⟨w, hw⟩ := Option.ne_none_iff_exists'.mp h.wiredSubdir
  exact ⟨_, by rw [Settings.layout, hd, hw]⟩

theorem exists_text (h : s.Kept) (rs : List Request) : ∃ t, s.text rs = .ok t := by
  obtain ⟨e, he⟩ := Option.ne_none_iff_exists'.mp h.expander
  rw [Settings.text, he]
  split
  · exact ⟨_, rfl⟩
  · exact ⟨_, rfl⟩

end Settings.Kept

/-- With all values kept, only a repetition stands against the report. -/
theorem exists_complaint_of_report_eq_error (h : s.Kept) {c : Catalogue} {t : Trouble}
    (ht : s.report c = .error t) : ∃ r, t = .complaint (.repetition r) := by
  obtain ⟨l, hl⟩ := h.exists_layout
  simp only [Settings.report, hl] at ht
  split at ht
  · rename_i r _
    cases ht
    exact ⟨r, rfl⟩
  · rename_i rs _
    obtain ⟨text, htext⟩ := h.exists_text rs
    rw [htext] at ht
    cases ht

/-! ## Runs without a document -/

/-- The class names of a declared family are distinct. -/
theorem nodup_classNames_of_mem_defaults {f : Family} (hf : f ∈ Family.defaults) :
    (f.variants.map Variant.className).Nodup := by
  have hdistinct : ∀ f ∈ Family.defaults, f.skips.Nodup ∧ f.frequencies.Nodup ∧
      f.pointers.Nodup ∧ f.counts.Nodup ∧ f.positions.Nodup := by decide
  obtain ⟨hskips, hfrequencies, hpointers, hcounts, hpositions⟩ := hdistinct f hf
  rw [Family.nodup_map_className_iff]
  by_contra hvariants
  obtain ⟨-, hrepeats⟩ := (Family.not_nodup_variants_iff f).mp hvariants
  cases hrepeats with
  | skips _ h => exact h.not_nodup hskips
  | frequencies _ h => exact h.not_nodup hfrequencies
  | pointers _ h => exact h.not_nodup hpointers
  | counts _ _ h => exact h.not_nodup hcounts
  | positions _ _ h => exact h.not_nodup hpositions

/-- Some of the declared families are always built. -/
theorem exists_buildRequests_eq_ok {fs : List Family} (hfs : fs.Sublist Family.defaults)
    (d w : String) : ∃ rs, buildRequests fs (.ofDirectories d w) = .ok rs := by
  have hnone : (fs.findSome? fun f => firstRepeat? (f.variants.map Variant.className)) = none :=
    List.findSome?_eq_none_iff.mpr fun f hf =>
      firstRepeat?_eq_none_iff.mpr (nodup_classNames_of_mem_defaults (hfs.subset hf))
  exact ⟨_, by rw [buildRequests_eq_findSome? (hfs.map Family.suffix), hnone]⟩

theorem Settings.selected_sublist (s : Settings) :
    (s.selected .default).Sublist Family.defaults := by
  have hall : Catalogue.families .default = Family.defaults := rfl
  rw [Settings.selected]
  split
  · exact .refl _
  · exact hall ▸ List.filter_sublist.map _

/-- **There is a report**, if no option has lost its value and there is no override document. -/
theorem exists_prepare_eq_ok (h : s.Kept) (haxes : s.axes = "") (v : Volume) :
    ∃ r, s.prepare v = .ok r := by
  have hcatalogue : s.catalogue v = .ok .default := by
    rw [Settings.catalogue, Settings.axesPath?, if_pos haxes]
  obtain ⟨d, hd⟩ := Option.ne_none_iff_exists'.mp h.indexDir
  obtain ⟨w, hw⟩ := Option.ne_none_iff_exists'.mp h.wiredSubdir
  have hlayout : s.layout = .ok (.ofDirectories (dropSlashes d) (trimSlashes w)) := by
    rw [Settings.layout, hd, hw]
    rfl
  obtain ⟨rs, hrs⟩ := exists_buildRequests_eq_ok s.selected_sublist (dropSlashes d) (trimSlashes w)
  obtain ⟨text, htext⟩ := h.exists_text rs
  refine ⟨⟨text, if s.verbose then summary (s.selected .default) rs else []⟩, ?_⟩
  simp only [Settings.prepare, hcatalogue, Except.bind, Settings.report, hlayout, hrs, htext]

end BitReaders.Readers
