import BitReaders.Proofs.Runs.Channels

/-!
# Runs for some of the families

The options that choose families act as a set: it makes no difference in which order the names are
given and how often. The families are shown in the order in which they are declared.

- `picks`: whether a choice has a name. A run sees no more of its choice
  (`Settings.selected_eq`), and only for the names of declared families: these are the keys of every
  catalogue that a run can have (`reachable_of_catalogue`, `mem_names_of_reachable`).
- `Reselected`: settings with one choice of families, and the same with another; no other option
  tells them apart (`respects_reselected`).
- `run_eq_of_alike`: runs that make the same report and deliver it alike are the same.
- `Shows`: what a run shows, told from its settings, its catalogue and its layout; `exists_shows`: a
  run that succeeds shows it; `Shows.map_brand_eq`: which families these are, and in which order.
- `run_families`: **the options for families act as a set**, and what they do.
-/

namespace BitReaders

namespace Catalogue

/-- Some of the default catalogue are some of the declared families. -/
theorem families_filter_default (p : String → Bool) :
    families (Catalogue.default.filter fun e => p e.1) =
      Family.defaults.filter fun f => p f.name := by
  rw [families, Catalogue.default, List.filter_map, List.map_map]
  exact List.map_id _

/-- The families of a catalogue that documents lead to are the declared ones, in their order, also
if only some of them are taken. -/
theorem Reachable.map_brand_eq {c : Catalogue} (h : c.Reachable) (p : String → Bool) :
    (families (c.filter fun e => p e.1)).map Family.brand =
      (Family.defaults.filter fun f => p f.name).map Family.brand := by
  have hkeyed : ∀ c : Catalogue, (families (c.filter fun e => p e.1)).map Family.brand =
      (c.brands.filter fun b => p b.1).map (·.2) := by
    intro c
    rw [families, brands, List.filter_map, List.map_map, List.map_map]
    rfl
  rw [hkeyed, h.brands_eq, ← hkeyed, families_filter_default]

end Catalogue

namespace Readers

variable {s t : Settings} {v : Volume} {argv argv' rest : List String} {c : Catalogue}
  {fs gs : Option (List String)}

/-! ## Choices -/

/-- A choice of families has the name. Without a choice, all names are in. -/
def picks (choice : Option (List String)) (name : String) : Bool :=
  match choice with
  | none => true
  | some names => names.contains name

theorem Settings.selected_eq (s : Settings) (c : Catalogue) :
    s.selected c = Catalogue.families (c.filter fun e => picks s.families e.1) := by
  rw [Settings.selected]
  cases s.families with
  | none => exact congrArg _ (List.filter_eq_self.mpr fun _ _ => rfl).symm
  | some names => rfl

theorem picks_choiceOf_eq_true_iff {ns : List String} {n : String} :
    picks (choiceOf ns) n = true ↔ ns = [] ∨ n ∈ ns := by
  by_cases hns : ns = []
  · simp [choiceOf, picks, hns]
  · simp [choiceOf, picks, hns]

theorem picks_choiceOf_congr {ms ns : List String} (h : ∀ n, n ∈ ms ↔ n ∈ ns) (n : String) :
    picks (choiceOf ms) n = picks (choiceOf ns) n := by
  have hnil : ms = [] ↔ ns = [] := by
    rw [List.eq_nil_iff_forall_not_mem, List.eq_nil_iff_forall_not_mem]
    exact forall_congr' fun m => not_congr (h m)
  rw [Bool.eq_iff_iff, picks_choiceOf_eq_true_iff, picks_choiceOf_eq_true_iff, hnil, h n]

/-- The catalogue of a run is one that documents lead to. -/
theorem reachable_of_catalogue (h : s.catalogue v = .ok c) : c.Reachable := by
  unfold Settings.catalogue at h
  split at h
  · cases h
    exact .default
  · unfold overridden at h
    split at h
    · cases h
    · split at h
      · rename_i hc
        cases h
        exact .override .default hc
      · cases h

/-- The names that may be chosen are those of the declared families. -/
theorem mem_familyChoices_iff {n : String} :
    n ∈ familyChoices ↔ n ∈ Family.defaults.map Family.name := by
  show n ∈ ["high-performance", "standard"] ↔ n ∈ ["standard", "high-performance"]
  rw [List.mem_pair, List.mem_pair, or_comm]

/-- The keys of a catalogue that documents lead to are the names of the declared families. -/
theorem mem_names_of_reachable (h : c.Reachable) {e : String × Family} (he : e ∈ c) :
    e.1 ∈ Family.defaults.map Family.name := by
  have hmem : e.1 ∈ c.map (·.1) := List.mem_map_of_mem he
  rw [Catalogue.map_fst_eq_of_brands_eq h.brands_eq, Catalogue.default, List.map_map] at hmem
  exact hmem

/-! ## Two choices -/

/-- Settings with one choice of families, and the same with another. -/
def Reselected (fs gs : Option (List String)) : Settings → Settings → Prop :=
  Changed (·.families = fs) fun s => { s with families := gs }

/-- No option but its own tells which families are chosen. -/
theorem respects_reselected (fs gs : Option (List String)) :
    ∀ o ∈ options, "--family" ∉ o.names →
      o.action.Respects (fun _ => True) (Reselected fs gs) := by
  intro o ho hname
  simp only [options, List.mem_cons, List.not_mem_nil, or_false] at ho
  rcases ho with rfl | rfl | rfl | rfl | rfl | rfl | rfl | rfl | rfl
  · trivial
  · exact respects_value (fun _ _ => id) fun _ _ => rfl
  · exact respects_value (fun _ _ => id) fun _ _ => rfl
  · exact respects_value (fun _ _ => id) fun _ _ => rfl
  · exact absurd (by decide) hname
  · exact respects_value (fun _ _ => id) fun _ _ => rfl
  · exact respects_flag (fun _ => id) fun _ => rfl
  · exact respects_value (fun _ _ => id) fun _ _ => rfl
  · exact respects_flag (fun _ => id) fun _ => rfl

/-- The other arguments are read alike with both choices. -/
theorem parse_reselected (fs gs : Option (List String)) (hrest : ¬ grammar.Uses "--family" rest) :
    Alike (fun _ => True) (Reselected fs gs) (grammar.parse { families := fs } rest)
      (grammar.parse { families := gs } rest) :=
  parse_alike_of_not_uses (by decide) hrest (respects_reselected fs gs) ⟨rfl, rfl⟩

/-- Choices with the same names make the same report. -/
theorem Reselected.prepare_eq (h : Reselected fs gs s t)
    (hpicks : ∀ n ∈ Family.defaults.map Family.name, picks fs n = picks gs n) (v : Volume) :
    s.prepare v = t.prepare v := by
  obtain ⟨rfl, rfl⟩ := h
  show (s.catalogue v).bind s.report = (s.catalogue v).bind (Settings.report _)
  cases hc : s.catalogue v with
  | error trouble => rfl
  | ok c =>
    have hreachable := reachable_of_catalogue hc
    have hselected : s.selected c = Settings.selected { s with families := gs } c := by
      rw [Settings.selected_eq, Settings.selected_eq]
      exact congrArg _ (List.filter_congr fun e he =>
        hpicks _ (mem_names_of_reachable hreachable he))
    show s.report c = Settings.report _ c
    rw [Settings.report, Settings.report, hselected]
    rfl

/-- Runs that make the same report and deliver it alike are the same. -/
theorem run_eq_of_alike {R : Settings → Settings → Prop}
    (h : Alike (fun _ => True) R (grammar.parse {} argv) (grammar.parse {} argv'))
    (hR : ∀ s t, R s t → s.prepare v = t.prepare v ∧ s.out = t.out) : run argv v = run argv' v := by
  cases hparse : grammar.parse {} argv with
  | error stop =>
    rw [hparse] at h
    rw [run_eq_stop hparse, run_eq_stop h.eq_error]
  | ok s =>
    rw [hparse] at h
    obtain ⟨t, ht, hst⟩ := h.exists_ok
    obtain ⟨hprepare, hout⟩ := hR s t hst
    cases hr : s.prepare v with
    | error trouble =>
      rw [run_eq_outcome hparse hr, run_eq_outcome ht (hprepare ▸ hr)]
    | ok r =>
      rw [run_eq_deliver hparse hr, run_eq_deliver ht (hprepare ▸ hr), Settings.deliver,
        Settings.deliver, Settings.outPath?, Settings.outPath?, hout]

/-- Runs with choices of the same names are the same. -/
theorem run_eq_of_picks_eq (hrest : ¬ grammar.Uses "--family" rest)
    (hargv : grammar.parse {} argv = grammar.parse { families := fs } rest)
    (hargv' : grammar.parse {} argv' = grammar.parse { families := gs } rest)
    (hpicks : ∀ n ∈ Family.defaults.map Family.name, picks fs n = picks gs n) (v : Volume) :
    run argv v = run argv' v := by
  have halike := parse_reselected fs gs hrest
  rw [← hargv, ← hargv'] at halike
  exact run_eq_of_alike halike fun s t hst => ⟨hst.prepare_eq hpicks v, hst.2 ▸ rfl⟩

/-! ## What a run shows -/

/-- The requests for the families of a catalogue that the settings pick, family after family. -/
def Settings.requests (s : Settings) (c : Catalogue) (l : Layout) : List Request :=
  (s.selected c).flatMap (Family.ownRequests l)

/-- The text for some requests that the settings ask for: their class names, or their commands for
the expander. Without an expander there is no text but for no requests. -/
inductive Settings.Gives (s : Settings) (rs : List Request) : String → Prop where
  | classes (h : s.listClasses = true) : s.Gives rs (classList rs)
  | commands {e : String} (h : s.listClasses = false) (he : s.expander = some e) :
    s.Gives rs (renderRequests e rs)
  | nothing (h : s.listClasses = false) (he : s.expander = none) (hrs : rs = []) : s.Gives rs ""

/-- Commands are for the expander of the settings. -/
theorem Settings.Gives.eq_renderRequests {rs : List Request} {text e : String}
    (h : s.Gives rs text) (hclasses : s.listClasses = false) (he : s.expander = some e) :
    text = renderRequests e rs := by
  cases h with
  | classes h => cases h.symm.trans hclasses
  | commands _ he' => rw [Option.some.inj (he.symm.trans he')]
  | nothing _ he' => cases he.symm.trans he'

/-- A run from the volume `v` shows the families that its settings `s` pick from its catalogue `c`,
by the requests for its layout `l`: their text is printed, or it is in the file that the settings
name; and the summary is of these families, if the settings ask for one. -/
structure Shows (argv : List String) (v : Volume) (s : Settings) (c : Catalogue) (l : Layout)
    (text : String) : Prop where
  settings : grammar.parse {} argv = .ok s
  catalogue : s.catalogue v = .ok c
  layout : s.layout = .ok l
  content : s.Gives (s.requests c l) text
  channel : s.out = "" ∧ (run argv v).stdout = text ∧ (run argv v).volume = v ∨
    s.out ≠ "" ∧ (run argv v).stdout = "" ∧
      v.Wrote (run argv v).volume (.ofString s.out) (Utf8.encode text.toList)
  stderr : (run argv v).stderr =
    if s.verbose then String.join ((summary (s.selected c) (s.requests c l)).map (· ++ "\n"))
    else ""

theorem Settings.gives_of_text_eq_ok {rs : List Request} {text : String}
    (h : s.text rs = .ok text) : s.Gives rs text := by
  unfold Settings.text at h
  split at h
  · rename_i hclasses
    cases h
    exact .classes hclasses
  · rename_i hclasses
    have hcommands := Bool.eq_false_iff.mpr hclasses
    split at h
    · rename_i e he
      cases h
      exact .commands hcommands he
    · rename_i he
      split at h
      · rename_i hempty
        cases h
        exact .nothing hcommands he (List.isEmpty_iff.mp hempty)
      · cases h

theorem exists_of_report_eq_ok {r : Report} (h : s.report c = .ok r) :
    ∃ l, s.layout = .ok l ∧ s.Gives (s.requests c l) r.text ∧
      r.summary = if s.verbose then summary (s.selected c) (s.requests c l) else [] := by
  rw [report_eq_map] at h
  cases hm : s.material c with
  | error trouble =>
    rw [hm] at h
    cases h
  | ok m =>
    rw [hm] at h
    cases h
    obtain ⟨l, hl, hrs, htext⟩ := exists_layout_of_material_eq_ok hm
    obtain ⟨rs, text⟩ := m
    obtain rfl : rs = s.requests c l := (buildRequests_eq_ok_iff_nodup.mp hrs).2.2
    exact ⟨l, hl, Settings.gives_of_text_eq_ok htext, rfl⟩

/-- A report that is delivered is printed, or it is in the file that the settings name. -/
theorem channel_of_ending_eq {r : Report} (h : (s.deliver r v).ending = .exit 0) :
    (s.out = "" ∧ (s.deliver r v).stdout = r.text ∧ (s.deliver r v).volume = v ∨
      s.out ≠ "" ∧ (s.deliver r v).stdout = "" ∧
        v.Wrote (s.deliver r v).volume (.ofString s.out) (Utf8.encode r.text.toList)) ∧
      (s.deliver r v).stderr = r.printSummary := by
  by_cases hout : s.out = ""
  · rw [deliver_of_out_eq hout]
    exact ⟨.inl ⟨hout, rfl, rfl⟩, rfl⟩
  · rcases deliver_cases hout r v with ⟨f, w, -, -, hdeliver⟩ | ⟨w, hw, hdeliver⟩
    · rw [hdeliver] at h
      cases h
    · rw [hdeliver]
      exact ⟨.inr ⟨hout, rfl, hw⟩, rfl⟩

/-- **A run that succeeds, and not by showing the manual, shows** the families that its settings
pick. -/
theorem exists_shows (hhelp : grammar.parse {} argv ≠ .error .help)
    (hrun : (run argv v).ending = .exit 0) : ∃ s c l text, Shows argv v s c l text := by
  obtain ⟨s, r, hparse, hprepare, hdeliver⟩ := exists_deliver_of_run hhelp hrun
  obtain ⟨c, hc, hreport⟩ := exists_of_bind_eq_ok hprepare
  obtain ⟨l, hl, htext, hsummary⟩ := exists_of_report_eq_ok hreport
  have hprinted : r.printSummary = if s.verbose then
      String.join ((summary (s.selected c) (s.requests c l)).map (· ++ "\n")) else "" := by
    rw [Report.printSummary, hsummary]
    split <;> rfl
  rw [hdeliver] at hrun
  obtain ⟨hchannel, hstderr⟩ := channel_of_ending_eq hrun
  rw [← hdeliver] at hchannel hstderr
  exact ⟨s, c, l, r.text, hparse, hc, hl, htext, hchannel, hstderr.trans hprinted⟩

/-- The families that are shown are those that the settings pick from the declared ones, in their
order. -/
theorem Shows.map_brand_eq {l : Layout} {text : String} (h : Shows argv v s c l text) :
    (s.selected c).map Family.brand =
      (Family.defaults.filter fun f => picks s.families f.name).map Family.brand := by
  rw [Settings.selected_eq, (reachable_of_catalogue h.catalogue).map_brand_eq]

/-- The options for families leave their choice in the settings, if the other arguments make
none. -/
theorem families_of_parse_eq_ok (hrest : ¬ grammar.Uses "--family" rest)
    (h : grammar.parse { families := fs } rest = .ok s) : s.families = fs := by
  have halike := parse_reselected fs fs hrest
  rw [h] at halike
  obtain ⟨t, -, hst⟩ := halike.exists_ok
  exact hst.1

/-! ## The law -/

/-- **The options for families act as a set**, for all other arguments and every volume. If the
others choose no families, then names that are given in another order or more often make the same
run, whatever its outcome is; all the names make the run that has none of these options; and a run
that succeeds, and not by showing the manual, shows just the families with the names. Any such run
shows families in the order in which they are declared. -/
theorem run_families (rest : List String) (v : Volume) :
    (¬ grammar.Uses "--family" rest →
      (∀ ms ns : List String, ms ⊆ Family.defaults.map Family.name → (∀ n, n ∈ ms ↔ n ∈ ns) →
        run (familyArguments ms ++ rest) v = run (familyArguments ns ++ rest) v) ∧
      (∀ ns : List String, (∀ n, n ∈ ns ↔ n ∈ Family.defaults.map Family.name) →
        run (familyArguments ns ++ rest) v = run rest v) ∧
      ∀ ns : List String, ns ⊆ Family.defaults.map Family.name → ns ≠ [] →
        ¬ grammar.Uses "--help" rest → (run (familyArguments ns ++ rest) v).ending = .exit 0 →
        ∃ s c l text,
          (s.selected c).map Family.brand =
            (Family.defaults.filter (·.name ∈ ns)).map Family.brand ∧
          Shows (familyArguments ns ++ rest) v s c l text) ∧
    (¬ grammar.Uses "--help" rest → (run rest v).ending = .exit 0 →
      ∃ s c l text, ((s.selected c).map Family.brand).Sublist (Family.defaults.map Family.brand) ∧
        Shows rest v s c l text) := by
  have hchoices : ∀ ns : List String, ns ⊆ Family.defaults.map Family.name →
      grammar.parse {} (familyArguments ns ++ rest) =
        grammar.parse { families := choiceOf ns } rest :=
    fun ns hns => parse_familyArguments (fun n hn => mem_familyChoices_iff.mpr (hns hn)) rest
  refine ⟨fun hrest => ⟨?_, ?_, ?_⟩, ?_⟩
  · intro ms ns hms hset
    have hns : ns ⊆ Family.defaults.map Family.name := fun n hn => hms ((hset n).mpr hn)
    exact run_eq_of_picks_eq hrest (hchoices ms hms) (hchoices ns hns)
      (fun n _ => picks_choiceOf_congr hset n) v
  · intro ns hall
    have hns : ns ⊆ Family.defaults.map Family.name := fun n hn => (hall n).mp hn
    refine run_eq_of_picks_eq hrest (hchoices ns hns) rfl (fun n hn => ?_) v
    exact picks_choiceOf_eq_true_iff.mpr (.inr ((hall n).mpr hn))
  · intro ns hns hne hhelp hrun
    have hparse := hchoices ns hns
    obtain ⟨s, c, l, text, hshows⟩ := exists_shows (hparse ▸ parse_ne_help hhelp) hrun
    refine ⟨s, c, l, text, ?_, hshows⟩
    have hpicks : ∀ n, picks s.families n = decide (n ∈ ns) := by
      intro n
      rw [families_of_parse_eq_ok hrest (hparse ▸ hshows.settings), Bool.eq_iff_iff,
        picks_choiceOf_eq_true_iff, decide_eq_true_iff, or_iff_right hne]
    simpa only [hpicks] using hshows.map_brand_eq
  · intro hhelp hrun
    obtain ⟨s, c, l, text, hshows⟩ := exists_shows (parse_ne_help hhelp) hrun
    exact ⟨s, c, l, text, hshows.map_brand_eq ▸ List.filter_sublist.map Family.brand, hshows⟩

/-- A family that is named twice is shown as if it were named once, and both families as if none
were named. -/
theorem run_families_twice :
    run ["--family", "standard", "--family", "standard", "--list-classes"] ⟨[], []⟩ =
        run ["--family", "standard", "--list-classes"] ⟨[], []⟩ ∧
      run ["--family", "high-performance", "--family", "standard", "--list-classes"] ⟨[], []⟩ =
        run ["--list-classes"] ⟨[], []⟩ ∧
      (∃ s c l text,
        (s.selected c).map Family.brand =
          (Family.defaults.filter (·.name ∈ ["standard"])).map Family.brand ∧
        Shows ["--family", "standard", "--list-classes"] ⟨[], []⟩ s c l text) ∧
      ∃ s c l text, ((s.selected c).map Family.brand).Sublist (Family.defaults.map Family.brand) ∧
        Shows ["--list-classes"] ⟨[], []⟩ s c l text := by
  have hfamily : ¬ grammar.Uses "--family" ["--list-classes"] :=
    not_uses_listClasses (by decide)
  have hhelp : ¬ grammar.Uses "--help" ["--list-classes"] := not_uses_listClasses (by decide)
  have hlaw := run_families ["--list-classes"] ⟨[], []⟩
  obtain ⟨hset, hall, hshown⟩ := hlaw.1 hfamily
  have hkept : Settings.Kept { families := some ["standard"], listClasses := true } :=
    ⟨nofun, nofun, nofun⟩
  have hending : (run ["--family", "standard", "--list-classes"] ⟨[], []⟩).ending = .exit 0 := by
    obtain ⟨r, hr⟩ := exists_prepare_eq_ok hkept rfl ⟨[], []⟩
    rw [run_eq_deliver rfl hr]
    rfl
  refine ⟨hset ["standard", "standard"] ["standard"] (by decide) (by simp), ?_, ?_, ?_⟩
  · exact hall ["high-performance", "standard"] fun n => mem_familyChoices_iff
  · exact hshown ["standard"] (by decide) (by decide) hhelp hending
  · exact hlaw.2 hhelp (run_listClasses_ending ⟨[], []⟩)

end Readers

end BitReaders
