import BitReaders.Proofs.Files.Writes
import BitReaders.Proofs.Runs.Options
import BitReaders.Proofs.Runs.Stages

/-!
# What a run prints and writes

A run that does not succeed prints nothing on standard output and changes no file. A run that is
told a file writes there what it prints otherwise. A run that is told to be verbose does the same,
and says more on standard error.

- `run_of_ending_ne`: a run that fails keeps every file; `exists_deliver_of_run`: one that succeeds
  delivers a report.
- `Redirected`, `Narrated`: settings, and the same with a file to write or with more to say; no
  other option tells them apart (`respects_redirected`, `respects_narrated`).
- `run_redirected`, `run_narrated`: two runs compared.
- `run_all_or_nothing`: **all three together**, for every list of arguments and every volume.
-/

namespace BitReaders.Readers

variable {s t : Settings} {v : Volume} {argv : List String}

/-! ## Runs that fail -/

theorem stop_of_ending_ne (stop : Stop) (h : (manual.stop v stop).ending ≠ .exit 0) :
    (manual.stop v stop).stdout = "" ∧ v.SameFiles (manual.stop v stop).volume := by
  cases stop with
  | help => exact absurd rfl h
  | usage e => exact ⟨rfl, .refl v⟩

theorem outcome_ending_ne (t : Trouble) (v : Volume) : (t.outcome v).ending ≠ .exit 0 := by
  cases t with
  | complaint c => exact nofun
  | abort a => exact nofun

theorem outcome_keeps (t : Trouble) (v : Volume) :
    (t.outcome v).stdout = "" ∧ v.SameFiles (t.outcome v).volume := by
  cases t with
  | complaint c => exact ⟨rfl, .refl v⟩
  | abort a => exact ⟨rfl, .refl v⟩

/-- A report is printed if no file is named. -/
theorem deliver_of_out_eq (h : s.out = "") (r : Report) (v : Volume) :
    s.deliver r v = ⟨.exit 0, r.text, r.printSummary, v⟩ := by
  rw [Settings.deliver, Settings.outPath?, if_pos h]

/-- A report is written to the file that is named, or keeps all files. -/
theorem deliver_cases (h : s.out ≠ "") (r : Report) (v : Volume) :
    (∃ f w, v.writeText (.ofString s.out) r.text = (.error f, w) ∧ v.SameFiles w ∧
        s.deliver r v = ⟨.abort (.access f), "", "", w⟩) ∨
      ∃ w, v.Wrote w (.ofString s.out) (Utf8.encode r.text.toList) ∧
        s.deliver r v = ⟨.exit 0, "", r.printSummary, w⟩ := by
  have hpath : s.outPath? = some (.ofString s.out) := by rw [Settings.outPath?, if_neg h]
  rcases v.writeText_cases (.ofString s.out) r.text with ⟨f, w, hwrite, hw⟩ | ⟨w, hwrite, hw⟩
  · exact .inl ⟨f, w, hwrite, hw.sameFiles, by simp only [Settings.deliver, hpath, hwrite]⟩
  · exact .inr ⟨w, hw, by simp only [Settings.deliver, hpath, hwrite]⟩

/-- A run that does not succeed prints nothing on standard output and keeps every file. -/
theorem run_of_ending_ne (h : (run argv v).ending ≠ .exit 0) :
    (run argv v).stdout = "" ∧ v.SameFiles (run argv v).volume := by
  obtain ⟨stop, -, hrun⟩ | ⟨s, -, ⟨t, -, hrun⟩ | ⟨r, -, hrun⟩⟩ := run_cases argv v
  · rw [hrun] at h ⊢
    exact stop_of_ending_ne stop h
  · rw [hrun]
    exact outcome_keeps t v
  · rw [hrun] at h ⊢
    by_cases hout : s.out = ""
    · rw [deliver_of_out_eq hout] at h
      exact absurd rfl h
    · rcases deliver_cases hout r v with ⟨f, w, -, hw, hdeliver⟩ | ⟨w, -, hdeliver⟩
      · rw [hdeliver]
        exact ⟨rfl, hw⟩
      · rw [hdeliver] at h
        exact absurd rfl h

/-- A run that succeeds, and not by showing the manual, delivers a report. -/
theorem exists_deliver_of_run (hhelp : grammar.parse {} argv ≠ .error .help)
    (hrun : (run argv v).ending = .exit 0) :
    ∃ s r, grammar.parse {} argv = .ok s ∧ s.prepare v = .ok r ∧ run argv v = s.deliver r v := by
  obtain ⟨stop, hparse, hstop⟩ | ⟨s, hparse, ⟨trouble, -, htrouble⟩ | ⟨r, hr, hdeliver⟩⟩ :=
    run_cases argv v
  · cases stop with
    | help => exact absurd hparse hhelp
    | usage e =>
      rw [hstop] at hrun
      cases hrun
  · rw [htrouble] at hrun
    exact absurd hrun (outcome_ending_ne trouble v)
  · exact ⟨s, r, hparse, hr, hdeliver⟩

/-! ## Settings that differ in one option -/

/-- Settings without a file to write, and the same with one. -/
def Redirected (path : String) : Settings → Settings → Prop :=
  Changed (·.out = "") fun s => { s with out := path }

/-- Settings that say no more than they must, and the same with more to say. -/
def Narrated : Settings → Settings → Prop :=
  Changed (·.verbose = false) fun s => { s with verbose := true }

/-- No option but its own tells whether a file is written. -/
theorem respects_redirected (path : String) :
    ∀ o ∈ options, "--out" ∉ o.names → o.action.Respects (fun _ => True) (Redirected path) := by
  intro o ho hname
  simp only [options, List.mem_cons, List.not_mem_nil, or_false] at ho
  rcases ho with rfl | rfl | rfl | rfl | rfl | rfl | rfl | rfl | rfl
  · trivial
  · exact respects_value (fun _ _ => id) fun _ _ => rfl
  · exact respects_value (fun _ _ => id) fun _ _ => rfl
  · exact respects_value (fun _ _ => id) fun _ _ => rfl
  · exact respects_chooseFamily (fun _ _ => id) fun _ _ => rfl
  · exact respects_value (fun _ _ => id) fun _ _ => rfl
  · exact respects_flag (fun _ => id) fun _ => rfl
  · exact absurd (by decide) hname
  · exact respects_flag (fun _ => id) fun _ => rfl

/-- No option but its own tells whether more is said. -/
theorem respects_narrated :
    ∀ o ∈ options, "--verbose" ∉ o.names → o.action.Respects (fun _ => True) Narrated := by
  intro o ho hname
  simp only [options, List.mem_cons, List.not_mem_nil, or_false] at ho
  rcases ho with rfl | rfl | rfl | rfl | rfl | rfl | rfl | rfl | rfl
  · trivial
  · exact respects_value (fun _ _ => id) fun _ _ => rfl
  · exact respects_value (fun _ _ => id) fun _ _ => rfl
  · exact respects_value (fun _ _ => id) fun _ _ => rfl
  · exact respects_chooseFamily (fun _ _ => id) fun _ _ => rfl
  · exact respects_value (fun _ _ => id) fun _ _ => rfl
  · exact respects_flag (fun _ => id) fun _ => rfl
  · exact respects_value (fun _ _ => id) fun _ _ => rfl
  · exact absurd (by decide) hname

/-- The arguments with a file to write in front are read to the settings with that file. -/
theorem parse_redirected {path : String} (hpath : path ≠ "--")
    (hargv : ¬ grammar.Uses "--out" argv) :
    Alike (fun _ => True) (Redirected path) (grammar.parse {} argv)
      (grammar.parse {} (("--out=" ++ path) :: argv)) := by
  rw [parse_out hpath]
  exact parse_alike_of_not_uses (by decide) hargv (respects_redirected path) ⟨rfl, rfl⟩

/-- The arguments with the option to say more in front are read to the settings with it. -/
theorem parse_narrated (hargv : ¬ grammar.Uses "--verbose" argv) :
    Alike (fun _ => True) Narrated (grammar.parse {} argv)
      (grammar.parse {} ("--verbose" :: argv)) := by
  rw [parse_verbose]
  exact parse_alike_of_not_uses (by decide) hargv respects_narrated ⟨rfl, rfl⟩

/-! ## Output to a file -/

/-- The outcome of a run from the volume `v` that is to write a text: it has written it where the
path leads and kept all other files, or it cannot use a path and has kept them all. -/
def WritesTo (v : Volume) (path text : String) (o : Outcome) : Prop :=
  (∃ problem p, o.ending = .abort (.access (.path problem p))) ∧ v.SameFiles o.volume ∨
    o.ending = .exit 0 ∧ o.stdout = "" ∧
      v.Wrote o.volume (.ofString path) (Utf8.encode text.toList)

/-- The file to write plays no part in the report. -/
theorem Redirected.prepare_eq {path : String} (h : Redirected path s t) (v : Volume) :
    t.prepare v = s.prepare v := by
  obtain ⟨-, rfl⟩ := h
  rfl

theorem deliver_writesTo (hempty : s.out ≠ "") (hnull : '\x00' ∉ s.out.toList) (r : Report)
    (v : Volume) : WritesTo v s.out r.text (s.deliver r v) := by
  rcases deliver_cases hempty r v with ⟨f, w, hwrite, hw, hdeliver⟩ | ⟨w, hw, hdeliver⟩
  · obtain ⟨problem, p, rfl⟩ :=
      Volume.exists_path_of_writeText_eq_error hwrite (Path.hasNull_ofString hnull)
    rw [hdeliver]
    exact .inl ⟨⟨problem, p, rfl⟩, hw⟩
  · rw [hdeliver]
    exact .inr ⟨rfl, rfl, hw⟩

/-- A run that prints a text writes it to a file if one is named, or keeps all files. -/
theorem run_redirected (hargv : ¬ grammar.Uses "--out" argv) (hhelp : ¬ grammar.Uses "--help" argv)
    (hrun : (run argv v).ending = .exit 0) {path : String} (hempty : path ≠ "")
    (hnull : '\x00' ∉ path.toList) (hdashes : path ≠ "--") :
    WritesTo v path (run argv v).stdout (run (("--out=" ++ path) :: argv) v) := by
  have halike := parse_redirected hdashes hargv
  -- The manual is not asked for, so the run delivers a report.
  obtain ⟨s, r, hparse, hr, hdeliver⟩ := exists_deliver_of_run (parse_ne_help hhelp) hrun
  rw [hparse] at halike
  obtain ⟨t, ht, hst⟩ := halike.exists_ok
  -- The report is made before the file is written, so that a document in its place is read first.
  rw [run_eq_deliver ht ((hst.prepare_eq v).trans hr), hdeliver]
  obtain ⟨hout, rfl⟩ := hst
  rw [deliver_of_out_eq hout]
  exact deliver_writesTo hempty hnull r v

/-! ## More on standard error -/

/-- The outcome `o'` is `o` with more printed on standard error. -/
structure SaysMore (o : Outcome) (more : String) (o' : Outcome) : Prop where
  ending : o'.ending = o.ending
  stdout : o'.stdout = o.stdout
  stderr : o'.stderr = o.stderr ++ more
  volume : o'.volume = o.volume

theorem SaysMore.refl (o : Outcome) : SaysMore o "" o :=
  ⟨rfl, rfl, by rw [String.append_empty], rfl⟩

/-- The text is the summary of the families that a run prints, in lines. -/
def IsSummary (argv : List String) (v : Volume) (text : String) : Prop :=
  ∃ s c l rs, grammar.parse {} argv = .ok s ∧ s.catalogue v = .ok c ∧ s.layout = .ok l ∧
    buildRequests (s.selected c) l = .ok rs ∧
    text = String.join ((summary (s.selected c) rs).map (· ++ "\n"))

/-- Whether more is said plays no part in the report but for its summary. -/
theorem Narrated.prepare_cases (h : Narrated s t) (v : Volume) :
    (∃ trouble, s.prepare v = .error trouble ∧ t.prepare v = .error trouble) ∨
      ∃ c l rs text, s.catalogue v = .ok c ∧ s.layout = .ok l ∧
        buildRequests (s.selected c) l = .ok rs ∧ s.prepare v = .ok ⟨text, []⟩ ∧
        t.prepare v = .ok ⟨text, summary (s.selected c) rs⟩ := by
  obtain ⟨hs, rfl⟩ := h
  have hcatalogue : ({ s with verbose := true } : Settings).catalogue v = s.catalogue v := rfl
  have hmaterial : ∀ c, ({ s with verbose := true } : Settings).material c = s.material c :=
    fun _ => rfl
  rw [Settings.prepare, Settings.prepare, hcatalogue]
  cases s.catalogue v with
  | error trouble => exact .inl ⟨trouble, rfl, rfl⟩
  | ok c =>
    show (∃ trouble, s.report c = _ ∧ Settings.report _ c = _) ∨
      ∃ c' l rs text, _ ∧ _ ∧ _ ∧ s.report c = _ ∧ Settings.report _ c = _
    rw [report_eq_map, report_eq_map, hmaterial, hs]
    cases hm : s.material c with
    | error trouble => exact .inl ⟨trouble, rfl, rfl⟩
    | ok m =>
      obtain ⟨l, hl, hrs, -⟩ := exists_layout_of_material_eq_ok hm
      exact .inr ⟨c, l, m.1, m.2, rfl, hl, hrs, rfl, rfl⟩

/-- What is delivered says more if the summary is longer and the run succeeds. -/
theorem deliver_saysMore (h : t.out = s.out) (text : String) (lines : List String) (v : Volume) :
    (s.deliver ⟨text, []⟩ v).ending = .exit 0 ∧
        SaysMore (s.deliver ⟨text, []⟩ v) (Report.printSummary ⟨text, lines⟩)
          (t.deliver ⟨text, lines⟩ v) ∨
      (s.deliver ⟨text, []⟩ v).ending ≠ .exit 0 ∧
        SaysMore (s.deliver ⟨text, []⟩ v) "" (t.deliver ⟨text, lines⟩ v) := by
  have hpath : t.outPath? = s.outPath? := by rw [Settings.outPath?, Settings.outPath?, h]
  have hsummary : Report.printSummary ⟨text, lines⟩ = "" ++ Report.printSummary ⟨text, lines⟩ :=
    String.empty_append.symm
  rw [Settings.deliver, Settings.deliver, hpath]
  cases s.outPath? with
  | none => exact .inl ⟨rfl, rfl, rfl, hsummary, rfl⟩
  | some p =>
    dsimp only
    obtain ⟨result, w⟩ := v.writeText p text
    cases result with
    | error f => exact .inr ⟨nofun, .refl _⟩
    | ok => exact .inl ⟨rfl, rfl, rfl, hsummary, rfl⟩

/-- A run that is to say more says the summary if it succeeds, and does else the same. -/
theorem run_narrated (hargv : ¬ grammar.Uses "--verbose" argv)
    (hhelp : ¬ grammar.Uses "--help" argv) (v : Volume) :
    ∃ more, SaysMore (run argv v) more (run ("--verbose" :: argv) v) ∧
      ((run argv v).ending = .exit 0 → IsSummary argv v more) ∧
      ((run argv v).ending ≠ .exit 0 → more = "") := by
  have halike := parse_narrated hargv
  cases hparse : grammar.parse {} argv with
  | error stop =>
    rw [hparse] at halike
    rw [run_eq_stop hparse, run_eq_stop halike.eq_error]
    -- The manual would be a success without a summary, but is not asked for.
    cases stop with
    | help => exact absurd hparse (parse_ne_help hhelp)
    | usage e => exact ⟨"", .refl _, nofun, fun _ => rfl⟩
  | ok s =>
    rw [hparse] at halike
    obtain ⟨t, ht, hst⟩ := halike.exists_ok
    rcases hst.prepare_cases v with
      ⟨trouble, hprepare, hprepare'⟩ | ⟨c, l, rs, text, hc, hl, hrs, hprepare, hprepare'⟩
    · rw [run_eq_outcome hparse hprepare, run_eq_outcome ht hprepare']
      exact ⟨"", .refl _, fun h => absurd h (outcome_ending_ne trouble v), fun _ => rfl⟩
    · rw [run_eq_deliver hparse hprepare, run_eq_deliver ht hprepare']
      have hout : t.out = s.out := hst.2 ▸ rfl
      rcases deliver_saysMore hout text (summary (s.selected c) rs) v with
        ⟨hending, hmore⟩ | ⟨hending, hmore⟩
      · exact ⟨_, hmore, fun _ => ⟨s, c, l, rs, hparse, hc, hl, hrs, rfl⟩, absurd hending⟩
      · exact ⟨"", hmore, fun h => absurd h hending, fun _ => rfl⟩

/-! ## All together -/

/-- **A run does all or nothing, and its channels agree.** If it does not succeed, it prints nothing
on standard output and keeps every file. If it succeeds without a file to write and without the
manual, it writes the same text to a file that is named in front of the other arguments, or keeps
all files. If it is told to say more, it does the same and says the summary, if it succeeds. -/
theorem run_all_or_nothing (argv : List String) (v : Volume) :
    ((run argv v).ending ≠ .exit 0 →
        (run argv v).stdout = "" ∧ v.SameFiles (run argv v).volume) ∧
      (¬ grammar.Uses "--out" argv → ¬ grammar.Uses "--help" argv →
        (run argv v).ending = .exit 0 →
        ∀ path : String, path ≠ "" → '\x00' ∉ path.toList → path ≠ "--" →
          WritesTo v path (run argv v).stdout (run (("--out=" ++ path) :: argv) v)) ∧
      (¬ grammar.Uses "--verbose" argv → ¬ grammar.Uses "--help" argv →
        ∃ more, SaysMore (run argv v) more (run ("--verbose" :: argv) v) ∧
          ((run argv v).ending = .exit 0 → IsSummary argv v more) ∧
          ((run argv v).ending ≠ .exit 0 → more = "")) :=
  ⟨run_of_ending_ne, fun hout hhelp hrun _ hempty hnull hdashes =>
    run_redirected hout hhelp hrun hempty hnull hdashes,
    fun hverbose hhelp => run_narrated hverbose hhelp v⟩

/-- The option for class names is no other one. -/
theorem not_uses_listClasses {option : String} (h : option ≠ "--list-classes") :
    ¬ grammar.Uses option ["--list-classes"] :=
  Grammar.not_uses_of_words_eq rfl fun hname => h (List.mem_singleton.mp hname)

/-- The class names of the declared families are always printed. -/
theorem run_listClasses_ending (v : Volume) : (run ["--list-classes"] v).ending = .exit 0 := by
  have hkept : Settings.Kept { listClasses := true } := ⟨nofun, nofun, nofun⟩
  obtain ⟨r, hr⟩ := exists_prepare_eq_ok hkept rfl v
  rw [run_eq_deliver rfl hr]
  rfl

/-- An option without its value changes nothing. The class names go to a file that is named, and the
summary comes after them. -/
theorem run_all_or_nothing_listClasses :
    (run ["--out"] ⟨[], []⟩).ending = .exit 2 ∧ (run ["--out"] ⟨[], []⟩).stdout = "" ∧
      Volume.SameFiles ⟨[], []⟩ (run ["--out"] ⟨[], []⟩).volume ∧
      WritesTo ⟨[], []⟩ "names.txt" (run ["--list-classes"] ⟨[], []⟩).stdout
        (run ["--out=names.txt", "--list-classes"] ⟨[], []⟩) ∧
      ∃ more, SaysMore (run ["--list-classes"] ⟨[], []⟩) more
          (run ["--verbose", "--list-classes"] ⟨[], []⟩) ∧
        IsSummary ["--list-classes"] ⟨[], []⟩ more := by
  have hstop : (run ["--out"] ⟨[], []⟩).ending = .exit 2 := rfl
  have hhelp : ¬ grammar.Uses "--help" ["--list-classes"] := not_uses_listClasses (by decide)
  have hending := run_listClasses_ending ⟨[], []⟩
  obtain ⟨hfails, -, -⟩ := run_all_or_nothing ["--out"] ⟨[], []⟩
  obtain ⟨hstdout, hfiles⟩ := hfails (hstop ▸ nofun)
  obtain ⟨-, hwrites, hsays⟩ := run_all_or_nothing ["--list-classes"] ⟨[], []⟩
  obtain ⟨more, hmore, hsummary, -⟩ := hsays (not_uses_listClasses (by decide)) hhelp
  exact ⟨hstop, hstdout, hfiles,
    hwrites (not_uses_listClasses (by decide)) hhelp hending "names.txt" (by decide) (by decide)
      (by decide), more, hmore, hsummary hending⟩

end BitReaders.Readers
