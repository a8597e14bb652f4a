import BitReaders.Proofs.Directories
import BitReaders.Proofs.Options.Insertion
import BitReaders.Proofs.Runs.Families

/-!
# Directories on the command line

The two directories are given by options, with slashes at their ends or without them. A run does not
tell the difference, whatever the other arguments are, and puts all files where the directories say.

- `Sets`: an option puts its value into the settings. `Sets.parse_alike`: two values that it treats
  alike; `Sets.of_parse`: its value is kept by the other options.
- `Settings.stripped`: settings with directories as a layout takes them. A run sees no more of them
  (`Settings.prepare_stripped`), and no option tells more (`respects_stripped`).
- `Sets.run_eq`: runs with values that are the same without slashes are the same.
- `Placement`: arguments with a place for each directory. `Placement.run_slashes`: two runs
  compared; `Placement.layout_of_parse`: the directories are kept; `Placement.exists_located`: where
  the files are.
- `run_directories`: **slashes at the ends of the directories are of no account, and the files are
  where the directories say**.
-/

namespace BitReaders.Readers

variable {s t : Settings} {v : Volume} {before after : List String} {name : String}
  {set : Option String → Settings → Settings}

/-! ## Options that set a value -/

/-- The option with a name puts its value into the settings. -/
structure Sets (name : String) (set : Option String → Settings → Settings) : Prop where
  dash : name.toList.head? = some '-'
  equals : '=' ∉ name.toList
  not_help : name ∉ helpNames
  find : grammar.find? name.toList = some ⟨[name], .value fun x s => .ok (set x s)⟩

theorem sets_indexDir : Sets "--index-dir" fun x s => { s with indexDir := x } :=
  ⟨rfl, by decide, by decide, rfl⟩

theorem sets_wiredSubdir : Sets "--wired-subdir" fun x s => { s with wiredSubdir := x } :=
  ⟨rfl, by decide, by decide, rfl⟩

namespace Sets

variable {R : Settings → Settings → Prop} {P : Settings → Prop} {x y : String}

theorem word_attached (h : Sets name set) (x : String) :
    grammar.word (attached name x) =
      .ok (.option ⟨[name], .value fun x s => .ok (set x s)⟩ name.toList (some x.toList)) :=
  Grammar.word_append_value equals_not_mem_names name h.dash h.equals h.find x

theorem keepValue_toList (hx : x ≠ "--") : keepValue (String.ofList x.toList) = some x := by
  rw [String.ofList_toList, keepValue, if_neg hx]

/-- Two values that the option treats alike are read alike, at the same place. -/
theorem parse_alike (h : Sets name set) (hbefore : "--" ∉ before) (hx : x ≠ "--") (hy : y ≠ "--")
    (hset : ∀ s, R (set (some x) s) (set (some y) s))
    (hoptions : ∀ o ∈ options, o.action.Respects (fun _ => True) R) (s : Settings)
    (after : List String) :
    Alike (fun _ => True) R (grammar.parse s (before ++ attached name x :: after))
      (grammar.parse s (before ++ attached name y :: after)) := by
  refine Grammar.parse_insert_alike (List.forall_mem_nil _) hbefore (attached_ne_separator name x)
    (attached_ne_separator name y) (h.word_attached x) (h.word_attached y) rfl (fun s => ?_)
    (fun us ws _ hws o ho => hoptions o (Grammar.mem_options_of_involves hws ho)) s
  rw [keepValue_toList hx, keepValue_toList hy]
  exact .ok (hset s)

/-- What the value makes true of the settings stays true, if the option is not used again. -/
theorem of_parse (h : Sets name set) (hbefore : "--" ∉ before) (hx : x ≠ "--")
    (hset : ∀ s, P (set (some x) s))
    (hoptions : ∀ o ∈ options, name ∉ o.names → o.action.Respects (fun _ => True) (Changed P id))
    (hunused : ¬ grammar.Uses name (before ++ after))
    (hparse : grammar.parse s (before ++ attached name x :: after) = .ok t) : P t := by
  refine Grammar.of_parse_insert (List.forall_mem_nil _) hbefore (attached_ne_separator name x)
    (h.word_attached x) rfl (fun s t hst => ?_) (fun us ws hus hws o ho => ?_) hparse
  · rw [keepValue_toList hx] at hst
    cases hst
    exact hset s
  · refine hoptions o (Grammar.mem_options_of_involves hws ho) fun hname => ?_
    rcases named_of_involves ho with ⟨n, text, hw⟩ | hnames
    · exact hunused (Grammar.uses_append hbefore hus ⟨ws, hws, o, n, text, hw, hname⟩)
    · exact h.not_help (hnames ▸ hname)

end Sets

/-! ## Settings without slashes -/

/-- The settings with directories as a layout takes them. -/
def Settings.stripped (s : Settings) : Settings :=
  { s with
    indexDir := s.indexDir.map dropSlashes
    wiredSubdir := s.wiredSubdir.map trimSlashes }

/-- No option tells more than the settings without slashes. -/
theorem respects_stripped :
    ∀ o ∈ options, o.action.Respects (fun _ => True) fun s t => s.stripped = t.stripped := by
  intro o ho
  simp only [options, List.mem_cons, List.not_mem_nil, or_false] at ho
  rcases ho with rfl | rfl | rfl | rfl | rfl | rfl | rfl | rfl | rfl
  · trivial
  · exact fun x s t h => .ok (congrArg (fun u => { u with expander := x }) h)
  · exact fun x s t h => .ok (congrArg (fun u => { u with indexDir := x.map dropSlashes }) h)
  · exact fun x s t h => .ok (congrArg (fun u => { u with wiredSubdir := x.map trimSlashes }) h)
  · intro x s t h
    cases x with
    | none => exact .ok (congrArg (fun u => { u with families := some (u.families.getD []) }) h)
    | some n =>
      by_cases hn : n ∈ familyChoices
      · simp only [chooseFamily, if_pos hn]
        exact .ok (congrArg (fun u => { u with families := some (u.families.getD [] ++ [n]) }) h)
      · simp only [chooseFamily, if_neg hn]
        exact .error trivial
  · exact fun x s t h => .ok (congrArg (fun u => { u with axes := x.getD "" }) h)
  · exact fun s t h => congrArg (fun u => { u with listClasses := true }) h
  · exact fun x s t h => .ok (congrArg (fun u => { u with out := x.getD "" }) h)
  · exact fun s t h => congrArg (fun u => { u with verbose := true }) h

theorem dropSlashes_dropSlashes (d : String) : dropSlashes (dropSlashes d) = dropSlashes d := by
  obtain ⟨n, hn⟩ := exists_eq_dropSlashes_append d
  conv_rhs => rw [hn]
  exact (dropSlashes_append _ n).symm

theorem trimSlashes_trimSlashes (w : String) : trimSlashes (trimSlashes w) = trimSlashes w := by
  obtain ⟨m, n, hw⟩ := exists_eq_trimSlashes_append w
  conv_rhs => rw [hw]
  exact (trimSlashes_append _ m n).symm

namespace Settings

theorem layout_stripped (s : Settings) : s.stripped.layout = s.layout := by
  obtain ⟨_, indexDir, wiredSubdir, _, _, _, _, _⟩ := s
  cases indexDir with
  | none => rfl
  | some d =>
    cases wiredSubdir with
    | none => rfl
    | some w =>
      show Except.ok (Layout.ofDirectories (dropSlashes (dropSlashes d))
        (trimSlashes (trimSlashes w))) = _
      rw [dropSlashes_dropSlashes, trimSlashes_trimSlashes]
      rfl

theorem layout_of_directories {d w : String} (hd : s.indexDir = some d)
    (hw : s.wiredSubdir = some w) : s.layout = .ok (.ofArguments d w) := by
  rw [layout, hd, hw]
  rfl

/-- A report is made of the settings without slashes. -/
theorem prepare_stripped (s : Settings) (v : Volume) : s.stripped.prepare v = s.prepare v := by
  show (s.catalogue v).bind s.stripped.report = (s.catalogue v).bind s.report
  cases s.catalogue v with
  | error trouble => rfl
  | ok c =>
    show s.stripped.report c = s.report c
    rw [report, report, layout_stripped]
    rfl

end Settings

/-- **Runs with values that are the same without slashes are the same**, at any place before a
separator. -/
theorem Sets.run_eq (h : Sets name set) {x y : String} (hbefore : "--" ∉ before) (hx : x ≠ "--")
    (hy : y ≠ "--") (hset : ∀ s, (set (some x) s).stripped = (set (some y) s).stripped)
    (after : List String) (v : Volume) :
    run (before ++ attached name x :: after) v = run (before ++ attached name y :: after) v := by
  refine run_eq_of_alike (h.parse_alike hbefore hx hy hset respects_stripped {} after) ?_
  intro s t hst
  rw [← s.prepare_stripped, ← t.prepare_stripped, hst]
  have hout : s.stripped.out = t.stripped.out := congrArg Settings.out hst
  exact ⟨rfl, hout⟩

/-! ## Arguments with two directories -/

/-- The other arguments in front of the two directories, between them and behind them. The
directories are given by options, and so before a separator. -/
structure Placement where
  before : List String
  between : List String
  after : List String
  /-- Whether the subdirectory is given before the directory of the index. -/
  subdirFirst : Bool
  /-- No separator ends the options in front of the directories. -/
  separator_not_mem : "--" ∉ before ++ between

namespace Placement

/-- The other arguments. -/
def others (p : Placement) : List String :=
  p.before ++ (p.between ++ p.after)

/-- All arguments, with the directories `d` and `w` at their places. -/
def arguments (p : Placement) (d w : String) : List String :=
  if p.subdirFirst then
    p.before ++ attached "--wired-subdir" w :: p.between ++ attached "--index-dir" d :: p.after
  else
    p.before ++ attached "--index-dir" d :: p.between ++ attached "--wired-subdir" w :: p.after

section Places

variable {n m x : String} {between : List String}

/-- An option that is used beside the second directory is used beside both. -/
theorem uses_of_first (h : Sets m set) (hplaces : "--" ∉ before ++ between) (hn : n ≠ m)
    (hn' : grammar.Uses n (before ++ (between ++ attached m x :: after))) :
    grammar.Uses n (before ++ (between ++ after)) := by
  rw [← List.append_assoc] at hn' ⊢
  exact (Grammar.uses_insert_iff hplaces (attached_ne_separator m x) (h.word_attached x)
    (fun hmem => hn (List.mem_singleton.mp hmem)) after).mp hn'

/-- An option that is used beside the first directory is used beside both. -/
theorem uses_of_second (h : Sets m set) (hbefore : "--" ∉ before) (hn : n ≠ m)
    (hn' : grammar.Uses n (before ++ attached m x :: between ++ after)) :
    grammar.Uses n (before ++ (between ++ after)) := by
  rw [List.append_assoc, List.cons_append] at hn'
  exact (Grammar.uses_insert_iff hbefore (attached_ne_separator m x) (h.word_attached x)
    (fun hmem => hn (List.mem_singleton.mp hmem)) (between ++ after)).mp hn'

/-- No separator comes up with an argument that gives a value. -/
theorem separator_not_mem_cons (hplaces : "--" ∉ before ++ between) :
    "--" ∉ before ++ attached m x :: between := by
  rw [List.mem_append, not_or] at hplaces ⊢
  exact ⟨hplaces.1, List.not_mem_cons_of_ne_of_not_mem (attached_ne_separator m x).symm hplaces.2⟩

end Places

/-- The place of the directory of the index. -/
theorem exists_place_indexDir (p : Placement) (w : String) :
    ∃ before after, "--" ∉ before ∧
      (∀ d, p.arguments d w = before ++ attached "--index-dir" d :: after) ∧
      ∀ n, n ≠ "--wired-subdir" → grammar.Uses n (before ++ after) →
        grammar.Uses n p.others := by
  have hplaces := p.separator_not_mem
  have hbefore : "--" ∉ p.before := fun h => hplaces (List.mem_append_left _ h)
  by_cases hfirst : p.subdirFirst = true
  · exact ⟨_, p.after, separator_not_mem_cons hplaces, fun d => if_pos hfirst,
      fun n hn => uses_of_second sets_wiredSubdir hbefore hn⟩
  · refine ⟨p.before, p.between ++ attached "--wired-subdir" w :: p.after, hbefore, fun d => ?_,
      fun n hn => uses_of_first sets_wiredSubdir hplaces hn⟩
    rw [arguments, if_neg hfirst, List.append_assoc, List.cons_append]

/-- The place of the subdirectory. -/
theorem exists_place_wiredSubdir (p : Placement) (d : String) :
    ∃ before after, "--" ∉ before ∧
      (∀ w, p.arguments d w = before ++ attached "--wired-subdir" w :: after) ∧
      ∀ n, n ≠ "--index-dir" → grammar.Uses n (before ++ after) → grammar.Uses n p.others := by
  have hplaces := p.separator_not_mem
  have hbefore : "--" ∉ p.before := fun h => hplaces (List.mem_append_left _ h)
  by_cases hfirst : p.subdirFirst = true
  · refine ⟨p.before, p.between ++ attached "--index-dir" d :: p.after, hbefore, fun w => ?_,
      fun n hn => uses_of_first sets_indexDir hplaces hn⟩
    rw [arguments, if_pos hfirst, List.append_assoc, List.cons_append]
  · exact ⟨_, p.after, separator_not_mem_cons hplaces, fun w => if_neg hfirst,
      fun n hn => uses_of_second sets_indexDir hbefore hn⟩

end Placement

/-! ## What is kept of the directories -/

/-- A property of the directories is kept by every option but theirs. -/
theorem respects_directories {P : Settings → Prop} {unused : String}
    (hindex : unused ≠ "--index-dir" → ∀ x s, P s → P { s with indexDir := x })
    (hwired : unused ≠ "--wired-subdir" → ∀ x s, P s → P { s with wiredSubdir := x })
    (hother : ∀ s t : Settings, s.indexDir = t.indexDir → s.wiredSubdir = t.wiredSubdir →
      P s → P t) :
    ∀ o ∈ options, unused ∉ o.names → o.action.Respects (fun _ => True) (Changed P id) := by
  intro o ho hname
  simp only [options, List.mem_cons, List.not_mem_nil, or_false] at ho
  rcases ho with rfl | rfl | rfl | rfl | rfl | rfl | rfl | rfl | rfl
  · trivial
  · exact respects_value (fun _ s => hother s _ rfl rfl) fun _ _ => rfl
  · exact respects_value (hindex fun h => hname (List.mem_singleton.mpr h)) fun _ _ => rfl
  · exact respects_value (hwired fun h => hname (List.mem_singleton.mpr h)) fun _ _ => rfl
  · exact respects_chooseFamily (fun _ s => hother s _ rfl rfl) fun _ _ => rfl
  · exact respects_value (fun _ s => hother s _ rfl rfl) fun _ _ => rfl
  · exact respects_flag (fun s => hother s _ rfl rfl) fun _ => rfl
  · exact respects_value (fun _ s => hother s _ rfl rfl) fun _ _ => rfl
  · exact respects_flag (fun s => hother s _ rfl rfl) fun _ => rfl

namespace Placement

variable {p : Placement} {d w : String}

/-- The settings have the directories that are given, if the other arguments give none. -/
theorem layout_of_parse (hd : d ≠ "--") (hw : w ≠ "--")
    (hindex : ¬ grammar.Uses "--index-dir" p.others)
    (hwired : ¬ grammar.Uses "--wired-subdir" p.others)
    (hparse : grammar.parse {} (p.arguments d w) = .ok s) : s.layout = .ok (.ofArguments d w) := by
  have hdir : s.indexDir = some d := by
    obtain ⟨before, after, hbefore, harguments, huses⟩ := p.exists_place_indexDir w
    rw [harguments] at hparse
    exact sets_indexDir.of_parse (P := fun s => s.indexDir = some d) hbefore hd (fun _ => rfl)
      (respects_directories (fun h => absurd rfl h) (fun _ _ _ => id) fun s t h _ hs => h ▸ hs)
      (fun h => hindex (huses _ (by decide) h)) hparse
  have hsubdir : s.wiredSubdir = some w := by
    obtain ⟨before, after, hbefore, harguments, huses⟩ := p.exists_place_wiredSubdir d
    rw [harguments] at hparse
    exact sets_wiredSubdir.of_parse (P := fun s => s.wiredSubdir = some w) hbefore hw (fun _ => rfl)
      (respects_directories (fun _ _ _ => id) (fun h => absurd rfl h) fun s t _ h hs => h ▸ hs)
      (fun h => hwired (huses _ (by decide) h)) hparse
  exact Settings.layout_of_directories hdir hsubdir

/-- The manual is not asked for, if the other arguments do not ask for it. -/
theorem not_uses_help (hhelp : ¬ grammar.Uses "--help" p.others) :
    ¬ grammar.Uses "--help" (p.arguments d w) := by
  obtain ⟨before, after, hbefore, harguments, huses⟩ := p.exists_place_indexDir w
  rw [harguments, Grammar.uses_insert_iff hbefore (attached_ne_separator _ d)
    (sets_indexDir.word_attached d) (by decide)]
  exact fun h => hhelp (huses _ (by decide) h)

/-- Slashes at the ends of the directories are of no account. -/
theorem run_slashes (hd : d ≠ "--") (hw : w ≠ "--") (i j k : Nat) (v : Volume) :
    run (p.arguments (d ++ slashes k) (slashes i ++ w ++ slashes j)) v =
      run (p.arguments d w) v := by
  have hd' : d ++ slashes k ≠ "--" := by
    have hne := slashes_append_ne hd 0 k
    rwa [slashes, List.replicate_zero, String.ofList_nil, String.empty_append] at hne
  obtain ⟨before, after, hbefore, harguments, -⟩ :=
    p.exists_place_indexDir (slashes i ++ w ++ slashes j)
  obtain ⟨before', after', hbefore', harguments', -⟩ := p.exists_place_wiredSubdir d
  calc run (p.arguments (d ++ slashes k) (slashes i ++ w ++ slashes j)) v
      = run (p.arguments d (slashes i ++ w ++ slashes j)) v := by
        rw [harguments, harguments]
        refine sets_indexDir.run_eq hbefore hd' hd (fun s => ?_) after v
        simp only [Settings.stripped, Option.map_some, dropSlashes_append]
    _ = run (p.arguments d w) v := by
        rw [harguments', harguments']
        refine sets_wiredSubdir.run_eq hbefore' (slashes_append_ne hw i j) hw (fun s => ?_) after' v
        simp only [Settings.stripped, Option.map_some, trimSlashes_append]

/-- A run that succeeds, and not by showing the manual, shows its families by requests for the
layout with the directories, which are all in them. -/
theorem exists_located (hd : d ≠ "--") (hw : w ≠ "--")
    (hindex : ¬ grammar.Uses "--index-dir" p.others)
    (hwired : ¬ grammar.Uses "--wired-subdir" p.others) (hhelp : ¬ grammar.Uses "--help" p.others)
    (hrun : (run (p.arguments d w) v).ending = .exit 0) :
    ∃ s c text, Shows (p.arguments d w) v s c (.ofArguments d w) text ∧
      ∀ r ∈ s.requests c (.ofArguments d w), ∃ f ∈ s.selected c,
        Located (.ofArguments d w) d w f r := by
  obtain ⟨s, c, l, text, hshows⟩ := exists_shows (parse_ne_help (not_uses_help hhelp)) hrun
  have hlayout := layout_of_parse hd hw hindex hwired hshows.settings
  obtain rfl : l = .ofArguments d w := Except.ok.inj (hshows.layout.symm.trans hlayout)
  refine ⟨s, c, text, hshows, fun r hr => ?_⟩
  obtain ⟨f, hf, hr⟩ := List.mem_flatMap.mp hr
  exact ⟨f, hf, located_of_mem_ownRequests hr⟩

end Placement

/-! ## The law -/

/-- **Slashes at the ends of the directories are of no account, and the files are where the
directories say**, for all other arguments, wherever the two directories stand among them before a
separator. Slashes behind the directory of the index, and around the subdirectory, make the same run
as without them, whatever its outcome is. If the other arguments give no directory, a run that
succeeds, and not by showing the manual, shows its families by requests with all paths in the
directories, up to runs of slashes; the paths are absolute just if the directory of the index is
empty or starts with a slash. -/
theorem run_directories (p : Placement) {d w : String} (hd : d ≠ "--") (hw : w ≠ "--")
    (v : Volume) :
    (∀ i j k, run (p.arguments (d ++ slashes k) (slashes i ++ w ++ slashes j)) v =
      run (p.arguments d w) v) ∧
    (¬ grammar.Uses "--index-dir" p.others → ¬ grammar.Uses "--wired-subdir" p.others →
      ¬ grammar.Uses "--help" p.others → (run (p.arguments d w) v).ending = .exit 0 →
      ∃ s c text, Shows (p.arguments d w) v s c (.ofArguments d w) text ∧
        ∀ r ∈ s.requests c (.ofArguments d w), ∃ f ∈ s.selected c,
          Located (.ofArguments d w) d w f r) :=
  ⟨fun i j k => Placement.run_slashes hd hw i j k v, fun hindex hwired hhelp hrun =>
    Placement.exists_located hd hw hindex hwired hhelp hrun⟩

/-- The settings of a run that names the root by the empty directory. -/
def rootSettings : Settings :=
  { indexDir := some "", wiredSubdir := some "gen", verbose := true }

/-- Slashes alone name the root as the empty directory does, and the commands put the files
there. -/
theorem run_directories_root :
    run ["--wired-subdir=/gen/", "--verbose", "--index-dir=//"] ⟨[], []⟩ =
        run ["--wired-subdir=gen", "--verbose", "--index-dir="] ⟨[], []⟩ ∧
      Shows ["--wired-subdir=gen", "--verbose", "--index-dir="] ⟨[], []⟩ rootSettings .default
        (.ofArguments "" "gen")
        (renderRequests defaultExpander (rootSettings.requests .default (.ofArguments "" "gen"))) ∧
      ∀ r ∈ rootSettings.requests .default (.ofArguments "" "gen"),
        ∃ f ∈ rootSettings.selected .default, Located (.ofArguments "" "gen") "" "gen" f r := by
  have hunused : ∀ n, n ∉ ["--verbose"] → ¬ grammar.Uses n ["--verbose"] :=
    fun n hn => Grammar.not_uses_of_words_eq rfl hn
  obtain ⟨hslashes, hlocated⟩ := run_directories ⟨[], ["--verbose"], [], true, by decide⟩
    (d := "") (by decide) (w := "gen") (by decide) ⟨[], []⟩
  have hending :
      (run ["--wired-subdir=gen", "--verbose", "--index-dir="] ⟨[], []⟩).ending = .exit 0 := by
    have hkept : rootSettings.Kept := ⟨nofun, nofun, nofun⟩
    obtain ⟨r, hr⟩ := exists_prepare_eq_ok hkept rfl ⟨[], []⟩
    rw [run_eq_deliver rfl hr]
    rfl
  obtain ⟨s, c, text, hshows, hrequests⟩ := hlocated (hunused _ (by decide))
    (hunused _ (by decide)) (hunused _ (by decide)) hending
  obtain rfl : rootSettings = s := Except.ok.inj hshows.settings
  obtain rfl : Catalogue.default = c := Except.ok.inj hshows.catalogue
  rw [hshows.content.eq_renderRequests rfl rfl] at hshows
  exact ⟨hslashes 1 1 2, hshows, hrequests⟩

end BitReaders.Readers
