import BitReaders.Proofs.Reachable
import BitReaders.Proofs.Requests

/-!
# No two requests write one file

Where the results go depends on two directories, which may be any strings. What they cannot change
is the name of a file, and that is made of a class name: no slash is in one.

- `fileName`: the part of a path after its last slash; `fileName_outputPath`: the file of a request
  is named for its class.
- `nodup_toLower_names`: suffixes and class names of families with default suffixes are distinct up
  to case, and so are the names of the files, by `nodup_toLower_fileNames`.
- `buildRequests_eq_findSome?`: what is built is decided by the class names of each family alone,
  for `pairwise_disjoint_classNames`: no class name is common to two families.
- `buildRequests_of_reachable`: **families are built one by one, and no file is written twice**, for
  every catalogue that documents lead to.
-/

namespace BitReaders

open Json (Value)

/-! ## File names -/

/-- The part of a path after its last slash. -/
def fileName (path : String) : String :=
  String.ofList (path.toList.reverse.takeWhile (· ≠ '/')).reverse

/-- What follows a slash and has none itself is a file name. -/
theorem fileName_append (d : String) {s : String} (h : '/' ∉ s.toList) :
    fileName (d ++ "/" ++ s) = s := by
  have hrev : (d ++ "/" ++ s).toList.reverse = s.toList.reverse ++ '/' :: d.toList.reverse := by
    simp [String.toList_append, List.reverse_append]
  have hall : ∀ c ∈ s.toList.reverse, decide (c ≠ '/') = true := by
    intro c hc
    refine decide_eq_true fun hslash => h ?_
    rw [← hslash]
    exact List.mem_reverse.mp hc
  rw [fileName, hrev, List.takeWhile_append_of_pos hall, List.takeWhile_cons_of_neg (by simp),
    List.append_nil, List.reverse_reverse, String.ofList_toList]

/-- The extension of the results is in lower case. -/
theorem toLower_append_extension (s : String) : (s ++ ".java").toLower = s.toLower ++ ".java" := by
  have hextension : ".java".toList.map Char.toLower = ".java".toList := by decide
  rw [← String.toList_inj, toList_toLower, String.toList_append, String.toList_append,
    toList_toLower, List.map_append, hextension]

/-! ## Names in words -/

namespace NameWord

theorem slash_not_mem (u : NameWord) : '/' ∉ u.text.toList := by
  have h : ∀ u ∈ all, '/' ∉ u.text.toList := by decide +kernel
  exact h u (mem_all u)

end NameWord

namespace Variant

theorem slash_not_mem_className {v : Variant} (h : v.family.suffix ∈ defaultSuffixes) :
    '/' ∉ v.className.toList := by
  obtain ⟨u, hu⟩ := NameWord.exists_text_eq_of_mem h
  rw [toList_className, List.mem_append, hu]
  rintro (hmem | hmem)
  · obtain ⟨w, -, hw⟩ := List.mem_flatMap.mp hmem
    exact w.slash_not_mem hw
  · exact u.slash_not_mem hmem

/-- Class names with default suffixes are equal if they are equal up to case. -/
theorem className_eq_of_toLower_eq {v w : Variant} (hv : v.family.suffix ∈ defaultSuffixes)
    (hw : w.family.suffix ∈ defaultSuffixes) (h : v.className.toLower = w.className.toLower) :
    v.className = w.className := by
  obtain ⟨a, ha⟩ := NameWord.exists_text_eq_of_mem hv
  obtain ⟨b, hb⟩ := NameWord.exists_text_eq_of_mem hw
  by_cases hab : a = b
  · have hsuffix : v.family.suffix = w.family.suffix := by rw [ha, hb, hab]
    exact (sameChoices_of_toLower_eq hsuffix h).className_eq hsuffix
  · exact absurd h (toLower_className_ne ha hb hab)

end Variant

/-! ## Families with default suffixes -/

section DefaultSuffixes

variable {fs : List Family}

theorem suffix_mem_of_mem_variants (hfs : (fs.map Family.suffix).Sublist defaultSuffixes)
    {v : Variant} (hv : v ∈ fs.flatMap Family.variants) : v.family.suffix ∈ defaultSuffixes := by
  obtain ⟨f, hf, hv⟩ := List.mem_flatMap.mp hv
  rw [Family.family_of_mem_variants hv]
  exact hfs.subset (List.mem_map_of_mem hf)

/-- Suffixes and class names that are distinct are distinct up to case, and a suffix is never a
class name. -/
theorem nodup_toLower_names (hfs : (fs.map Family.suffix).Sublist defaultSuffixes)
    (hnames : ((fs.flatMap Family.variants).map Variant.className).Nodup) :
    ((fs.flatMap fun f => f.suffix :: f.variants.map Variant.className).map
      String.toLower).Nodup := by
  have hperm := (List.map_append_flatMap_perm fs Family.suffix
    fun f => f.variants.map Variant.className).map String.toLower
  have hsuffixes : ((fs.map Family.suffix).map String.toLower).Nodup :=
    (hfs.map String.toLower).nodup (by decide +kernel)
  have hclasses : ((fs.flatMap fun f => f.variants.map Variant.className).map
      String.toLower).Nodup := by
    rw [← List.map_flatMap]
    refine hnames.map_on fun n hn m hm h => ?_
    obtain ⟨v, hv, rfl⟩ := List.mem_map.mp hn
    obtain ⟨w, hw, rfl⟩ := List.mem_map.mp hm
    exact Variant.className_eq_of_toLower_eq (suffix_mem_of_mem_variants hfs hv)
      (suffix_mem_of_mem_variants hfs hw) h
  rw [← hperm.nodup_iff, List.map_append, List.nodup_append']
  refine ⟨hsuffixes, hclasses, fun n hn hn' => ?_⟩
  obtain ⟨s, hs, rfl⟩ := List.mem_map.mp hn
  obtain ⟨m, hm, heq⟩ := List.mem_map.mp hn'
  rw [← List.map_flatMap] at hm
  obtain ⟨v, hv, rfl⟩ := List.mem_map.mp hm
  obtain ⟨u, hu⟩ := NameWord.exists_text_eq_of_mem (suffix_mem_of_mem_variants hfs hv)
  obtain ⟨u', rfl⟩ := NameWord.exists_text_eq_of_mem (hfs.subset hs)
  exact Variant.toLower_className_ne_text hu u' heq

/-- Class names of different families never collide. -/
theorem pairwise_disjoint_classNames (hfs : (fs.map Family.suffix).Sublist defaultSuffixes) :
    fs.Pairwise fun f g =>
      (f.variants.map Variant.className).Disjoint (g.variants.map Variant.className) := by
  have hne : fs.Pairwise fun f g => f.suffix ≠ g.suffix :=
    List.pairwise_map.mp (hfs.nodup (by decide))
  refine hne.imp_of_mem fun {f g} hf hg hne n hn hn' => ?_
  obtain ⟨v, hv, rfl⟩ := List.mem_map.mp hn
  obtain ⟨w, hw, heq⟩ := List.mem_map.mp hn'
  obtain ⟨a, ha⟩ := NameWord.exists_text_eq_of_mem (hfs.subset (List.mem_map_of_mem hf))
  obtain ⟨b, hb⟩ := NameWord.exists_text_eq_of_mem (hfs.subset (List.mem_map_of_mem hg))
  have hva : v.family.suffix = a.text := by rw [Family.family_of_mem_variants hv, ha]
  have hwb : w.family.suffix = b.text := by rw [Family.family_of_mem_variants hw, hb]
  have hab : a ≠ b := by
    rintro rfl
    exact hne (ha.trans hb.symm)
  exact Variant.toLower_className_ne hva hwb hab (congrArg String.toLower heq.symm)

end DefaultSuffixes

/-! ## Files -/

/-- The layout with some directories and the default extensions. -/
def Layout.ofDirectories (indexDir wiredSubdir : String) : Layout :=
  { indexDir, wiredSubdir }

theorem mem_ownRequests {l : Layout} {f : Family} {r : Request} (h : r ∈ f.ownRequests l) :
    r = .generic f l ∨ ∃ v ∈ f.variants, r = .ofVariant v l := by
  rcases List.mem_cons.mp h with rfl | h
  · exact .inl rfl
  · obtain ⟨v, hv, rfl⟩ := List.mem_map.mp h
    exact .inr ⟨v, hv, rfl⟩

/-- All requests for a family expand its template. -/
theorem templatePath_of_mem_ownRequests {l : Layout} {f : Family} {r : Request}
    (h : r ∈ f.ownRequests l) : r.templatePath = l.templatePath f := by
  rcases mem_ownRequests h with rfl | ⟨v, hv, rfl⟩
  · rfl
  · show l.templatePath v.family = _
    rw [Family.family_of_mem_variants hv]

section Directories

variable {d w : String}

/-- The file of a request is named for its class. -/
theorem fileName_outputPath {f : Family} (hf : f.suffix ∈ defaultSuffixes) {r : Request}
    (h : r ∈ f.ownRequests (.ofDirectories d w)) :
    fileName r.outputPath = r.className ++ ".java" := by
  have hext : ∀ {s : String}, '/' ∉ s.toList → '/' ∉ (s ++ ".java").toList := by
    intro s hs
    simp [String.toList_append, hs]
  rcases mem_ownRequests h with rfl | ⟨v, hv, rfl⟩
  · obtain ⟨u, hu⟩ := NameWord.exists_text_eq_of_mem hf
    have hslash : '/' ∉ f.suffix.toList := by
      rw [hu]
      exact u.slash_not_mem
    have hpath : (Request.generic f (.ofDirectories d w)).outputPath =
        d ++ "/" ++ (f.suffix ++ ".java") := String.append_assoc
    rw [hpath, fileName_append d (hext hslash)]
    rfl
  · have hslash : '/' ∉ v.className.toList := by
      refine Variant.slash_not_mem_className ?_
      rw [Family.family_of_mem_variants hv]
      exact hf
    have hpath : (Request.ofVariant v (.ofDirectories d w)).outputPath =
        d ++ "/" ++ w ++ "/" ++ (v.className ++ ".java") := String.append_assoc
    rw [hpath, fileName_append _ (hext hslash)]
    rfl

/-- The path of a result ends in the extension of results. -/
theorem exists_outputPath_eq {f : Family} {r : Request}
    (h : r ∈ f.ownRequests (.ofDirectories d w)) : ∃ s, r.outputPath = s ++ ".java" := by
  rcases mem_ownRequests h with rfl | ⟨v, -, rfl⟩
  · exact ⟨_, rfl⟩
  · exact ⟨_, rfl⟩

/-- The path of a template ends in the extension of templates. -/
theorem exists_templatePath_eq {f : Family} {r : Request}
    (h : r ∈ f.ownRequests (.ofDirectories d w)) : ∃ s, r.templatePath = s ++ ".c" := by
  rcases mem_ownRequests h with rfl | ⟨v, -, rfl⟩
  · exact ⟨_, rfl⟩
  · exact ⟨_, rfl⟩

/-- No result is a template: the last letters of the extensions differ. -/
theorem outputPath_ne_templatePath {f g : Family} {r r' : Request}
    (hr : r ∈ f.ownRequests (.ofDirectories d w)) (hr' : r' ∈ g.ownRequests (.ofDirectories d w)) :
    r.outputPath ≠ r'.templatePath := by
  intro h
  obtain ⟨s, hs⟩ := exists_outputPath_eq hr
  obtain ⟨t, ht⟩ := exists_templatePath_eq hr'
  have hlast := congrArg (fun p => p.toList.getLast?) (hs.symm.trans (h.trans ht))
  simp [String.toList_append, List.getLast?_append] at hlast

/-! ## Families at once and one by one -/

variable {fs : List Family}

/-- The class names of the requests are the suffixes and the class names of the variants. -/
theorem map_className_ownRequests (fs : List Family) (l : Layout) :
    (fs.flatMap (Family.ownRequests l)).map Request.className =
      fs.flatMap fun f => f.suffix :: f.variants.map Variant.className := by
  rw [List.map_flatMap]
  refine List.flatMap_congr fun f _ => ?_
  rw [Family.ownRequests, List.map_cons, List.map_map]
  rfl

/-- The names of the files are distinct up to case, if the class names are distinct. -/
theorem nodup_toLower_fileNames (hfs : (fs.map Family.suffix).Sublist defaultSuffixes)
    (hnames : ((fs.flatMap Family.variants).map Variant.className).Nodup) :
    ((fs.flatMap (Family.ownRequests (.ofDirectories d w))).map fun r =>
      (fileName r.outputPath).toLower).Nodup := by
  have hfiles : ((fs.flatMap (Family.ownRequests (.ofDirectories d w))).map fun r =>
      (fileName r.outputPath).toLower) =
        (((fs.flatMap (Family.ownRequests (.ofDirectories d w))).map Request.className).map
          String.toLower).map (· ++ ".java") := by
    rw [List.map_map, List.map_map]
    refine List.map_congr_left fun r hr => ?_
    obtain ⟨f, hf, hr⟩ := List.mem_flatMap.mp hr
    rw [fileName_outputPath (hfs.subset (List.mem_map_of_mem hf)) hr]
    exact toLower_append_extension r.className
  rw [hfiles, map_className_ownRequests]
  refine (nodup_toLower_names hfs hnames).map fun s t h => ?_
  have hlist := congrArg String.toList h
  simp only [String.toList_append] at hlist
  exact String.toList_inj.mp (List.append_cancel_right hlist)

/-- What is built for families with default suffixes, or why not: only the class names within one
family are left to check. -/
theorem buildRequests_eq_findSome? (hfs : (fs.map Family.suffix).Sublist defaultSuffixes)
    (d w : String) :
    buildRequests fs (.ofDirectories d w) =
      match fs.findSome? fun f => firstRepeat? (f.variants.map Variant.className) with
      | some n => .error ⟨classNameLabel, n⟩
      | none => .ok (fs.flatMap (Family.ownRequests (.ofDirectories d w))) := by
  have hfirst := firstRepeat?_flatMap (pairwise_disjoint_classNames hfs)
  rw [← List.map_flatMap] at hfirst
  rw [buildRequests_eq, hfirst]
  cases hn : fs.findSome? fun f => firstRepeat? (f.variants.map Variant.className) with
  | some n => rfl
  | none =>
    have hnames := firstRepeat?_eq_none_iff.mp (hfirst.trans hn)
    have hpaths : ((fs.flatMap (Family.ownRequests (.ofDirectories d w))).map
        Request.outputPath).Nodup := by
      have hfiles := nodup_toLower_fileNames (d := d) (w := w) hfs hnames
      have hcomp := List.map_map (f := Request.outputPath) (g := fun p => (fileName p).toLower)
        (l := fs.flatMap (Family.ownRequests (.ofDirectories d w)))
      exact List.Nodup.of_map _ (hcomp ▸ hfiles)
    exact map_checkUnique_eq_ok_iff.mpr ⟨hpaths, rfl⟩

/-- What is built for one family with a default suffix, or why not. -/
theorem buildRequests_singleton_eq {g : Family} (hg : g.suffix ∈ defaultSuffixes) (d w : String) :
    buildRequests [g] (.ofDirectories d w) =
      match firstRepeat? (g.variants.map Variant.className) with
      | some n => .error ⟨classNameLabel, n⟩
      | none => .ok (g.ownRequests (.ofDirectories d w)) := by
  have hone : ([g].map Family.suffix).Sublist defaultSuffixes := List.singleton_sublist.mpr hg
  rw [buildRequests_eq_findSome? hone, List.findSome?_singleton, List.flatMap_singleton]

theorem buildRequests_singleton_eq_ok_iff {g : Family} (hg : g.suffix ∈ defaultSuffixes)
    {rs : List Request} :
    buildRequests [g] (.ofDirectories d w) = .ok rs ↔
      firstRepeat? (g.variants.map Variant.className) = none ∧
        rs = g.ownRequests (.ofDirectories d w) := by
  rw [buildRequests_singleton_eq hg]
  cases firstRepeat? (g.variants.map Variant.className) <;> simp [eq_comm]

theorem buildRequests_singleton_eq_error_iff {g : Family} (hg : g.suffix ∈ defaultSuffixes)
    {e : Repetition} :
    buildRequests [g] (.ofDirectories d w) = .error e ↔
      ∃ n, firstRepeat? (g.variants.map Variant.className) = some n ∧ e = ⟨classNameLabel, n⟩ := by
  rw [buildRequests_singleton_eq hg]
  cases firstRepeat? (g.variants.map Variant.className) <;> simp [eq_comm]

/-- An error is that of the first family that has one. -/
theorem buildRequests_eq_error_iff (hfs : (fs.map Family.suffix).Sublist defaultSuffixes)
    {e : Repetition} :
    buildRequests fs (.ofDirectories d w) = .error e ↔
      ∃ before g after, fs = before ++ g :: after ∧
        (∀ b ∈ before, ∃ rs, buildRequests [b] (.ofDirectories d w) = .ok rs) ∧
        buildRequests [g] (.ofDirectories d w) = .error e := by
  have hmem : ∀ {g}, g ∈ fs → g.suffix ∈ defaultSuffixes :=
    fun hg => hfs.subset (List.mem_map_of_mem hg)
  rw [buildRequests_eq_findSome? hfs]
  constructor
  · intro h
    cases hn : fs.findSome? fun f => firstRepeat? (f.variants.map Variant.className) with
    | none => simp [hn] at h
    | some n =>
      rw [hn] at h
      cases h
      obtain ⟨before, g, after, rfl, hg, hbefore⟩ := List.findSome?_eq_some_iff.mp hn
      refine ⟨before, g, after, rfl, fun b hb => ⟨b.ownRequests (.ofDirectories d w), ?_⟩, ?_⟩
      · exact (buildRequests_singleton_eq_ok_iff (hmem (List.mem_append_left _ hb))).mpr
          ⟨hbefore b hb, rfl⟩
      · exact (buildRequests_singleton_eq_error_iff (hmem (by simp))).mpr ⟨n, hg, rfl⟩
  · rintro ⟨before, g, after, rfl, hbefore, hg⟩
    obtain ⟨n, hn, rfl⟩ := (buildRequests_singleton_eq_error_iff (hmem (by simp))).mp hg
    have hfirst : (before ++ g :: after).findSome?
        (fun f => firstRepeat? (f.variants.map Variant.className)) = some n := by
      refine List.findSome?_eq_some_iff.mpr ⟨before, g, after, rfl, hn, fun b hb => ?_⟩
      obtain ⟨rs, hrs⟩ := hbefore b hb
      exact ((buildRequests_singleton_eq_ok_iff (hmem (List.mem_append_left _ hb))).mp hrs).1
    rw [hfirst]

/-- What is built is what is built for each family, one after the other. -/
theorem forall₂_of_buildRequests_eq_ok (hfs : (fs.map Family.suffix).Sublist defaultSuffixes)
    {rs : List Request} (h : buildRequests fs (.ofDirectories d w) = .ok rs) :
    List.Forall₂ (fun g own => buildRequests [g] (.ofDirectories d w) = .ok own) fs
      (fs.map (Family.ownRequests (.ofDirectories d w))) := by
  rw [buildRequests_eq_findSome? hfs] at h
  cases hn : fs.findSome? fun f => firstRepeat? (f.variants.map Variant.className) with
  | some n => simp [hn] at h
  | none =>
    refine List.forall₂_map_right_iff.mpr (List.forall₂_same.mpr fun g hg => ?_)
    exact (buildRequests_singleton_eq_ok_iff (hfs.subset (List.mem_map_of_mem hg))).mpr
      ⟨List.findSome?_eq_none_iff.mp hn g hg, rfl⟩

/-- Nothing is built iff one family alone cannot be built. -/
theorem exists_buildRequests_eq_error_iff (hfs : (fs.map Family.suffix).Sublist defaultSuffixes) :
    (∃ e, buildRequests fs (.ofDirectories d w) = .error e) ↔
      ∃ g ∈ fs, ∃ e, buildRequests [g] (.ofDirectories d w) = .error e := by
  constructor
  · rintro ⟨e, h⟩
    obtain ⟨before, g, after, rfl, -, hg⟩ := (buildRequests_eq_error_iff hfs).mp h
    exact ⟨g, by simp, e, hg⟩
  · rintro ⟨g, hg, e, h⟩
    obtain ⟨n, hn, -⟩ :=
      (buildRequests_singleton_eq_error_iff (hfs.subset (List.mem_map_of_mem hg))).mp h
    have hsome : (fs.findSome? fun f => firstRepeat? (f.variants.map Variant.className)) ≠ none :=
      fun hnone => by simp [List.findSome?_eq_none_iff.mp hnone g hg] at hn
    obtain ⟨m, hm⟩ := Option.ne_none_iff_exists'.mp hsome
    exact ⟨⟨classNameLabel, m⟩, by rw [buildRequests_eq_findSome? hfs, hm]⟩

end Directories

/-! ## The law -/

/-- **Families of any catalogue that documents lead to are built one by one, and no file is written
twice**, whatever the directories are. Some families in the order of the catalogue fail iff one of
them alone fails, and then as the first such one does: on a class name, never on a file. Otherwise
the requests are those of each family in turn, the names of their files are distinct up to case, and
none of the files is a template. -/
theorem buildRequests_of_reachable {c : Catalogue} (hc : c.Reachable) {fs : List Family}
    (hfs : fs.Sublist c.families) (d w : String) :
    ((∃ e, buildRequests fs (.ofDirectories d w) = .error e) ↔
      ∃ g ∈ fs, ∃ e, buildRequests [g] (.ofDirectories d w) = .error e) ∧
    (∀ e, buildRequests fs (.ofDirectories d w) = .error e →
      e.what = classNameLabel ∧
      ∃ before g after, fs = before ++ g :: after ∧
        (∀ b ∈ before, ∃ rs, buildRequests [b] (.ofDirectories d w) = .ok rs) ∧
        buildRequests [g] (.ofDirectories d w) = .error e) ∧
    ∀ rs, buildRequests fs (.ofDirectories d w) = .ok rs →
      (∃ rss, List.Forall₂ (fun g own => buildRequests [g] (.ofDirectories d w) = .ok own) fs rss ∧
        rs = rss.flatten) ∧
      (rs.map fun r => (fileName r.outputPath).toLower).Nodup ∧
      ∀ r ∈ rs, ∀ r' ∈ rs, r.outputPath ≠ r'.templatePath := by
  have hsuffixes : (fs.map Family.suffix).Sublist defaultSuffixes := by
    rw [← hc.map_suffix_eq]
    exact hfs.map Family.suffix
  refine ⟨exists_buildRequests_eq_error_iff hsuffixes, fun e h => ⟨?_, ?_⟩, fun rs h => ?_⟩
  · obtain ⟨before, g, after, rfl, -, hg⟩ := (buildRequests_eq_error_iff hsuffixes).mp h
    have hsuffix : g.suffix ∈ defaultSuffixes :=
      hsuffixes.subset (List.mem_map_of_mem (by simp))
    obtain ⟨n, -, rfl⟩ := (buildRequests_singleton_eq_error_iff hsuffix).mp hg
    rfl
  · exact (buildRequests_eq_error_iff hsuffixes).mp h
  · have hbuilt := forall₂_of_buildRequests_eq_ok hsuffixes h
    obtain ⟨hnames, -, rfl⟩ := buildRequests_eq_ok_iff_nodup.mp h
    refine ⟨⟨_, hbuilt, ?_⟩, nodup_toLower_fileNames hsuffixes hnames, fun r hr r' hr' => ?_⟩
    · exact List.flatMap_def
    · obtain ⟨f, -, hr⟩ := List.mem_flatMap.mp hr
      obtain ⟨f', -, hr'⟩ := List.mem_flatMap.mp hr'
      exact outputPath_ne_templatePath hr hr'

/-- A document that leaves the standard readers one scheme on each axis but the counts, and repeats
a scheme of the high-performance ones. -/
def crowdedDocument : Value :=
  .object [(Text.ofString "families", .object
    [(Text.ofString "standard", .object
      [(Text.ofString "frequencies", .array [.string (Text.ofString "gamma")]),
        (Text.ofString "pointers", .array [.string (Text.ofString "delta")]),
        (Text.ofString "positions", .array [.null])]),
      (Text.ofString "high-performance", .object
        [(Text.ofString "counts",
          .array [.string (Text.ofString "unary"), .string (Text.ofString "unary")])])])]

/-- After that document one family fails, and the other is built without a collision, in the
directory above and with no subdirectory. -/
theorem buildRequests_of_reachable_crowded :
    ∃ c, Catalogue.default.override crowdedDocument = .ok c ∧
      (∃ g ∈ c.families, ∃ e, buildRequests [g] (.ofDirectories ".." "") = .error e) ∧
      ∃ rs, buildRequests (c.families.take 1) (.ofDirectories ".." "") = .ok rs ∧
        (rs.map fun r => (fileName r.outputPath).toLower).Nodup := by
  refine ⟨_, rfl, ?_⟩
  have hc := Catalogue.Reachable.override .default
    (show Catalogue.default.override crowdedDocument = .ok _ from rfl)
  constructor
  · exact (buildRequests_of_reachable hc (.refl _) ".." "").1.mp ⟨_, rfl⟩
  · exact ⟨_, rfl, ((buildRequests_of_reachable hc (List.take_sublist 1 _) ".." "").2.2 _ rfl).2.1⟩

end BitReaders
