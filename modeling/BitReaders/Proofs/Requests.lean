import BitReaders.Proofs.Enumeration
import Mathlib.Data.List.Perm.Basic

/-!
# What is built for some families

The variants of all families are enumerated together, and then each family takes its own ones back.
Families may be equal, or one of them may be listed twice, so it has to be shown that each gets
back what it gave.

- `Family.ownRequests`: the request for a family and those for its variants, in order.
- `Labelled`: families under labels, where a label stands for one family. The labels may be finer
  than equality, as the identities of objects are. `returned_eq_variants`: if no variant repeats,
  each gets back exactly its variants.
- `buildLabelled`: the requests, with the variants redistributed by label; `buildLabelled_eq`: the
  labels are of no account.
- `buildRequests_eq`: the requests are those of each family in turn, after the two checks.
- `nodup_outputPaths_iff`: when the files are distinct.
- `buildRequests_eq_ok_iff`: **when and what is built**.
-/

namespace BitReaders

/-- The requests for a family: the unspecialised reader first, then its variants in order. -/
def Family.ownRequests (l : Layout) (f : Family) : List Request :=
  .generic f l :: f.variants.map (.ofVariant · l)

/-! ## Redistribution by label -/

section Labels

variable {ι : Type} [DecidableEq ι]

/-- A label stands for one family. -/
def Labelled (os : List (ι × Family)) : Prop :=
  ∀ o ∈ os, ∀ o' ∈ os, o.1 = o'.1 → o.2 = o'.2

/-- The variants of labelled families, each under the label of the family that it came from. -/
def labelledVariants (os : List (ι × Family)) : List (ι × Variant) :=
  os.flatMap fun o => o.2.variants.map fun v => (o.1, v)

/-- The variants under a label. -/
def returned (os : List (ι × Family)) (i : ι) : List Variant :=
  ((labelledVariants os).filter (·.1 = i)).map (·.2)

theorem returned_append (os os' : List (ι × Family)) (i : ι) :
    returned (os ++ os') i = returned os i ++ returned os' i := by
  rw [returned, labelledVariants, List.flatMap_append, List.filter_append, List.map_append]
  rfl

theorem returned_cons (o : ι × Family) (os : List (ι × Family)) (i : ι) :
    returned (o :: os) i = (if o.1 = i then o.2.variants else []) ++ returned os i := by
  rw [returned, labelledVariants, List.flatMap_cons, List.filter_append, List.map_append,
    List.filter_map, List.map_map]
  congr 1
  by_cases h : o.1 = i <;> simp [h, Function.comp_def]

/-- What is returned under a label came from a family under it. -/
theorem mem_returned {os : List (ι × Family)} {i : ι} {v : Variant} (h : v ∈ returned os i) :
    ∃ o ∈ os, o.1 = i ∧ v ∈ o.2.variants := by
  obtain ⟨e, he, rfl⟩ := List.mem_map.mp h
  obtain ⟨he, hi⟩ := List.mem_filter.mp he
  obtain ⟨o, ho, he⟩ := List.mem_flatMap.mp he
  obtain ⟨v, hv, rfl⟩ := List.mem_map.mp he
  exact ⟨o, ho, of_decide_eq_true hi, hv⟩

/-- **Each family gets back exactly its variants**, if no variant repeats. -/
theorem returned_eq_variants {os : List (ι × Family)} (hlabels : Labelled os)
    (hnodup : (os.flatMap (·.2.variants)).Nodup) {o : ι × Family} (ho : o ∈ os) :
    returned os o.1 = o.2.variants := by
  obtain ⟨before, after, rfl⟩ := List.append_of_mem ho
  rw [List.flatMap_append, List.flatMap_cons, List.nodup_append', List.nodup_append'] at hnodup
  obtain ⟨-, ⟨-, -, hafter⟩, hbefore⟩ := hnodup
  -- what another family under the label gives, this one gives as well: nothing, then
  have hsame : ∀ o' ∈ before ++ o :: after, o'.1 = o.1 → o'.2 = o.2 :=
    fun o' ho' hlabel => hlabels o' ho' o ho hlabel
  have hb : returned before o.1 = [] := by
    refine List.eq_nil_iff_forall_not_mem.mpr fun v hv => ?_
    obtain ⟨o', ho', hlabel, hv⟩ := mem_returned hv
    have hmem : v ∈ o.2.variants := hsame o' (List.mem_append_left _ ho') hlabel ▸ hv
    exact hbefore (List.mem_flatMap.mpr ⟨o', ho', hv⟩) (List.mem_append_left _ hmem)
  have ha : returned after o.1 = [] := by
    refine List.eq_nil_iff_forall_not_mem.mpr fun v hv => ?_
    obtain ⟨o', ho', hlabel, hv⟩ := mem_returned hv
    have hin : o' ∈ before ++ o :: after :=
      List.mem_append_right _ (List.mem_cons_of_mem o ho')
    have hmem : v ∈ o.2.variants := hsame o' hin hlabel ▸ hv
    exact hafter hmem (List.mem_flatMap.mpr ⟨o', ho', hv⟩)
  rw [returned_append, returned_cons, hb, ha, if_pos rfl, List.nil_append, List.append_nil]

/-- The requests of labelled families, with the variants redistributed by label. -/
def buildLabelled (os : List (ι × Family)) (l : Layout) : Except Repetition (List Request) :=
  match allVariants (os.map (·.2)) with
  | .error e => .error e
  | .ok _ =>
    let rs := os.flatMap fun o => .generic o.2 l :: (returned os o.1).map (.ofVariant · l)
    (checkUnique (rs.map Request.outputPath) outputPathLabel).map fun _ => rs

/-- The requests are those of each family in turn. -/
theorem flatMap_returned_eq {os : List (ι × Family)} (hlabels : Labelled os) (l : Layout)
    (hnodup : (((os.map (·.2)).flatMap Family.variants).map Variant.className).Nodup) :
    (os.flatMap fun o => Request.generic o.2 l :: (returned os o.1).map (.ofVariant · l)) =
      (os.map (·.2)).flatMap (Family.ownRequests l) := by
  have hvariants : (os.flatMap (·.2.variants)).Nodup := by
    rw [List.flatMap_map] at hnodup
    exact hnodup.of_map
  rw [List.flatMap_map]
  refine List.flatMap_congr fun o ho => ?_
  rw [returned_eq_variants hlabels hvariants ho]
  rfl

end Labels

/-- The variants of one family, filtered for another one. -/
theorem filter_variants (f i : Family) :
    f.variants.filter (·.family = i) = if f = i then f.variants else [] := by
  by_cases h : f = i
  · rw [if_pos h]
    refine List.filter_eq_self.mpr fun v hv => ?_
    exact decide_eq_true ((Family.family_of_mem_variants hv).trans h)
  · rw [if_neg h]
    refine List.filter_eq_nil_iff.mpr fun v hv hi => h ?_
    exact (Family.family_of_mem_variants hv).symm.trans (of_decide_eq_true hi)

/-- A family that is its own label gets back the variants that it is the family of. -/
theorem returned_self (fs : List Family) (i : Family) :
    returned (fs.map fun f => (f, f)) i =
      (fs.flatMap Family.variants).filter (·.family = i) := by
  induction fs with
  | nil => rfl
  | cons f fs ih =>
    rw [List.map_cons, returned_cons, ih, List.flatMap_cons, List.filter_append, filter_variants]

theorem labelled_self (fs : List Family) : Labelled (fs.map fun f => (f, f)) := by
  intro o ho o' ho' h
  obtain ⟨f, -, rfl⟩ := List.mem_map.mp ho
  obtain ⟨f', -, rfl⟩ := List.mem_map.mp ho'
  exact h

/-- **The requests are those of each family in turn**, if class names and files are distinct. The
class names are looked at first. -/
theorem buildRequests_eq (fs : List Family) (l : Layout) :
    buildRequests fs l =
      match firstRepeat? ((fs.flatMap Family.variants).map Variant.className) with
      | some n => .error ⟨classNameLabel, n⟩
      | none =>
        let rs := fs.flatMap (Family.ownRequests l)
        (checkUnique (rs.map Request.outputPath) outputPathLabel).map fun _ => rs := by
  cases hn : firstRepeat? ((fs.flatMap Family.variants).map Variant.className) with
  | some n =>
    have herror : allVariants fs = .error ⟨classNameLabel, n⟩ :=
      allVariants_eq_error_iff.mpr ⟨n, hn, rfl⟩
    rw [buildRequests, herror]
  | none =>
    have hnodup := firstRepeat?_eq_none_iff.mp hn
    have hok : allVariants fs = .ok (fs.flatMap Family.variants) :=
      allVariants_eq_ok_iff.mpr ⟨hnodup, rfl⟩
    have hself : (fs.map fun f => (f, f)).map (·.2) = fs := by
      rw [List.map_map]
      exact List.map_id fs
    have hrs := flatMap_returned_eq (labelled_self fs) l (by rw [hself]; exact hnodup)
    rw [hself, List.flatMap_map] at hrs
    simp only [returned_self] at hrs
    rw [buildRequests, hok]
    simp only [Family.requests, hrs]

/-- The requests are built iff class names and files are distinct. -/
theorem buildRequests_eq_ok_iff_nodup {fs : List Family} {l : Layout} {rs : List Request} :
    buildRequests fs l = .ok rs ↔
      ((fs.flatMap Family.variants).map Variant.className).Nodup ∧
        ((fs.flatMap (Family.ownRequests l)).map Request.outputPath).Nodup ∧
        rs = fs.flatMap (Family.ownRequests l) := by
  rw [buildRequests_eq, ← firstRepeat?_eq_none_iff]
  cases firstRepeat? ((fs.flatMap Family.variants).map Variant.className) with
  | some n => simp
  | none =>
    show ((checkUnique _ outputPathLabel).map fun _ => _) = .ok rs ↔ _
    rw [map_checkUnique_eq_ok_iff, eq_comm]
    exact (and_iff_right rfl).symm

/-- The labels are of no account. -/
theorem buildLabelled_eq {ι : Type} [DecidableEq ι] {os : List (ι × Family)} (h : Labelled os)
    (l : Layout) : buildLabelled os l = buildRequests (os.map (·.2)) l := by
  rw [buildLabelled, buildRequests_eq]
  cases hn : firstRepeat? (((os.map (·.2)).flatMap Family.variants).map Variant.className) with
  | some n => rw [allVariants_eq_error_iff.mpr ⟨n, hn, rfl⟩]
  | none =>
    have hnodup := firstRepeat?_eq_none_iff.mp hn
    rw [allVariants_eq_ok_iff.mpr ⟨hnodup, rfl⟩]
    simp only [flatMap_returned_eq h l hnodup]

/-! ## Files -/

namespace Layout

/-- The file for the reader `s`, a path below the directory of the index. -/
def outputPath (l : Layout) (s : String) : String :=
  l.indexDir ++ "/" ++ s ++ l.outputExt

theorem outputPath_injective (l : Layout) : Function.Injective l.outputPath := by
  intro s t h
  have hlist := congrArg String.toList h
  simp only [outputPath, String.toList_append] at hlist
  exact String.toList_inj.mp (List.append_cancel_left (List.append_cancel_right hlist))

/-- The path of a variant's file below the directory of the index, without the extension. -/
def wiredName (l : Layout) (className : String) : String :=
  l.wiredSubdir ++ "/" ++ className

theorem wiredName_injective (l : Layout) : Function.Injective l.wiredName := by
  intro s t h
  have hlist := congrArg String.toList h
  simp only [wiredName, String.toList_append] at hlist
  exact String.toList_inj.mp (List.append_cancel_left hlist)

theorem outputPath_ofVariant (l : Layout) (v : Variant) :
    (Request.ofVariant v l).outputPath = l.outputPath (l.wiredName v.className) := by
  simp [Request.ofVariant, variantOutputPath, outputPath, wiredName, String.append_assoc]

end Layout

/-- The files for some families are those for the suffixes and for the names of the variants. -/
theorem map_outputPath_ownRequests (fs : List Family) (l : Layout) :
    (fs.flatMap (Family.ownRequests l)).map Request.outputPath =
      (fs.flatMap fun f => f.suffix :: f.variants.map fun v => l.wiredName v.className).map
        l.outputPath := by
  rw [List.map_flatMap, List.map_flatMap]
  refine List.flatMap_congr fun f _ => ?_
  rw [Family.ownRequests, List.map_cons, List.map_map, List.map_cons, List.map_map]
  congr 1
  exact List.map_congr_left fun v _ => l.outputPath_ofVariant v

/-- The files of families whose class names are distinct are distinct iff the suffixes are, and no
suffix leads to the file of a variant. -/
theorem nodup_outputPaths_iff (fs : List Family) (l : Layout)
    (hnames : ((fs.flatMap Family.variants).map Variant.className).Nodup) :
    ((fs.flatMap (Family.ownRequests l)).map Request.outputPath).Nodup ↔
      (fs.map Family.suffix).Nodup ∧
        ∀ f ∈ fs, ∀ v ∈ fs.flatMap Family.variants,
          f.suffix ≠ l.wiredSubdir ++ "/" ++ v.className := by
  have hperm := List.map_append_flatMap_perm fs Family.suffix
    fun f => f.variants.map fun v => l.wiredName v.className
  have hvariants : (fs.flatMap fun f => f.variants.map fun v => l.wiredName v.className) =
      ((fs.flatMap Family.variants).map Variant.className).map l.wiredName := by
    rw [List.map_map, List.map_flatMap]
    rfl
  rw [map_outputPath_ownRequests, List.nodup_map_iff l.outputPath_injective, ← hperm.nodup_iff,
    hvariants, List.nodup_append']
  constructor
  · rintro ⟨hsuffixes, -, hdisjoint⟩
    refine ⟨hsuffixes, fun f hf v hv h => ?_⟩
    have hmem : f.suffix ∈ ((fs.flatMap Family.variants).map Variant.className).map l.wiredName :=
      List.mem_map.mpr ⟨v.className, List.mem_map_of_mem hv, h.symm⟩
    exact hdisjoint (List.mem_map_of_mem hf) hmem
  · rintro ⟨hsuffixes, hne⟩
    refine ⟨hsuffixes, hnames.map l.wiredName_injective, ?_⟩
    intro s hs hs'
    obtain ⟨f, hf, rfl⟩ := List.mem_map.mp hs
    obtain ⟨n, hn, heq⟩ := List.mem_map.mp hs'
    obtain ⟨v, hv, rfl⟩ := List.mem_map.mp hn
    exact hne f hf v hv heq.symm

/-! ## The law -/

/-- **When and what is built.** The requests are those of each family in turn, its own one before
those of its variants; they are built iff the class names are distinct, the suffixes are distinct,
and no suffix leads to the file of a variant. A class name that repeats is reported first. It makes
no difference if the variants go back to the families by labels of their own, such as the
identities of objects. -/
theorem buildRequests_eq_ok_iff (fs : List Family) (l : Layout) :
    (∀ rs, buildRequests fs l = .ok rs ↔
      (((fs.flatMap Family.variants).map Variant.className).Nodup ∧
        (fs.map Family.suffix).Nodup ∧
        ∀ f ∈ fs, ∀ v ∈ fs.flatMap Family.variants,
          f.suffix ≠ l.wiredSubdir ++ "/" ++ v.className) ∧
      rs = fs.flatMap fun f => Request.generic f l :: f.variants.map (.ofVariant · l)) ∧
    (¬ ((fs.flatMap Family.variants).map Variant.className).Nodup →
      ∃ n, buildRequests fs l = .error ⟨classNameLabel, n⟩) ∧
    ∀ {ι : Type} [DecidableEq ι] (os : List (ι × Family)), Labelled os → os.map (·.2) = fs →
      buildLabelled os l = buildRequests fs l := by
  refine ⟨?_, ?_, ?_⟩
  · intro rs
    rw [buildRequests_eq_ok_iff_nodup, and_assoc]
    refine and_congr_right fun hnames => ?_
    rw [nodup_outputPaths_iff fs l hnames]
    rfl
  · intro h
    obtain ⟨n, hn⟩ := Option.ne_none_iff_exists'.mp (mt firstRepeat?_eq_none_iff.mp h)
    exact ⟨n, by rw [buildRequests_eq, hn]⟩
  · rintro ι _ os hlabels rfl
    exact buildLabelled_eq hlabels l

/-- A family with one variant. -/
def Family.single : Family where
  name := "single"
  suffix := "Reader"
  frequencies := [.gamma]
  pointers := [.delta]
  counts := [.unary]
  positions := [.golomb]

/-- A family that is listed twice repeats its class names, also as two objects. -/
theorem buildRequests_eq_ok_iff_twice :
    (∃ n, buildRequests [Family.single, .single] {} = .error ⟨classNameLabel, n⟩) ∧
      buildLabelled [(0, Family.single), (1, .single)] {} =
        buildRequests [Family.single, .single] {} := by
  have htwice := buildRequests_eq_ok_iff [Family.single, .single] {}
  constructor
  · exact htwice.2.1 (by decide +kernel)
  · refine htwice.2.2 [(0, Family.single), (1, .single)] ?_ rfl
    unfold Labelled
    decide +kernel

end BitReaders
