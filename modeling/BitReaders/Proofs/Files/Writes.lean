import BitReaders.Files.Access
import Mathlib.Data.List.Basic

/-!
# Writing to a volume

A write makes the directories that are missing and then sets one file. If it fails, directories may
have been made, but every regular file is as it was.

- `Volume.Grows`: directories have been made where nothing was, and nothing else has happened.
- `Volume.SameFiles`: the regular files are the same.
- `Volume.Wrote`: the file that a path leads to has some content, and all other regular files are
  the same.
- `Grows.locate_eq_ok`: a path leads to the same place when directories are made.
- `ensureDirectory_grows`: so does making a directory, whether or not it succeeds.
- `writeText_cases`: **a write fails and keeps every file**, or it sets the one file.
-/

namespace BitReaders

namespace Volume

variable {u v w : Volume}

/-! ## The files of two volumes -/

/-- The regular files of two volumes, with their octets, are the same. -/
def SameFiles (v w : Volume) : Prop :=
  ∀ l content, v.get? l = some (.file content) ↔ w.get? l = some (.file content)

theorem SameFiles.refl (v : Volume) : v.SameFiles v :=
  fun _ _ => Iff.rfl

theorem SameFiles.trans (h : u.SameFiles v) (h' : v.SameFiles w) : u.SameFiles w :=
  fun l content => (h l content).trans (h' l content)

/-- The path leads to a file with the given content in the later volume `w`; every other regular
file is the same in both. -/
def Wrote (v w : Volume) (p : Path) (content : Octets) : Prop :=
  ∃ l, w.locate p = .ok l ∧ w.get? l = some (.file content) ∧
    ∀ m, m ≠ l → ∀ c, v.get? m = some (.file c) ↔ w.get? m = some (.file c)

theorem Wrote.readFile {p : Path} {content : Octets} (h : v.Wrote w p content) :
    w.readFile p = .ok content := by
  obtain ⟨l, hl, hcontent, -⟩ := h
  simp only [Volume.readFile, hl, hcontent]

/-- A document is read from the octets of the file that its path leads to. -/
theorem readDocument_eq_documentOf {p : Path} {content : Octets} (h : v.readFile p = .ok content)
    (hnull : p.hasNull = false) : v.readDocument p = documentOf p content := by
  rw [readDocument, if_neg (by rw [hnull]; exact Bool.false_ne_true), h]

/-! ## Growth by directories -/

/-- The later volume `w` has more directories, where nothing was in `v`, and is else the same. -/
structure Grows (v w : Volume) : Prop where
  entries : ∀ {l e}, v.get? l = some e → w.get? l = some e
  new : ∀ {l}, v.get? l = none → w.get? l = none ∨ w.get? l = some .directory
  workingDirectory : w.workingDirectory = v.workingDirectory

namespace Grows

theorem refl (v : Volume) : v.Grows v :=
  ⟨id, .inl, rfl⟩

theorem trans (h : u.Grows v) (h' : v.Grows w) : u.Grows w where
  entries hl := h'.entries (h.entries hl)
  new hl := by
    rcases h.new hl with hl | hl
    · exact h'.new hl
    · exact .inr (h'.entries hl)
  workingDirectory := h'.workingDirectory.trans h.workingDirectory

/-- No file is made or changed. -/
theorem sameFiles (h : v.Grows w) : v.SameFiles w := by
  refine fun l content => ⟨h.entries, fun hw => ?_⟩
  cases hl : v.get? l with
  | none =>
    rcases h.new hl with hnew | hnew
    · cases hnew.symm.trans hw
    · cases hnew.symm.trans hw
  | some e => exact (h.entries hl).symm.trans hw

end Grows

/-- A directory where nothing was. -/
theorem grows_put_directory {l : Location} (hl : v.get? l = none) :
    v.Grows (v.put l .directory) := by
  have hroot : l ≠ [] := by
    rintro rfl
    cases hl
  refine ⟨fun {m e} hm => ?_, fun {m} hm => ?_, rfl⟩
  · have hne : m ≠ l := by
      rintro rfl
      cases hl.symm.trans hm
    rwa [get?_put_of_ne v hne]
  · by_cases h : m = l
    · exact .inr (h ▸ get?_put_self v hroot .directory)
    · exact .inl (by rwa [get?_put_of_ne v h])

/-! ## Where paths lead -/

/-- Names lead to the same place in a volume with the same directories and more. -/
theorem walk_eq_ok (h : ∀ l, v.get? l = some .directory → w.get? l = some .directory)
    {ns : List String} {l k : Location} (hwalk : v.walk l ns = .ok k) : w.walk l ns = .ok k := by
  induction ns generalizing l with
  | nil => exact hwalk
  | cons n ns ih =>
    rw [walk] at hwalk ⊢
    by_cases hn : n = ".."
    · rw [if_pos hn] at hwalk ⊢
      exact ih hwalk
    · rw [if_neg hn] at hwalk ⊢
      split at hwalk
      · cases hwalk
      · cases hwalk
      · rename_i hdir
        simp only [h _ hdir]
        exact ih hwalk

/-- A path leads to the same place. -/
theorem locate_eq_ok (h : ∀ l, v.get? l = some .directory → w.get? l = some .directory)
    (hdir : w.workingDirectory = v.workingDirectory) {p : Path} {l : Location}
    (hlocate : v.locate p = .ok l) : w.locate p = .ok l := by
  have hstart : w.start p = v.start p := by rw [start, start, hdir]
  rw [locate] at hlocate ⊢
  rw [hstart]
  split at hlocate
  · exact hlocate
  · rename_i n _
    cases hwalk : v.walk (v.start p) p.names.dropLast with
    | error e =>
      rw [hwalk] at hlocate
      cases hlocate
    | ok k =>
      rw [hwalk] at hlocate
      rw [walk_eq_ok h hwalk]
      exact hlocate

/-! ## Making directories -/

theorem makeDirectory_grows {p : Path} (h : v.makeDirectory p = .ok w) : v.Grows w := by
  unfold makeDirectory at h
  split at h
  · cases h
  · split at h
    · rename_i hl
      cases h
      exact grows_put_directory hl
    · cases h

/-- Directories only are made, from the first that is missing down, even if one cannot be made. -/
theorem ensureNames_grows (root : String) (ns : List String) (v : Volume) :
    v.Grows (ensureNames root ns v).2 := by
  induction ns with
  | nil => exact .refl v
  | cons n above ih =>
    rw [ensureNames]
    split
    · rename_i hmake
      exact makeDirectory_grows hmake
    · -- A directory above is missing: those above are made first, even if they do not all succeed.
      split
      · rename_i habove
        rw [habove] at ih
        exact ih
      · rename_i u habove
        rw [habove] at ih
        split
        · rename_i hmake
          exact ih.trans (makeDirectory_grows hmake)
        · exact ih
    · exact .refl v

/-- The fault of a directory that cannot be made is that of a path. -/
theorem exists_path_of_ensureNames_eq_error {root : String} {ns : List String} {v w : Volume}
    {f : Fault} (h : ensureNames root ns v = (.error f, w)) : ∃ problem p, f = .path problem p := by
  induction ns generalizing f w with
  | nil => cases h
  | cons n above ih =>
    rw [ensureNames] at h
    simp only at h
    split at h
    · cases h
    · split at h
      · rename_i habove
        cases h
        exact ih habove
      · split at h
        · cases h
        · obtain ⟨h, -⟩ := Prod.mk.inj h
          split at h
          · cases h
          · cases h
            exact ⟨_, _, rfl⟩
    · obtain ⟨h, -⟩ := Prod.mk.inj h
      split at h
      · cases h
      · cases h
        exact ⟨_, _, rfl⟩

theorem ensureDirectory_grows (v : Volume) (p : Path) : v.Grows (v.ensureDirectory p).2 := by
  unfold ensureDirectory
  split
  · exact .refl v
  · exact ensureNames_grows p.root p.names.reverse v

/-! ## Writing a file -/

/-- A file is set where its path leads; no directory is in its place. -/
theorem writeFile_eq_ok {p : Path} {content : Octets} (h : v.writeFile p content = .ok w) :
    ∃ l, v.locate p = .ok l ∧ v.get? l ≠ some .directory ∧ w = v.put l (.file content) := by
  unfold writeFile at h
  split at h
  · cases h
  · rename_i l hl
    split at h
    · cases h
    · rename_i hdir
      cases h
      exact ⟨l, hl, hdir, rfl⟩

/-- What is written is where the path leads afterwards, since no directory on the way is touched. -/
theorem wrote_put {p : Path} {l : Location} (hl : v.locate p = .ok l)
    (hdir : v.get? l ≠ some .directory) (content : Octets) :
    v.Wrote (v.put l (.file content)) p content := by
  -- The root is a directory.
  have hroot : l ≠ [] := by
    rintro rfl
    exact hdir rfl
  have hkept : ∀ m, v.get? m = some .directory →
      (v.put l (.file content)).get? m = some .directory := by
    intro m hm
    have hne : m ≠ l := by
      rintro rfl
      exact hdir hm
    rwa [get?_put_of_ne v hne]
  have hlocate : (v.put l (.file content)).locate p = .ok l := locate_eq_ok hkept rfl hl
  exact ⟨l, hlocate, get?_put_self v hroot _, fun m hm c => by rw [get?_put_of_ne v hm]⟩

theorem Grows.wrote (h : u.Grows v) {p : Path} {content : Octets} (hw : v.Wrote w p content) :
    u.Wrote w p content := by
  obtain ⟨l, hl, hcontent, hothers⟩ := hw
  exact ⟨l, hl, hcontent, fun m hm c => (h.sameFiles m c).trans (hothers m hm c)⟩

/-- **A write fails and keeps every file**, or it sets the file that the path leads to and keeps all
others. -/
theorem writeText_cases (v : Volume) (p : Path) (text : String) :
    (∃ f w, v.writeText p text = (.error f, w) ∧ v.Grows w) ∨
      ∃ w, v.writeText p text = (.ok (), w) ∧ v.Wrote w p (Utf8.encode text.toList) := by
  have hgrows := v.ensureDirectory_grows p.parent
  -- Each fault comes before the file is touched; by then there may be more directories.
  unfold writeText
  split
  · rename_i f w hensure
    rw [hensure] at hgrows
    exact .inl ⟨f, w, rfl, hgrows⟩
  · rename_i w hensure
    rw [hensure] at hgrows
    split
    · exact .inl ⟨.nullCharacter, w, rfl, hgrows⟩
    · split
      · rename_i e _
        exact .inl ⟨.path e p, w, rfl, hgrows⟩
      · rename_i u hwrite
        obtain ⟨l, hl, hdir, rfl⟩ := writeFile_eq_ok hwrite
        exact .inr ⟨_, rfl, hgrows.wrote (wrote_put hl hdir _)⟩

/-- A path without null characters fails only where it cannot be used. -/
theorem exists_path_of_writeText_eq_error {v w : Volume} {p : Path} {text : String} {f : Fault}
    (h : v.writeText p text = (.error f, w)) (hnull : p.hasNull = false) :
    ∃ problem q, f = .path problem q := by
  have hparent : p.parent.hasNull = false := by
    rw [Path.hasNull, List.any_eq_false] at hnull ⊢
    exact fun n hn => hnull n (List.dropLast_subset _ hn)
  unfold writeText at h
  split at h
  · rename_i g u hensure
    cases h
    rw [ensureDirectory, hparent] at hensure
    exact exists_path_of_ensureNames_eq_error hensure
  · rw [hnull] at h
    simp only [Bool.false_eq_true, if_false] at h
    split at h
    · cases h
      exact ⟨_, _, rfl⟩
    · cases h

end Volume

/-! ## Null characters -/

/-- The pieces of a list hold characters of it. -/
theorem mem_of_mem_splitOn {sep c : Char} {cs piece : List Char} (hpiece : piece ∈ splitOn sep cs)
    (hc : c ∈ piece) : c ∈ cs := by
  induction cs generalizing piece with
  | nil =>
    obtain rfl := List.mem_singleton.mp hpiece
    exact hc
  | cons d cs ih =>
    rw [splitOn] at hpiece
    split at hpiece
    · rcases List.mem_cons.mp hpiece with rfl | hpiece
      · cases hc
      · exact List.mem_cons_of_mem d (ih hpiece hc)
    · split at hpiece
      · obtain rfl := List.mem_singleton.mp hpiece
        obtain rfl := List.mem_singleton.mp hc
        exact List.mem_cons_self
      · rename_i p ps hsplit
        rw [hsplit] at ih
        rcases List.mem_cons.mp hpiece with rfl | hpiece
        · rcases List.mem_cons.mp hc with rfl | hc
          · exact List.mem_cons_self
          · exact List.mem_cons_of_mem d (ih List.mem_cons_self hc)
        · exact List.mem_cons_of_mem d (ih (List.mem_cons_of_mem p hpiece) hc)

/-- A string without null characters writes a path without any. -/
theorem Path.hasNull_ofString {s : String} (h : '\x00' ∉ s.toList) :
    (Path.ofString s).hasNull = false := by
  rw [hasNull, List.any_eq_false]
  intro n hn hnull
  obtain ⟨hn, -⟩ := List.mem_filter.mp hn
  obtain ⟨piece, hpiece, rfl⟩ := List.mem_map.mp hn
  rw [String.toList_ofList, List.contains_iff_mem] at hnull
  exact h (mem_of_mem_splitOn hpiece hnull)

end BitReaders
