import BitReaders.Proofs.Files.Writes

/-!
# Writing several files in turn

Paths that differ may lead to one file, and a write may make directories on the way of the next. But
no directory is ever lost, so a path leads to the same place ever after, and the last text written
to a file is what it holds.

- `Volume.file?`: the octets of the regular file at a location.
- `Volume.Leads`: a path leads to a location. `Volume.KeepsDirectories`: what a write keeps, whether
  or not it succeeds (`writeText_keepsDirectories`), so that paths lead to the same place
  (`KeepsDirectories.leads`).
- `Volume.lastText?`: the last of some texts whose path leads to a location.
- `file?_of_writeTexts_eq_ok`, `exists_of_writeTexts_eq_error`: what writes in turn leave, if all
  succeed, and which of them fails else.
- `writeTexts_files`: **each file holds the last text written to it**, and a write that fails leaves
  the files of those before it.
-/

namespace BitReaders

namespace Volume

variable {u v w : Volume} {p : Path} {l : Location}

/-! ## The file at a location -/

/-- The octets of the regular file at a location. -/
def file? (v : Volume) (l : Location) : Option Octets :=
  match v.get? l with
  | some (.file content) => some content
  | _ => none

theorem file?_eq_some_iff {content : Octets} :
    v.file? l = some content ↔ v.get? l = some (.file content) := by
  unfold file?
  cases v.get? l with
  | none => simp
  | some e => cases e <;> simp

theorem SameFiles.file?_eq (h : v.SameFiles w) (l : Location) : w.file? l = v.file? l :=
  Option.ext fun content =>
    file?_eq_some_iff.trans ((h l content).symm.trans file?_eq_some_iff.symm)

/-- After a write its file has the content, and all others are as before. -/
theorem Wrote.exists_file?_eq {content : Octets} (h : v.Wrote w p content) :
    ∃ l, w.locate p = .ok l ∧ ∀ m, w.file? m = if m = l then some content else v.file? m := by
  obtain ⟨l, hl, hcontent, hothers⟩ := h
  refine ⟨l, hl, fun m => ?_⟩
  split
  · rename_i hm
    rw [hm, file?_eq_some_iff, hcontent]
  · rename_i hm
    exact Option.ext fun c =>
      file?_eq_some_iff.trans ((hothers m hm c).symm.trans file?_eq_some_iff.symm)

/-! ## Where paths lead after writes -/

/-- The path leads to the location. -/
def Leads (v : Volume) (p : Path) (l : Location) : Prop :=
  v.locate p = .ok l

instance (v : Volume) (p : Path) (l : Location) : Decidable (v.Leads p l) :=
  decidable_of_iff ((v.locate p).toOption = some l) (by
    rw [Leads]
    cases v.locate p <;> simp [Except.toOption])

/-- The later volume `w` has all directories of `v`, and the same working directory. -/
structure KeepsDirectories (v w : Volume) : Prop where
  directories : ∀ l, v.get? l = some .directory → w.get? l = some .directory
  workingDirectory : w.workingDirectory = v.workingDirectory

namespace KeepsDirectories

theorem refl (v : Volume) : v.KeepsDirectories v :=
  ⟨fun _ => id, rfl⟩

theorem trans (h : u.KeepsDirectories v) (h' : v.KeepsDirectories w) : u.KeepsDirectories w :=
  ⟨fun l hl => h'.directories l (h.directories l hl),
    h'.workingDirectory.trans h.workingDirectory⟩

/-- A path leads to the same place. -/
theorem leads (h : v.KeepsDirectories w) (hl : v.Leads p l) : w.Leads p l :=
  locate_eq_ok h.directories h.workingDirectory hl

end KeepsDirectories

theorem Grows.keepsDirectories (h : v.Grows w) : v.KeepsDirectories w :=
  ⟨fun _ => h.entries, h.workingDirectory⟩

/-- A file takes the place of no directory. -/
theorem keepsDirectories_put (hdir : v.get? l ≠ some .directory) (e : Entry) :
    v.KeepsDirectories (v.put l e) := by
  refine ⟨fun m hm => ?_, rfl⟩
  have hne : m ≠ l := by
    rintro rfl
    exact hdir hm
  rwa [get?_put_of_ne v hne]

/-- A write loses no directory, whether or not it succeeds. -/
theorem writeText_keepsDirectories (v : Volume) (p : Path) (text : String) :
    v.KeepsDirectories (v.writeText p text).2 := by
  have hgrows := v.ensureDirectory_grows p.parent
  unfold writeText
  split
  · rename_i hensure
    rw [hensure] at hgrows
    exact hgrows.keepsDirectories
  · rename_i hensure
    rw [hensure] at hgrows
    split
    · exact hgrows.keepsDirectories
    · split
      · exact hgrows.keepsDirectories
      · rename_i hwrite
        obtain ⟨l, -, hdir, rfl⟩ := writeFile_eq_ok hwrite
        exact hgrows.keepsDirectories.trans (keepsDirectories_put hdir _)

/-- A write that succeeds has set the file that its path leads to. -/
theorem wrote_of_writeText_eq_ok {text : String} (h : v.writeText p text = (.ok (), w)) :
    v.Wrote w p (Utf8.encode text.toList) := by
  rcases v.writeText_cases p text with ⟨f, u, hu, -⟩ | ⟨u, hu, hwrote⟩
  · cases hu.symm.trans h
  · cases hu.symm.trans h
    exact hwrote

/-- A write that fails has kept every file. -/
theorem sameFiles_of_writeText_eq_error {text : String} {f : Fault}
    (h : v.writeText p text = (.error f, w)) : v.SameFiles w := by
  rcases v.writeText_cases p text with ⟨g, u, hu, hgrows⟩ | ⟨u, hu, -⟩
  · cases hu.symm.trans h
    exact hgrows.sameFiles
  · cases hu.symm.trans h

/-! ## Writes in turn -/

variable {ws us : List (Path × String)}

theorem writeTexts_cons_of_ok {text : String} (h : v.writeText p text = (.ok (), u)) :
    v.writeTexts ((p, text) :: ws) = u.writeTexts ws := by
  rw [writeTexts, h]

theorem writeTexts_cons_of_error {text : String} {f : Fault}
    (h : v.writeText p text = (.error f, u)) :
    v.writeTexts ((p, text) :: ws) = (.error f, u) := by
  rw [writeTexts, h]

/-- Writes succeed if the first does, and the others after it. -/
theorem writeTexts_cons_eq_ok_iff {text : String} :
    v.writeTexts ((p, text) :: ws) = (.ok (), w) ↔
      ∃ u, v.writeText p text = (.ok (), u) ∧ u.writeTexts ws = (.ok (), w) := by
  constructor
  · intro h
    rcases v.writeText_cases p text with ⟨f, u, hfirst, -⟩ | ⟨u, hfirst, -⟩
    · rw [writeTexts_cons_of_error hfirst] at h
      cases h
    · exact ⟨u, hfirst, writeTexts_cons_of_ok hfirst ▸ h⟩
  · rintro ⟨u, hfirst, hrest⟩
    rw [writeTexts_cons_of_ok hfirst, hrest]

theorem writeTexts_append_eq_ok_iff :
    v.writeTexts (us ++ ws) = (.ok (), w) ↔
      ∃ u, v.writeTexts us = (.ok (), u) ∧ u.writeTexts ws = (.ok (), w) := by
  induction us generalizing v with
  | nil =>
    constructor
    · exact fun h => ⟨v, rfl, h⟩
    · rintro ⟨u, hu, h⟩
      cases hu
      exact h
  | cons e us ih =>
    obtain ⟨p, text⟩ := e
    rw [List.cons_append, writeTexts_cons_eq_ok_iff]
    simp only [ih, writeTexts_cons_eq_ok_iff]
    constructor
    · rintro ⟨t, ht, u, hu, hw⟩
      exact ⟨u, ⟨t, ht, hu⟩, hw⟩
    · rintro ⟨u, ⟨t, ht, hu⟩, hw⟩
      exact ⟨t, ht, u, hu, hw⟩

/-- Writes that all succeed lose no directory. -/
theorem keepsDirectories_of_writeTexts (h : v.writeTexts ws = (.ok (), w)) :
    v.KeepsDirectories w := by
  induction ws generalizing v with
  | nil =>
    cases h
    exact .refl _
  | cons e ws ih =>
    obtain ⟨p, text⟩ := e
    obtain ⟨u, hfirst, hrest⟩ := writeTexts_cons_eq_ok_iff.mp h
    have hkeeps := v.writeText_keepsDirectories p text
    rw [hfirst] at hkeeps
    exact hkeeps.trans (ih hrest)

/-! ## What is left -/

/-- The last of the texts whose path leads to a location. -/
def lastText? (w : Volume) (l : Location) : List (Path × String) → Option String
  | [] => none
  | (p, text) :: ws => (lastText? w l ws).or (if w.Leads p l then some text else none)

/-- A location leads to one place at most. -/
theorem Leads.unique {m : Location} (h : v.Leads p l) (h' : v.Leads p m) : l = m :=
  Except.ok.inj (h.symm.trans h')

/-- **Each file holds the last text written to it**, and all others are as before. By induction on
the writes; where a path leads to is asked at the end, which is the same as when it was written. -/
theorem file?_of_writeTexts_eq_ok (h : v.writeTexts ws = (.ok (), w)) (l : Location) :
    w.file? l = ((lastText? w l ws).map fun text => Utf8.encode text.toList).or (v.file? l) := by
  induction ws generalizing v with
  | nil =>
    cases h
    rfl
  | cons e ws ih =>
    obtain ⟨p, text⟩ := e
    obtain ⟨u, hfirst, hrest⟩ := writeTexts_cons_eq_ok_iff.mp h
    obtain ⟨m, hm, hfiles⟩ := (wrote_of_writeText_eq_ok hfirst).exists_file?_eq
    have hleads : w.Leads p m := (keepsDirectories_of_writeTexts hrest).leads hm
    -- The first text counts at its location only, and there only if no later one does.
    rw [ih hrest, hfiles, lastText?, Option.map_or, Option.or_assoc]
    congr 1
    by_cases hl : l = m
    · subst hl
      rw [if_pos rfl, if_pos hleads]
      rfl
    · rw [if_neg hl, if_neg fun h => hl (h.unique hleads)]
      rfl

/-- Right after a write its path leads to a file with the text, and at the end to the same
location. -/
theorem leads_of_writeTexts_eq_ok {text : String}
    (h : v.writeTexts (us ++ (p, text) :: ws) = (.ok (), w)) :
    ∃ u l, v.writeTexts (us ++ [(p, text)]) = (.ok (), u) ∧ u.Leads p l ∧
      u.file? l = some (Utf8.encode text.toList) ∧ w.Leads p l := by
  obtain ⟨t, hbefore, h⟩ := writeTexts_append_eq_ok_iff.mp h
  obtain ⟨u, hwrite, hafter⟩ := writeTexts_cons_eq_ok_iff.mp h
  obtain ⟨l, hl, hfiles⟩ := (wrote_of_writeText_eq_ok hwrite).exists_file?_eq
  have hturn : v.writeTexts (us ++ [(p, text)]) = (.ok (), u) :=
    writeTexts_append_eq_ok_iff.mpr ⟨t, hbefore, writeTexts_cons_eq_ok_iff.mpr ⟨u, hwrite, rfl⟩⟩
  refine ⟨u, l, hturn, hl, ?_, (keepsDirectories_of_writeTexts hafter).leads hl⟩
  rw [hfiles, if_pos rfl]

/-- If writes fail, one of them does so after all before it have succeeded, and it is the last that
is tried. -/
theorem exists_of_writeTexts_eq_error {f : Fault} (h : v.writeTexts ws = (.error f, w)) :
    ∃ before p text after u, ws = before ++ (p, text) :: after ∧
      v.writeTexts before = (.ok (), u) ∧ u.writeText p text = (.error f, w) := by
  induction ws generalizing v with
  | nil => cases h
  | cons e ws ih =>
    obtain ⟨p, text⟩ := e
    rcases v.writeText_cases p text with ⟨g, t, ht, -⟩ | ⟨t, ht, -⟩
    · rw [writeTexts_cons_of_error ht] at h
      exact ⟨[], p, text, ws, v, rfl, rfl, ht.trans h⟩
    · rw [writeTexts_cons_of_ok ht] at h
      obtain ⟨before, q, text', after, u, rfl, hbefore, hq⟩ := ih h
      exact ⟨(p, text) :: before, q, text', after, u, rfl,
        writeTexts_cons_eq_ok_iff.mpr ⟨t, ht, hbefore⟩, hq⟩

/-- **What writes in turn leave.** If all succeed, each path leads at the end to the file that was
written there, every such file holds the last text written to it, and every other regular file is
as before. If one fails, the regular files are those that the writes before it have left. -/
theorem writeTexts_files (v : Volume) (ws : List (Path × String)) :
    (∃ w, v.writeTexts ws = (.ok (), w) ∧
      (∀ before p text after, ws = before ++ (p, text) :: after →
        ∃ u l, v.writeTexts (before ++ [(p, text)]) = (.ok (), u) ∧ u.Leads p l ∧
          u.file? l = some (Utf8.encode text.toList) ∧ w.Leads p l) ∧
      ∀ l, w.file? l =
        ((lastText? w l ws).map fun text => Utf8.encode text.toList).or (v.file? l)) ∨
    ∃ f w before p text after u, v.writeTexts ws = (.error f, w) ∧
      ws = before ++ (p, text) :: after ∧ v.writeTexts before = (.ok (), u) ∧
      u.writeText p text = (.error f, w) ∧ ∀ l, w.file? l = u.file? l := by
  rcases hresult : v.writeTexts ws with ⟨result, w⟩
  cases result with
  | ok =>
    refine .inl ⟨w, rfl, ?_, file?_of_writeTexts_eq_ok hresult⟩
    rintro before p text after rfl
    exact leads_of_writeTexts_eq_ok hresult
  | error f =>
    obtain ⟨before, p, text, after, u, hws, hbefore, hp⟩ := exists_of_writeTexts_eq_error hresult
    exact .inr ⟨f, w, before, p, text, after, u, rfl, hws, hbefore, hp,
      (sameFiles_of_writeText_eq_error hp).file?_eq⟩

/-- Two paths to one file, the first by way of a directory that it makes. -/
def detour : List (Path × String) :=
  [(.ofString "made/../file", "1"), (.ofString "other", "2"), (.ofString "./file", "3")]

/-- The file holds the text that was written last. -/
theorem writeTexts_files_detour :
    ∃ w, writeTexts ⟨[], []⟩ detour = (.ok (), w) ∧
      w.Leads (.ofString "made/../file") ["file"] ∧ w.file? ["file"] = some [0x33] := by
  rcases writeTexts_files ⟨[], []⟩ detour with ⟨w, hw, -, hfiles⟩ | ⟨f, w, _, _, _, _, _, hw, -⟩
  · refine ⟨w, hw, ?_, ?_⟩
    · cases hw
      rfl
    · rw [hfiles]
      cases hw
      rfl
  · cases hw

end Volume

end BitReaders
