import BitReaders.Command.Readers
import BitReaders.Proofs.Collisions
import BitReaders.Proofs.Text.Trim

/-!
# Slashes around directories

The program strips the directory of the index of the slashes at its end, and the subdirectory of
those at both ends, before it puts a slash between them and the names of files. What is lost that
way is a matter of runs of slashes alone.

- `slashes`: a text of slashes. `dropSlashes_append`, `trimSlashes_append`: slashes at these ends
  are of no account. `exists_eq_dropSlashes_append`, `exists_eq_trimSlashes_append`: nothing else is
  lost.
- `squeeze`: a text with one slash in place of each run of slashes.
- `squeeze_join`, `squeeze_join_join`: **up to runs of slashes, files are where the directories
  say**.
- `Path.IsAbsolute`: a path that starts at the root; `isAbsolute_join_iff`: files are named by such
  paths just if the directory of the index is empty or starts with a slash.
- `Layout.ofArguments`: the layout of a run with two directories; `Located`: a request with its
  paths in these directories, `located_of_mem_ownRequests`: as all of that layout are.
-/

namespace BitReaders

open Readers (dropSlashes trimSlashes)

/-! ## Slashes at the ends -/

/-- A text of slashes. -/
def slashes (n : Nat) : String :=
  String.ofList (List.replicate n '/')

theorem toList_slashes (n : Nat) : (slashes n).toList = List.replicate n '/' :=
  String.toList_ofList

theorem slashes_succ (n : Nat) : slashes (n + 1) = slashes n ++ "/" := by
  rw [← String.toList_inj, String.toList_append, toList_slashes, toList_slashes,
    List.replicate_succ']
  rfl

theorem slashes_succ' (n : Nat) : slashes (n + 1) = "/" ++ slashes n := by
  rw [← String.toList_inj, String.toList_append, toList_slashes, toList_slashes,
    List.replicate_succ]
  rfl

theorem forall_mem_replicate_slash (n : Nat) :
    ∀ c ∈ List.replicate n '/', decide (c = '/') = true :=
  fun _ hc => decide_eq_true (List.eq_of_mem_replicate hc)

/-- A text in which there are only slashes. -/
theorem eq_slashes {cs : List Char} (h : ∀ c ∈ cs, c = '/') : cs = (slashes cs.length).toList := by
  rw [toList_slashes]
  exact List.eq_replicate_length.mpr h

theorem dropSlashes_append (d : String) (n : Nat) :
    dropSlashes (d ++ slashes n) = dropSlashes d := by
  rw [dropSlashes, dropSlashes, String.toList_append, List.reverse_append, toList_slashes,
    List.reverse_replicate, List.dropWhile_append_of_pos (forall_mem_replicate_slash n)]

theorem trimSlashes_append (w : String) (m n : Nat) :
    trimSlashes (slashes m ++ w ++ slashes n) = trimSlashes w := by
  rw [trimSlashes, trimSlashes, String.toList_append, String.toList_append, List.append_assoc,
    toList_slashes, toList_slashes]
  exact congrArg _ (trimEnds_append (forall_mem_replicate_slash m) (forall_mem_replicate_slash n))

theorem exists_eq_dropSlashes_append (d : String) : ∃ n, d = dropSlashes d ++ slashes n := by
  have hend : ∀ c ∈ (d.toList.reverse.takeWhile (· = '/')).reverse, c = '/' := by
    intro c hc
    have hslash := List.mem_takeWhile_imp (List.mem_reverse.mp hc)
    exact of_decide_eq_true hslash
  refine ⟨(d.toList.reverse.takeWhile (· = '/')).reverse.length, ?_⟩
  rw [← String.toList_inj, String.toList_append, dropSlashes, String.toList_ofList,
    ← eq_slashes hend, ← List.reverse_append, List.takeWhile_append_dropWhile, List.reverse_reverse]

theorem exists_eq_trimSlashes_append (w : String) :
    ∃ m n, w = slashes m ++ trimSlashes w ++ slashes n := by
  obtain ⟨before, after, hw, hbefore, hafter⟩ :=
    exists_eq_append_trimEnds (fun c => decide (c = '/')) w.toList
  refine ⟨before.length, after.length, ?_⟩
  rw [← String.toList_inj, String.toList_append, String.toList_append, trimSlashes,
    String.toList_ofList, List.append_assoc,
    ← eq_slashes fun c hc => of_decide_eq_true (hbefore c hc),
    ← eq_slashes fun c hc => of_decide_eq_true (hafter c hc)]
  exact hw

/-- Slashes around a text make no separator of it. -/
theorem slashes_append_ne {w : String} (hw : w ≠ "--") (m n : Nat) :
    slashes m ++ w ++ slashes n ≠ "--" := by
  intro h
  have hlist := congrArg String.toList h
  rw [String.toList_append, String.toList_append, toList_slashes, toList_slashes] at hlist
  have hslash : '/' ∉ List.replicate m '/' ++ w.toList ++ List.replicate n '/' := by
    rw [hlist]
    decide
  simp only [List.mem_append, List.mem_replicate, and_true, not_or, ne_eq, not_not] at hslash
  obtain ⟨⟨rfl, -⟩, rfl⟩ := hslash
  rw [List.replicate_zero, List.nil_append, List.append_nil] at hlist
  exact hw (String.toList_inj.mp hlist)

/-! ## Runs of slashes -/

/-- Characters with one slash in place of each run of slashes. -/
def squeezeSlashes : List Char → List Char
  | [] => []
  | c :: cs => if c = '/' ∧ cs.head? = some '/' then squeezeSlashes cs else c :: squeezeSlashes cs

/-- A text with one slash in place of each run of slashes. -/
def squeeze (s : String) : String :=
  String.ofList (squeezeSlashes s.toList)

example : squeeze "//a/b///c/" = "/a/b/c/" := by decide

/-- A run of slashes counts as one slash. -/
theorem squeezeSlashes_append_replicate (as bs : List Char) (n : Nat) :
    squeezeSlashes (as ++ (List.replicate (n + 1) '/' ++ bs)) =
      squeezeSlashes (as ++ '/' :: bs) := by
  induction as with
  | nil =>
    induction n with
    | zero => rfl
    | succ n ih => exact (if_pos ⟨rfl, rfl⟩).trans ih
  | cons a as ih =>
    -- Whether a slash is dropped depends on the character behind it, which is the same.
    have hhead : (as ++ (List.replicate (n + 1) '/' ++ bs)).head? = (as ++ '/' :: bs).head? := by
      cases as <;> rfl
    rw [List.cons_append, List.cons_append, squeezeSlashes, squeezeSlashes, hhead, ih]

theorem squeeze_append_slashes (s t : String) (n : Nat) :
    squeeze (s ++ slashes (n + 1) ++ t) = squeeze (s ++ "/" ++ t) := by
  rw [squeeze, squeeze, String.toList_append, String.toList_append, String.toList_append,
    String.toList_append, toList_slashes, List.append_assoc, List.append_assoc,
    squeezeSlashes_append_replicate]
  rfl

/-- **A file is in the directory that is given**, up to runs of slashes. -/
theorem squeeze_join (d s : String) :
    squeeze (dropSlashes d ++ "/" ++ s) = squeeze (d ++ "/" ++ s) := by
  obtain ⟨n, hn⟩ := exists_eq_dropSlashes_append d
  have hd : d ++ "/" ++ s = dropSlashes d ++ slashes (n + 1) ++ s := by
    rw [slashes_succ, ← String.append_assoc, ← hn]
  rw [hd, squeeze_append_slashes]

/-- **A file is in the subdirectory that is given**, up to runs of slashes. -/
theorem squeeze_join_join (d w s : String) :
    squeeze (dropSlashes d ++ "/" ++ trimSlashes w ++ "/" ++ s) =
      squeeze (d ++ "/" ++ w ++ "/" ++ s) := by
  obtain ⟨m, n, hw⟩ := exists_eq_trimSlashes_append w
  have hgiven : dropSlashes d ++ "/" ++ (w ++ "/" ++ s) =
      dropSlashes d ++ slashes (m + 1) ++ (trimSlashes w ++ slashes (n + 1) ++ s) := by
    rw [slashes_succ', slashes_succ]
    conv_lhs => rw [hw]
    simp only [String.append_assoc]
  calc squeeze (dropSlashes d ++ "/" ++ trimSlashes w ++ "/" ++ s)
      = squeeze (dropSlashes d ++ "/" ++ trimSlashes w ++ slashes (n + 1) ++ s) :=
        (squeeze_append_slashes _ s n).symm
    _ = squeeze (dropSlashes d ++ "/" ++ (trimSlashes w ++ slashes (n + 1) ++ s)) := by
        simp only [String.append_assoc]
    _ = squeeze (dropSlashes d ++ "/" ++ (w ++ "/" ++ s)) := by
        rw [hgiven, squeeze_append_slashes]
    _ = squeeze (d ++ "/" ++ (w ++ "/" ++ s)) := squeeze_join d _
    _ = squeeze (d ++ "/" ++ w ++ "/" ++ s) := by simp only [String.append_assoc]

/-! ## Absolute paths -/

/-- The path starts at the root. -/
def Path.IsAbsolute (p : Path) : Prop :=
  p.root ≠ ""

theorem Path.isAbsolute_ofString_iff (s : String) :
    (Path.ofString s).IsAbsolute ↔ s.toList.head? = some '/' := by
  show Path.rootOf s.toList ≠ "" ↔ _
  generalize s.toList = cs
  unfold Path.rootOf
  split
  · exact iff_of_true (by decide) rfl
  · exact iff_of_true (by decide) rfl
  · exact iff_of_true (by decide) rfl
  · rename_i hslash
    refine iff_of_false (fun h => h rfl) fun h => ?_
    obtain ⟨rest, hrest⟩ := List.head?_eq_some_iff.mp h
    exact hslash rest hrest

/-- A file is named by an absolute path just if its directory is empty or starts with a slash: the
directory of slashes alone is the root, and so is the empty one. -/
theorem isAbsolute_join_iff (d s : String) :
    (Path.ofString (dropSlashes d ++ "/" ++ s)).IsAbsolute ↔
      d = "" ∨ d.toList.head? = some '/' := by
  obtain ⟨n, hn⟩ := exists_eq_dropSlashes_append d
  have hd : d.toList = (dropSlashes d).toList ++ List.replicate n '/' := by
    conv_lhs => rw [hn]
    rw [String.toList_append, toList_slashes]
  rw [Path.isAbsolute_ofString_iff, String.toList_append, String.toList_append, List.append_assoc,
    ← String.toList_eq_nil_iff, hd]
  cases (dropSlashes d).toList with
  | nil => cases n <;> simp [List.replicate_succ]
  | cons c cs => simp

/-! ## Requests in two directories -/

/-- The layout of a run that is given two directories. -/
def Layout.ofArguments (d w : String) : Layout :=
  .ofDirectories (dropSlashes d) (trimSlashes w)

/-- A request for the family `f`, made for the layout `l`, has its paths in the directories `d` and
`w`, up to runs of slashes: a template and a generic result in the first, the result of a variant in
the second, below the first. The paths are absolute just if `d` is empty or starts with a slash. -/
structure Located (l : Layout) (d w : String) (f : Family) (r : Request) : Prop where
  template : squeeze r.templatePath = squeeze (d ++ "/" ++ f.suffix ++ ".c")
  result : r = .generic f l ∧ squeeze r.outputPath = squeeze (d ++ "/" ++ f.suffix ++ ".java") ∨
    ∃ x ∈ f.variants, r = .ofVariant x l ∧
      squeeze r.outputPath = squeeze (d ++ "/" ++ w ++ "/" ++ x.className ++ ".java")
  isAbsolute_template : (Path.ofString r.templatePath).IsAbsolute ↔
    d = "" ∨ d.toList.head? = some '/'
  isAbsolute_result : (Path.ofString r.outputPath).IsAbsolute ↔
    d = "" ∨ d.toList.head? = some '/'

/-- All requests of that layout are in the directories. -/
theorem located_of_mem_ownRequests {d w : String} {f : Family} {r : Request}
    (h : r ∈ f.ownRequests (.ofArguments d w)) : Located (.ofArguments d w) d w f r := by
  have hpath : r.templatePath = dropSlashes d ++ "/" ++ (f.suffix ++ ".c") :=
    (templatePath_of_mem_ownRequests h).trans String.append_assoc
  have htemplate : squeeze r.templatePath = squeeze (d ++ "/" ++ f.suffix ++ ".c") := by
    rw [hpath, squeeze_join, ← String.append_assoc]
  have habsolute : (Path.ofString r.templatePath).IsAbsolute ↔
      d = "" ∨ d.toList.head? = some '/' := by
    rw [hpath, isAbsolute_join_iff]
  rcases mem_ownRequests h with rfl | ⟨x, hx, rfl⟩
  · have hresult : (Request.generic f (.ofArguments d w)).outputPath =
        dropSlashes d ++ "/" ++ (f.suffix ++ ".java") := String.append_assoc
    refine ⟨htemplate, .inl ⟨rfl, ?_⟩, habsolute, ?_⟩
    · rw [hresult, squeeze_join, ← String.append_assoc]
    · rw [hresult, isAbsolute_join_iff]
  · have hresult : (Request.ofVariant x (.ofArguments d w)).outputPath =
        dropSlashes d ++ "/" ++ trimSlashes w ++ "/" ++ (x.className ++ ".java") :=
      String.append_assoc
    have hjoin : (Request.ofVariant x (.ofArguments d w)).outputPath =
        dropSlashes d ++ "/" ++ (trimSlashes w ++ "/" ++ (x.className ++ ".java")) := by
      rw [hresult]
      simp only [String.append_assoc]
    refine ⟨htemplate, .inr ⟨x, hx, rfl, ?_⟩, habsolute, ?_⟩
    · rw [hresult, squeeze_join_join, ← String.append_assoc]
    · rw [hjoin, isAbsolute_join_iff]

end BitReaders
