import BitReaders.Files.Path

/-!
# Volumes

A volume is a tree of directories and regular files, with a working directory from which relative
paths start.

- `Location`: the names from the root of the volume down.
- `Entry`: a directory, or a file with its octets.
- `Volume.get?`: what is at a location; `Volume.put` sets it (`get?_put_self`,
  `get?_put_of_ne`).
- `Volume.locate`: where a path leads. Every name on the way but the last must be a directory.
- `Volume.changes`: the files of a later volume that are new or have other octets.
-/

namespace BitReaders

/-- The names from the root of a volume down. -/
abbrev Location := List String

/-- The content of a file. -/
abbrev Octets := List UInt8

/-- What is at a location. -/
inductive Entry where
  | directory
  | file (content : Octets)
  deriving DecidableEq, Repr

/-- Directories and files below a root, and a working directory. -/
structure Volume where
  entries : List (Location × Entry)
  workingDirectory : Location
  deriving DecidableEq, Repr

/-- Why a path cannot be used. -/
inductive Problem where
  | notFound
  | exists
  | notDirectory
  | isDirectory
  deriving DecidableEq, Repr

/-- The number of a problem. -/
def Problem.number : Problem → Nat
  | .notFound => 2
  | .exists => 17
  | .notDirectory => 20
  | .isDirectory => 21

/-- The wording of a problem. -/
def Problem.message : Problem → String
  | .notFound => "No such file or directory"
  | .exists => "File exists"
  | .notDirectory => "Not a directory"
  | .isDirectory => "Is a directory"

namespace Volume

/-! ## Entries -/

/-- What is at a location. The root is a directory. -/
def get? (v : Volume) (l : Location) : Option Entry :=
  if l = [] then some .directory else (v.entries.find? fun e => e.1 = l).map (·.2)

/-- The entries with `e` at `l`, in its place if something was there. -/
def putEntry (l : Location) (e : Entry) : List (Location × Entry) → List (Location × Entry)
  | [] => [(l, e)]
  | (k, d) :: es => if k = l then (k, e) :: es else (k, d) :: putEntry l e es

/-- The volume with `e` at `l`. -/
def put (v : Volume) (l : Location) (e : Entry) : Volume :=
  { v with entries := putEntry l e v.entries }

theorem find?_putEntry_self (l : Location) (e : Entry) (es : List (Location × Entry)) :
    ((putEntry l e es).find? fun x => x.1 = l).map (·.2) = some e := by
  induction es with
  | nil => simp [putEntry]
  | cons x es ih =>
    obtain ⟨k, d⟩ := x
    by_cases h : k = l
    · simp [putEntry, h]
    · simpa [putEntry, h] using ih

theorem find?_putEntry_of_ne {l m : Location} (h : m ≠ l) (e : Entry)
    (es : List (Location × Entry)) :
    (putEntry l e es).find? (fun x => x.1 = m) = es.find? fun x => x.1 = m := by
  induction es with
  | nil => simp [putEntry, Ne.symm h]
  | cons x es ih =>
    obtain ⟨k, d⟩ := x
    by_cases hk : k = l
    · subst hk
      simp [putEntry, Ne.symm h]
    · by_cases hm : k = m
      · subst hm
        simp [putEntry, h]
      · simpa [putEntry, hk, hm] using ih

/-- What was put is there. -/
theorem get?_put_self (v : Volume) {l : Location} (h : l ≠ []) (e : Entry) :
    (v.put l e).get? l = some e := by
  simp only [get?, put, h, if_false]
  exact find?_putEntry_self l e v.entries

/-- Other locations are as before. -/
theorem get?_put_of_ne (v : Volume) {l m : Location} (h : m ≠ l) (e : Entry) :
    (v.put l e).get? m = v.get? m := by
  simp only [get?, put, find?_putEntry_of_ne h]

/-- The volume with `e` at `l` and directories at all locations above it. -/
def place (v : Volume) (l : Location) (e : Entry) : Volume :=
  let above := (List.range (l.length - 1)).map fun n => l.take (n + 1)
  (above.foldl (fun v m => v.put m .directory) v).put l e

/-! ## Where paths lead -/

/-- The directory that names lead to from the directory at a location. Two dots lead up; the root
is above itself. -/
def walk (v : Volume) : Location → List String → Except Problem Location
  | l, [] => .ok l
  | l, n :: ns =>
    if n = ".." then walk v l.dropLast ns
    else
      match v.get? (l ++ [n]) with
      | none => .error .notFound
      | some (.file _) => .error .notDirectory
      | some .directory => walk v (l ++ [n]) ns

/-- Where a path starts. -/
def start (v : Volume) (p : Path) : Location :=
  if p.root = "" then v.workingDirectory else []

/-- The location that a path leads to. Something need not be there. -/
def locate (v : Volume) (p : Path) : Except Problem Location :=
  match p.names.getLast? with
  | none => .ok (v.start p)
  | some n =>
    (v.walk (v.start p) p.names.dropLast).map fun l => if n = ".." then l.dropLast else l ++ [n]

/-- Whether a path leads to a directory. -/
def isDirectory (v : Volume) (p : Path) : Bool :=
  match v.locate p with
  | .ok l => v.get? l == some .directory
  | .error _ => false

/-! ## Comparison -/

/-- The part of a location below a directory. -/
def below? (directory l : Location) : Option Location :=
  List.isPrefixOf? directory l

/-- The files below the working directory that are new or have other octets than in `before`, by
their paths from there, in increasing order. -/
def changes (before after : Volume) : List (String × Octets) :=
  let changed := after.entries.filterMap fun (l, e) =>
    match e with
    | .directory => none
    | .file content =>
      if before.get? l = some e then none
      else (below? after.workingDirectory l).map fun names => ("/".intercalate names, content)
  changed.mergeSort fun a b => decide (a.1 ≤ b.1)

end Volume

end BitReaders
