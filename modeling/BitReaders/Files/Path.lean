/-!
# Paths

A path is written as names between slashes. Names that are empty or a single dot say nothing and
are dropped; a name of two dots stays, since what it means depends on the directories.

- `splitOn`: the pieces of a list between occurrences of a separator.
- `Path`: how the path starts, and its names.
- `Path.ofString`, `Path.toString`: the path of a string; the normal form of a path.
- `Path.parent`: the path without its last name.
-/

namespace BitReaders

/-- The pieces of a list between the occurrences of `sep`. -/
def splitOn (sep : Char) : List Char → List (List Char)
  | [] => [[]]
  | c :: cs =>
    if c = sep then [] :: splitOn sep cs
    else
      match splitOn sep cs with
      | [] => [[c]]
      | p :: ps => (c :: p) :: ps

/-- A path. -/
structure Path where
  /-- Nothing for a relative path, else one slash, or two if the path starts with exactly two. -/
  root : String
  names : List String
  deriving DecidableEq, Repr

namespace Path

/-- How a path starts. -/
def rootOf : List Char → String
  | '/' :: '/' :: '/' :: _ => "/"
  | '/' :: '/' :: _ => "//"
  | '/' :: _ => "/"
  | _ => ""

/-- Whether a name between two slashes says anything. -/
def isName (s : String) : Bool :=
  s ≠ "" && s ≠ "."

/-- The path that a string writes. -/
def ofString (s : String) : Path where
  root := rootOf s.toList
  names := ((splitOn '/' s.toList).map String.ofList).filter isName

/-- The normal form of a path. -/
def toString (p : Path) : String :=
  if p.root = "" ∧ p.names = [] then "." else p.root ++ "/".intercalate p.names

/-- The path without its last name. -/
def parent (p : Path) : Path :=
  { p with names := p.names.dropLast }

/-- Whether a name has a null character, which no name on disk can have. -/
def hasNull (p : Path) : Bool :=
  p.names.any fun n => n.toList.contains '\x00'

end Path

end BitReaders
