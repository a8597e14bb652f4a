import BitReaders.Reader.Scheme

/-!
# Families of readers

A family of index readers has one template and, for each axis, the coding schemes in which its
readers come.

- `Axis`: the four quantities whose scheme varies.
- `Family`: the schemes per axis, whether readers with skips and without are wanted, and whether
  there are payload readers. `Family.schemes` gives the list of an axis.
- `Family.standard`, `Family.highPerformance`: the two families that exist by default.
- `Catalogue`: families under their names, in order.
-/

namespace BitReaders

/-- A quantity whose coding scheme varies. -/
inductive Axis where
  | frequencies
  | pointers
  | counts
  | positions
  deriving DecidableEq, Repr

namespace Axis

/-- The axes in their order in class names and commands. -/
def all : List Axis := [.frequencies, .pointers, .counts, .positions]

/-- The name of an axis. -/
def name : Axis → String
  | .frequencies => "frequencies"
  | .pointers => "pointers"
  | .counts => "counts"
  | .positions => "positions"

end Axis

/-- A family of readers. -/
structure Family where
  name : String
  /-- The end of every class name of the family, and the name of its template. -/
  suffix : String
  frequencies : List Scheme
  pointers : List Scheme
  counts : List Scheme
  positions : List Scheme
  /-- Whether readers with skips come, without them, or both. -/
  skips : List Bool := [false]
  /-- Whether there are payload readers, which have neither counts nor positions. -/
  payloads : Bool := false
  deriving DecidableEq, Repr

namespace Family

/-- The schemes of an axis. -/
def schemes (f : Family) : Axis → List Scheme
  | .frequencies => f.frequencies
  | .pointers => f.pointers
  | .counts => f.counts
  | .positions => f.positions

/-- The family with other schemes on one axis. -/
def setSchemes (f : Family) (a : Axis) (ss : List Scheme) : Family :=
  match a with
  | .frequencies => { f with frequencies := ss }
  | .pointers => { f with pointers := ss }
  | .counts => { f with counts := ss }
  | .positions => { f with positions := ss }

theorem schemes_setSchemes_self (f : Family) (a : Axis) (ss : List Scheme) :
    (f.setSchemes a ss).schemes a = ss := by
  cases a <;> rfl

theorem schemes_setSchemes_of_ne {a b : Axis} (h : b ≠ a) (f : Family) (ss : List Scheme) :
    (f.setSchemes a ss).schemes b = f.schemes b := by
  cases a <;> cases b <;> simp_all [schemes, setSchemes]

/-- The standard readers: with skips and without, and with payloads. -/
def standard : Family where
  name := "standard"
  suffix := "BitStreamIndexReader"
  frequencies := [.gamma, .shiftedGamma, .delta]
  pointers := [.gamma, .shiftedGamma, .delta, .golomb]
  counts := [.none, .unary, .gamma, .shiftedGamma, .delta]
  positions :=
    [.none, .gamma, .shiftedGamma, .delta, .golomb, .skewedGolomb, .interpolative]
  skips := [true, false]
  payloads := true

/-- The high-performance readers: no skips, no payloads, and every quantity is stored. -/
def highPerformance : Family where
  name := "high-performance"
  suffix := "BitStreamHPIndexReader"
  frequencies := [.gamma, .shiftedGamma, .delta]
  pointers := [.gamma, .shiftedGamma, .delta, .golomb]
  counts := [.unary, .gamma, .shiftedGamma, .delta]
  positions := [.gamma, .shiftedGamma, .delta]

/-- The default families. -/
def defaults : List Family := [standard, highPerformance]

end Family

/-- Families under their names, in order. -/
abbrev Catalogue := List (String × Family)

namespace Catalogue

/-- The default families under their own names. -/
def default : Catalogue :=
  Family.defaults.map fun f => (f.name, f)

/-- The families in order. -/
def families (c : Catalogue) : List Family :=
  c.map (·.2)

/-- The family under a name. -/
def find? (c : Catalogue) (name : Text) : Option Family :=
  (List.find? (fun e => Text.ofString e.1 == name) c).map (·.2)

/-- The catalogue with another family under a name that it has. -/
def set (c : Catalogue) (name : Text) (f : Family) : Catalogue :=
  c.map fun e => if Text.ofString e.1 == name then (e.1, f) else e

/-- The families under some names, in the order of the names. -/
def pick (c : Catalogue) (names : List String) : List Family :=
  names.filterMap fun n => c.find? (Text.ofString n)

end Catalogue

end BitReaders
