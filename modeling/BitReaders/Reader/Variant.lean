import BitReaders.Reader.Family

/-!
# Variants and their macros

A variant of a family has one scheme per axis. The template is specialised to it by macros.

- `Macro`: a preprocessor macro; `Macro.flag` is the command-line flag that sets it.
- `Variant`: the choices of a reader; `Variant.className`, `Variant.macros`.
- `Scheme.allowed`: positions need counts.
- `Family.variants`: the variants of a family, the choices of later axes varying faster; for each
  choice of skips, frequencies and pointers the payload variant comes last.
-/

namespace BitReaders

/-! ## Macros -/

/-- A macro: the flag letter, the name, and the value, if it has one. -/
structure Macro where
  kind : String
  name : String
  value : Option String
  deriving DecidableEq, Repr

namespace Macro

/-- A definition without a value. -/
def present (name : String) : Macro := ⟨"D", name, none⟩

/-- A definition with a value. -/
def define (name value : String) : Macro := ⟨"D", name, some value⟩

/-- An assertion with a value. -/
def assertion (name value : String) : Macro := ⟨"A", name, some value⟩

/-- The flag that sets a macro. -/
def flag (m : Macro) : String :=
  match m.value with
  | none => "-" ++ m.kind ++ m.name
  | some v => "-" ++ m.kind ++ m.name ++ "=" ++ v

end Macro

/-! ## Variants -/

/-- One choice of schemes in a family. -/
structure Variant where
  family : Family
  hasSkips : Bool
  frequencies : Scheme
  pointers : Scheme
  counts : Scheme := .none
  positions : Scheme := .none
  isPayload : Bool := false
  deriving DecidableEq, Repr

namespace Variant

/-- The scheme on an axis. -/
def scheme (v : Variant) : Axis → Scheme
  | .frequencies => v.frequencies
  | .pointers => v.pointers
  | .counts => v.counts
  | .positions => v.positions

/-- The name of the reader's class: its choices in words, then the suffix of the family. -/
def className (v : Variant) : String :=
  (if v.hasSkips then "Skip" else "") ++ v.frequencies.capitalized ++ v.pointers.capitalized ++
    (if v.isPayload then "Payload" else v.counts.capitalized ++ v.positions.capitalized) ++
    v.family.suffix

/-- The macros that specialise the template to the variant. -/
def macros (v : Variant) : List Macro :=
  (if v.hasSkips then [.present "SKIPS"] else []) ++
    Axis.all.map (fun a => .assertion a.name (v.scheme a).name) ++
    [.define "CLASSNAME" v.className] ++
    (if v.isPayload then [.present "PAYLOADS"] else [])

end Variant

/-! ## Enumeration -/

/-- Whether a reader may have these counts and positions: positions cannot be decoded without
counts. -/
def Scheme.allowed (counts positions : Scheme) : Bool :=
  positions == .none || counts != .none

/-- The allowed pairs of counts and positions of a family, the positions varying faster. -/
def Family.pairs (f : Family) : List (Scheme × Scheme) :=
  f.counts.flatMap fun c => (f.positions.filter c.allowed).map fun p => (c, p)

/-- The variants with one choice of skips, frequencies and pointers. -/
def Family.block (f : Family) (skips : Bool) (frequencies pointers : Scheme) : List Variant :=
  f.pairs.map (fun (c, p) => ⟨f, skips, frequencies, pointers, c, p, false⟩) ++
    if f.payloads then [⟨f, skips, frequencies, pointers, .none, .none, true⟩] else []

/-- The variants of a family. -/
def Family.variants (f : Family) : List Variant :=
  f.skips.flatMap fun s => f.frequencies.flatMap fun q => f.pointers.flatMap fun p => f.block s q p

end BitReaders
