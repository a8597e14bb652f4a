import BitReaders.Json.Display
import BitReaders.Reader.Family

/-!
# Overriding axes

A JSON document may replace the lists of schemes, and of skips, of the families in a catalogue:

    {"families": {"high-performance": {"positions": ["GAMMA", "DELTA"]}}}

- `Place`: a part of the document; `Cause`: what is wrong there; `Override.Error`: why a document
  is refused, with its wording.
- `Change`: what one member of a family's object asks for; `Change.read?` checks it against the
  family as it was before the document.
- `Catalogue.override`: the catalogue after all changes, or the first error in document order.
-/

namespace BitReaders

open Json (Value Kind Members)

/-! ## Errors -/

/-- A part of an override document. -/
inductive Place where
  | document
  | families
  | family (name : Text)
  | axis (family axis : Text)
  deriving DecidableEq, Repr

/-- What is wrong at a place. -/
inductive Cause where
  /-- The value is of another kind. -/
  | kind (expected got : Kind)
  /-- The list is empty. -/
  | empty
  /-- The family comes only with skips, or only without. -/
  | noSkipAxis
  /-- The family has no payload readers, so every quantity must be stored. -/
  | noneNotAllowed
  /-- There is no such axis. -/
  | unknownAxis
  deriving DecidableEq, Repr

/-- Why an override document is refused. -/
inductive Override.Error where
  | at (place : Place) (cause : Cause)
  | unknownFamily (name : Text)
  | unknownScheme (text : Text)
  deriving DecidableEq, Repr

/-- A place, in a document that comes from `source`. -/
def Place.message (source : String) : Place → String
  | .document => source
  | .families => source ++ ": families"
  | .family name => source ++ ": " ++ name.display
  | .axis name member => source ++ ": " ++ name.display ++ "." ++ member.display

/-- The name of the family that a place is in, quoted. -/
def Place.quotedFamily : Place → String
  | .family name => name.quoted
  | .axis name _ => name.quoted
  | _ => ""

/-- The wording of a cause. -/
def Cause.message (place : Place) : Cause → String
  | .kind expected got => "expected " ++ expected.name ++ ", got " ++ got.name
  | .empty => "expected a non-empty list"
  | .noSkipAxis => "family has no skip axis"
  | .noneNotAllowed => "NONE is not allowed in family " ++ place.quotedFamily
  | .unknownAxis => "unknown axis"

/-- The wording of the error for a text that names no scheme. -/
def unknownSchemeMessage (t : Text) : String :=
  "Unknown coding scheme: " ++ t.quoted

/-- The wording of an error in a document that comes from `source`. -/
def Override.Error.message (source : String) : Override.Error → String
  | .at place cause => place.message source ++ ": " ++ cause.message place
  | .unknownFamily name => source ++ ": unknown family " ++ name.quoted
  | .unknownScheme text => unknownSchemeMessage text

namespace Override

/-! ## Parts of the document -/

/-- The members of a value that must be an object. -/
def members (place : Place) : Value → Except Error Members
  | .object ms => .ok ms
  | v => .error (.at place (.kind .object v.kind))

/-- The items of a value that must be an array with at least one item. -/
def items (place : Place) : Value → Except Error (List Value)
  | .array [] => .error (.at place .empty)
  | .array vs => .ok vs
  | v => .error (.at place (.kind .array v.kind))

/-- The truth values of a list. -/
def booleans (place : Place) : List Value → Except Error (List Bool)
  | [] => .ok []
  | .bool b :: vs => (booleans place vs).map (b :: ·)
  | v :: _ => .error (.at place (.kind .bool v.kind))

/-- The schemes that the items of a list name as they display. -/
def namedSchemes : List Value → Except Error (List Scheme)
  | [] => .ok []
  | v :: vs =>
    match Scheme.parse? v.display with
    | some s => (namedSchemes vs).map (s :: ·)
    | none => .error (.unknownScheme v.display)

/-! ## Changes -/

/-- What one member of a family's object asks for. -/
inductive Change where
  | skips (bs : List Bool)
  | schemes (axis : Axis) (ss : List Scheme)
  deriving DecidableEq, Repr

/-- The family after a change. -/
def Change.apply (f : Family) : Change → Family
  | .skips bs => { f with skips := bs }
  | .schemes a ss => f.setSchemes a ss

/-- The name of the skip axis. -/
def skipAxis : Text :=
  Text.ofString "skips"

/-- The axis of schemes with a name. -/
def axis? (name : Text) : Option Axis :=
  Axis.all.find? fun a => Text.ofString a.name == name

/-- The change that the member `axis` with value `v` asks for in the family `f`, which the document
calls `name`. -/
def Change.read (f : Family) (name axis : Text) (v : Value) : Except Error Change :=
  let place := Place.axis name axis
  match items place v with
  | .error e => .error e
  | .ok vs =>
    if axis = skipAxis then
      if f.skips.length < 2 then .error (.at place .noSkipAxis)
      else (booleans place vs).map .skips
    else
      match axis? axis with
      | none => .error (.at place .unknownAxis)
      | some a =>
        match namedSchemes vs with
        | .error e => .error e
        | .ok ss =>
          if !f.payloads ∧ .none ∈ ss then .error (.at place .noneNotAllowed)
          else .ok (.schemes a ss)

/-- The changes that the members of a family's object ask for, in order. -/
def changes (f : Family) (name : Text) : Members → Except Error (List Change)
  | [] => .ok []
  | (axis, v) :: ms =>
    match Change.read f name axis v with
    | .error e => .error e
    | .ok c => (changes f name ms).map (c :: ·)

/-- The family `f`, called `name`, after the changes that its object asks for. -/
def family (f : Family) (name : Text) (v : Value) : Except Error Family :=
  match members (.family name) v with
  | .error e => .error e
  | .ok ms => (changes f name ms).map fun cs => cs.foldl Change.apply f

/-- The catalogue after the changes of each family's object, in order. -/
def families (c : Catalogue) : Members → Except Error Catalogue
  | [] => .ok c
  | (name, v) :: ms =>
    match c.find? name with
    | none => .error (.unknownFamily name)
    | some f =>
      match family f name v with
      | .error e => .error e
      | .ok g => families (c.set name g) ms

end Override

/-- The catalogue after an override document. A document without families is refused as one whose
families are `null`. -/
def Catalogue.override (c : Catalogue) (document : Value) : Except Override.Error Catalogue :=
  match Override.members .document document with
  | .error e => .error e
  | .ok ms =>
    match Override.members .families ((ms.find? (Text.ofString "families")).getD .null) with
    | .error e => .error e
    | .ok fs => Override.families c fs

end BitReaders
