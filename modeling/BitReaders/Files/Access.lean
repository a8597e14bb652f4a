import BitReaders.Files.Volume
import BitReaders.Json.Reader
import BitReaders.Text.LineEnds
import BitReaders.Text.Quoted
import BitReaders.Text.Utf8

/-!
# Access to files

- `Fault`: why an access stops a program, with its wording.
- `Refusal`: why a document is refused although the access went well; `Failure` is either.
- `Volume.readDocument`: the JSON value in a file of UTF-8 text with any line ends.
- `Volume.ensureDirectory`: makes a directory and all that are missing above it.
- `Volume.writeText`: writes a text to a file as UTF-8, making the directories above it.

A write that stops may have made directories, but it has changed no file.
-/

namespace BitReaders

/-! ## Faults -/

/-- Why an access stops a program. -/
inductive Fault where
  /-- The path cannot be used. -/
  | path (problem : Problem) (path : Path)
  /-- The path has a null character. -/
  | nullCharacter
  /-- The octets of a file are no text. -/
  | undecodable (flaw : Utf8.Flaw)
  /-- An integer of a document has too many digits. -/
  | oversized (digits : Nat)
  deriving DecidableEq, Repr

/-- The wording of a fault. -/
def Fault.message : Fault → String
  | .path problem p =>
    "[Errno " ++ toString problem.number ++ "] " ++ problem.message ++ ": " ++ quoted p.toString
  | .nullCharacter => "embedded null byte"
  | .undecodable flaw => flaw.message
  | .oversized digits => (Json.ReadError.oversized digits).message

/-- Why a document file is refused. -/
inductive Refusal where
  | missing (path : Path)
  | malformed (path : Path) (issue : Json.Issue) (place : Json.Place)
  deriving DecidableEq, Repr

/-- The wording of a refusal. -/
def Refusal.message : Refusal → String
  | .missing p => "Missing axes file: " ++ p.toString
  | .malformed p issue place =>
    "Invalid JSON in axes file: " ++ p.toString ++ ": " ++
      (Json.ReadError.malformed issue place).message

/-- Why no document could be read. -/
inductive Failure where
  | refused (r : Refusal)
  | fault (f : Fault)
  deriving DecidableEq, Repr

/-! ## Reading -/

/-- The JSON value that the octets of the file at `p` hold. -/
def documentOf (p : Path) (content : Octets) : Except Failure Json.Value :=
  match Utf8.decode content with
  | .error flaw => .error (.fault (.undecodable flaw))
  | .ok cs =>
    match Json.read (foldLineEnds cs) with
    | .ok v => .ok v
    | .error (.malformed issue place) => .error (.refused (.malformed p issue place))
    | .error (.oversized digits) => .error (.fault (.oversized digits))

namespace Volume

/-- The octets of the file that a path leads to. -/
def readFile (v : Volume) (p : Path) : Except Problem Octets :=
  match v.locate p with
  | .error e => .error e
  | .ok l =>
    match v.get? l with
    | none => .error .notFound
    | some .directory => .error .isDirectory
    | some (.file content) => .ok content

/-- The JSON value in the file that a path leads to. A file that is not there is refused. -/
def readDocument (v : Volume) (p : Path) : Except Failure Json.Value :=
  if p.hasNull then .error (.fault .nullCharacter)
  else
    match v.readFile p with
    | .error .notFound => .error (.refused (.missing p))
    | .error e => .error (.fault (.path e p))
    | .ok content => documentOf p content

/-! ## Writing -/

/-- Makes the directory that a path leads to, where nothing is yet. -/
def makeDirectory (v : Volume) (p : Path) : Except Problem Volume :=
  match v.locate p with
  | .error e => .error e
  | .ok l =>
    match v.get? l with
    | none => .ok (v.put l .directory)
    | some _ => .error .exists

/-- Makes the directory with the given names, the last first, unless it is there. If something
above it is missing, that is made before. -/
def ensureNames (root : String) : List String → Volume → Except Fault Unit × Volume
  | [], v => (.ok (), v)
  | n :: above, v =>
    let p : Path := ⟨root, (n :: above).reverse⟩
    match v.makeDirectory p with
    | .ok w => (.ok (), w)
    | .error .notFound =>
      match ensureNames root above v with
      | (.error f, w) => (.error f, w)
      | (.ok (), w) =>
        match w.makeDirectory p with
        | .ok u => (.ok (), u)
        | .error e => (if w.isDirectory p then .ok () else .error (.path e p), w)
    | .error e => (if v.isDirectory p then .ok () else .error (.path e p), v)

/-- Makes the directory that a path leads to, with all above it, unless it is there. -/
def ensureDirectory (v : Volume) (p : Path) : Except Fault Unit × Volume :=
  if p.hasNull then (.error .nullCharacter, v) else ensureNames p.root p.names.reverse v

/-- Sets the octets of the file that a path leads to, in a directory that is there. -/
def writeFile (v : Volume) (p : Path) (content : Octets) : Except Problem Volume :=
  match v.locate p with
  | .error e => .error e
  | .ok l =>
    match v.get? l with
    | some .directory => .error .isDirectory
    | _ => .ok (v.put l (.file content))

/-- Writes a text to the file that a path leads to, making the directories above it. -/
def writeText (v : Volume) (p : Path) (text : String) : Except Fault Unit × Volume :=
  match v.ensureDirectory p.parent with
  | (.error f, w) => (.error f, w)
  | (.ok (), w) =>
    if p.hasNull then (.error .nullCharacter, w)
    else
      match w.writeFile p (Utf8.encode text.toList) with
      | .error e => (.error (.path e p), w)
      | .ok u => (.ok (), u)

/-- Writes texts to files in turn, up to the first fault. -/
def writeTexts (v : Volume) : List (Path × String) → Except Fault Unit × Volume
  | [] => (.ok (), v)
  | (p, text) :: ws =>
    match v.writeText p text with
    | (.error f, w) => (.error f, w)
    | (.ok (), w) => writeTexts w ws

end Volume

end BitReaders
