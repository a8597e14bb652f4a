import BitReaders.Reader.Variant

/-!
# Expansion requests

A request names a template, the macros to expand it with, and the file for the result. It is
written as a command line of a preprocessor.

- `firstRepeat?`, `checkUnique`: the first name that occurs a second time.
- `Layout`: the directories and file extensions; the paths of templates and results.
- `Request`: a request; `Request.generic` for a family, `Request.ofVariant` for a variant.
- `allVariants`: the variants of some families, if no two have the same class name.
- `buildRequests`: the requests of some families, if no two write the same file.
- `Request.render`, `renderRequests`, `classList`: commands, and class names, as text.
- `summary`: the numbers of requests per family and in all.
-/

namespace BitReaders

/-! ## Uniqueness -/

/-- The first element that has occurred before, in a list after the elements `seen`. -/
def firstRepeatAfter (seen : List String) : List String → Option String
  | [] => none
  | n :: ns => if n ∈ seen then some n else firstRepeatAfter (n :: seen) ns

/-- The first element of a list that has occurred before. -/
def firstRepeat? (names : List String) : Option String :=
  firstRepeatAfter [] names

/-- What must not repeat, and the name that does. -/
structure Repetition where
  what : String
  name : String
  deriving DecidableEq, Repr

/-- The wording of a repetition. -/
def Repetition.message (r : Repetition) : String :=
  "Duplicate " ++ r.what ++ ": " ++ r.name

/-- Refuses names that repeat. -/
def checkUnique (names : List String) (what : String) : Except Repetition Unit :=
  match firstRepeat? names with
  | none => .ok ()
  | some n => .error ⟨what, n⟩

/-- What class names are called in messages. -/
def classNameLabel : String := "class name"

/-- What output paths are called in messages. -/
def outputPathLabel : String := "output path"

/-! ## Layout -/

/-- Where templates are and where results go. -/
structure Layout where
  indexDir : String := "src/it/unimi/di/big/mg4j/index"
  wiredSubdir : String := "wired"
  templateExt : String := ".c"
  outputExt : String := ".java"
  deriving DecidableEq, Repr

namespace Layout

/-- The template of a family. -/
def templatePath (l : Layout) (f : Family) : String :=
  l.indexDir ++ "/" ++ f.suffix ++ l.templateExt

/-- The file for the unspecialised reader of a family. -/
def genericOutputPath (l : Layout) (f : Family) : String :=
  l.indexDir ++ "/" ++ f.suffix ++ l.outputExt

/-- The file for a specialised reader. -/
def variantOutputPath (l : Layout) (className : String) : String :=
  l.indexDir ++ "/" ++ l.wiredSubdir ++ "/" ++ className ++ l.outputExt

end Layout

/-! ## Requests -/

/-- The expansion of a template into one file. -/
structure Request where
  className : String
  templatePath : String
  outputPath : String
  macros : List Macro := []
  deriving DecidableEq, Repr

namespace Request

/-- The request for the unspecialised reader of a family. -/
def generic (f : Family) (l : Layout) : Request where
  className := f.suffix
  templatePath := l.templatePath f
  outputPath := l.genericOutputPath f
  macros := [.present "GENERIC", .define "CLASSNAME" f.suffix]

/-- The request for a specialised reader. -/
def ofVariant (v : Variant) (l : Layout) : Request where
  className := v.className
  templatePath := l.templatePath v.family
  outputPath := l.variantOutputPath v.className
  macros := v.macros

end Request

/-- The variants of some families, in order, if their class names are distinct. -/
def allVariants (fs : List Family) : Except Repetition (List Variant) :=
  let vs := fs.flatMap Family.variants
  (checkUnique (vs.map Variant.className) classNameLabel).map fun _ => vs

/-- The requests of a family: the unspecialised reader first, then those of the variants `vs` that
are its own. -/
def Family.requests (f : Family) (vs : List Variant) (l : Layout) : List Request :=
  .generic f l :: (vs.filter (·.family = f)).map (.ofVariant · l)

/-- The requests of some families, if no two specialised readers have the same class name and no
two requests write the same file. The class names are looked at first. -/
def buildRequests (fs : List Family) (l : Layout) : Except Repetition (List Request) :=
  match allVariants fs with
  | .error e => .error e
  | .ok vs =>
    let rs := fs.flatMap fun f => f.requests vs l
    (checkUnique (rs.map Request.outputPath) outputPathLabel).map fun _ => rs

/-! ## Text -/

/-- The default preprocessor. -/
def defaultExpander : String := "gcc"

/-- The flags of every command: preprocess only, keep comments, write no line markers. -/
def expanderFlags : List String := ["-E", "-C", "-P"]

/-- The words of a request's command. -/
def Request.tokens (expander : String) (r : Request) : List String :=
  expander :: expanderFlags ++ r.macros.map Macro.flag ++
    ["-c", r.templatePath, ">", r.outputPath]

/-- The command of a request. -/
def Request.render (expander : String) (r : Request) : String :=
  " ".intercalate (r.tokens expander)

/-- The commands of some requests, a line each. -/
def renderRequests (expander : String) (rs : List Request) : String :=
  String.join (rs.map fun r => r.render expander ++ "\n")

/-- The class names of some requests, a line each. -/
def classList (rs : List Request) : String :=
  String.join (rs.map fun r => r.className ++ "\n")

/-! ## Summary -/

/-- The summary line of a family. -/
def Family.summaryLine (f : Family) : String :=
  let vs := f.variants
  let payloads := vs.countP Variant.isPayload
  "readergen: " ++ f.name ++ ": " ++ toString (vs.length - payloads) ++ " variants, " ++
    toString payloads ++ " payload variants, 1 generic"

/-- The summary of some families and their requests: a line per family and the total. -/
def summary (fs : List Family) (rs : List Request) : List String :=
  fs.map Family.summaryLine ++
    ["readergen: " ++ toString rs.length ++ " expansion requests"]

end BitReaders
