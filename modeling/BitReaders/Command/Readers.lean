import BitReaders.Command.Outcome
import BitReaders.Reader.Override
import BitReaders.Reader.Request

/-!
# The command line for readers

The program prints the expansion commands, or the class names, of the reader families, or writes
them to a file.

- `Readers.Settings`: what the program is asked for; `Readers.grammar`, its options.
- `Complaint`: why the program refuses, with its wording; `Trouble`: a complaint or an abort.
- `Settings.catalogue`, `Settings.report`: the families after an override document, and what is
  printed about them.
- `Readers.run`: the outcome for a list of arguments on a volume.
-/

namespace BitReaders.Readers

/-! ## Settings -/

/-- What the program is asked for. A text option has no value if the one given was dropped. -/
structure Settings where
  expander : Option String := some defaultExpander
  indexDir : Option String := some ({} : Layout).indexDir
  wiredSubdir : Option String := some ({} : Layout).wiredSubdir
  /-- The families to print; nothing if all are. -/
  families : Option (List String) := none
  /-- The path of the override document; empty if there is none. -/
  axes : String := ""
  listClasses : Bool := false
  /-- The path of the file to write; empty if the text is printed. -/
  out : String := ""
  verbose : Bool := false
  deriving DecidableEq, Repr

/-- The names of the families, in alphabetical order. -/
def familyChoices : List String :=
  ["high-performance", "standard"]

/-- One more family to print. A dropped name counts as a request for families but names none. -/
def chooseFamily (name : Option String) (s : Settings) : Except String Settings :=
  match name with
  | none => .ok { s with families := some (s.families.getD []) }
  | some n =>
    if n ∈ familyChoices then .ok { s with families := some (s.families.getD [] ++ [n]) }
    else
      .error ("invalid choice: " ++ quoted n ++ " (choose from " ++
        ", ".intercalate (familyChoices.map quoted) ++ ")")

/-- The options of the program. -/
def options : List (Opt Settings) :=
  [⟨["-h", "--help"], .help⟩,
    ⟨["--expander"], .value fun v s => .ok { s with expander := v }⟩,
    ⟨["--index-dir"], .value fun v s => .ok { s with indexDir := v }⟩,
    ⟨["--wired-subdir"], .value fun v s => .ok { s with wiredSubdir := v }⟩,
    ⟨["--family"], .value chooseFamily⟩,
    ⟨["--axes"], .value fun v s => .ok { s with axes := v.getD "" }⟩,
    ⟨["--list-classes"], .flag fun s => { s with listClasses := true }⟩,
    ⟨["--out"], .value fun v s => .ok { s with out := v.getD "" }⟩,
    ⟨["--verbose"], .flag fun s => { s with verbose := true }⟩]

/-- The command line of the program. -/
def grammar : Grammar Settings :=
  ⟨options, []⟩

/-- The manual of the program. -/
def manual : Manual where
  program := "readergen.py"
  usage := "usage: readergen.py [-h] [--expander EXPANDER] [--index-dir INDEX_DIR]\n" ++
    "                    [--wired-subdir WIRED_SUBDIR]\n" ++
    "                    [--family \x7bhigh-performance,standard\x7d] [--axes AXES]\n" ++
    "                    [--list-classes] [--out OUT] [--verbose]\n"
  details := "\nEmit preprocessor commands for the wired bitstream index readers.\n\n" ++
    "options:\n" ++
    "  -h, --help            show this help message and exit\n" ++
    "  --expander EXPANDER   Preprocessor program (default: gcc).\n" ++
    "  --index-dir INDEX_DIR\n" ++
    "                        Directory holding the reader templates.\n" ++
    "  --wired-subdir WIRED_SUBDIR\n" ++
    "                        Subdirectory for specialised readers.\n" ++
    "  --family \x7bhigh-performance,standard\x7d\n" ++
    "                        Reader family to emit (repeatable; defaults to all,\n" ++
    "                        standard first).\n" ++
    "  --axes AXES           Optional JSON file overriding axis value lists.\n" ++
    "  --list-classes        Print class names instead of commands.\n" ++
    "  --out OUT             Write output to this file instead of stdout.\n" ++
    "  --verbose             Print a per-family summary to stderr.\n"

/-! ## Errors -/

/-- Why the program refuses. -/
inductive Complaint where
  | document (r : Refusal)
  | override (source : String) (e : Override.Error)
  | repetition (r : Repetition)
  deriving DecidableEq, Repr

/-- The wording of a complaint. -/
def Complaint.message : Complaint → String
  | .document r => r.message
  | .override source e => e.message source
  | .repetition r => r.message

/-- Why the program prints no requests. -/
inductive Trouble where
  | complaint (c : Complaint)
  | abort (a : Abort)
  deriving DecidableEq, Repr

/-- The trouble of a document that could not be read. -/
def Trouble.ofFailure : Failure → Trouble
  | .refused r => .complaint (.document r)
  | .fault f => .abort (.access f)

/-! ## The report -/

/-- A text without the slashes at its end. -/
def dropSlashes (s : String) : String :=
  String.ofList ((s.toList.reverse.dropWhile (· = '/')).reverse)

/-- A text without the slashes at its two ends. -/
def trimSlashes (s : String) : String :=
  String.ofList (trimEnds (· = '/') s.toList)

namespace Settings

/-- The path of the override document. -/
def axesPath? (s : Settings) : Option Path :=
  if s.axes = "" then none else some (.ofString s.axes)

/-- The path of the file to write. -/
def outPath? (s : Settings) : Option Path :=
  if s.out = "" then none else some (.ofString s.out)

/-- The families to print, in the order of the catalogue. -/
def selected (s : Settings) (c : Catalogue) : List Family :=
  match s.families with
  | none => c.families
  | some names => Catalogue.families (c.filter fun e => names.contains e.1)

/-- The layout with the directories that the program is given. -/
def layout (s : Settings) : Except Abort Layout :=
  match s.indexDir, s.wiredSubdir with
  | none, _ => .error (.dropped .indexDir)
  | _, none => .error (.dropped .wiredSubdir)
  | some d, some w => .ok { indexDir := dropSlashes d, wiredSubdir := trimSlashes w }

/-- The text for some requests. -/
def text (s : Settings) (rs : List Request) : Except Abort String :=
  if s.listClasses then .ok (classList rs)
  else
    match s.expander with
    | some e => .ok (renderRequests e rs)
    | none => if rs.isEmpty then .ok "" else .error (.dropped .expander)

end Settings

/-- What is printed about some families. -/
structure Report where
  text : String
  summary : List String
  deriving DecidableEq, Repr

/-- The catalogue after the override document at a path. -/
def overridden (p : Path) (document : Except Failure Json.Value) : Except Trouble Catalogue :=
  match document with
  | .error f => .error (.ofFailure f)
  | .ok d =>
    match Catalogue.default.override d with
    | .ok c => .ok c
    | .error e => .error (.complaint (.override p.toString e))

/-- The report on the families of a catalogue. -/
def Settings.report (s : Settings) (c : Catalogue) : Except Trouble Report :=
  let fs := s.selected c
  match s.layout with
  | .error a => .error (.abort a)
  | .ok l =>
    match buildRequests fs l with
    | .error r => .error (.complaint (.repetition r))
    | .ok rs =>
      match s.text rs with
      | .error a => .error (.abort a)
      | .ok t => .ok ⟨t, if s.verbose then summary fs rs else []⟩

/-! ## Runs -/

/-- The catalogue of a run on a volume. -/
def Settings.catalogue (s : Settings) (v : Volume) : Except Trouble Catalogue :=
  match s.axesPath? with
  | none => .ok .default
  | some p => overridden p (v.readDocument p)

/-- What is printed for a complaint. -/
def Complaint.print (c : Complaint) : String :=
  manual.program ++ ": ERROR: " ++ c.message ++ "\n"

/-- What is printed for the summary of a report. -/
def Report.printSummary (r : Report) : String :=
  String.join (r.summary.map (· ++ "\n"))

/-- The outcome of a run in trouble. -/
def Trouble.outcome (v : Volume) : Trouble → Outcome
  | .complaint c => ⟨.exit 2, "", c.print, v⟩
  | .abort a => ⟨.abort a, "", "", v⟩

/-- The outcome of a run with a report. -/
def Settings.deliver (s : Settings) (r : Report) (v : Volume) : Outcome :=
  match s.outPath? with
  | none => ⟨.exit 0, r.text, r.printSummary, v⟩
  | some p =>
    match v.writeText p r.text with
    | (.ok (), w) => ⟨.exit 0, "", r.printSummary, w⟩
    | (.error f, w) => ⟨.abort (.access f), "", "", w⟩

/-- The outcome of a run. -/
def run (arguments : List String) (v : Volume) : Outcome :=
  match grammar.parse {} arguments with
  | .error stop => manual.stop v stop
  | .ok s =>
    match (s.catalogue v).bind s.report with
    | .error t => t.outcome v
    | .ok r => s.deliver r v

end BitReaders.Readers
