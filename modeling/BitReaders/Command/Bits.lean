import BitReaders.Command.Outcome
import BitReaders.DecisionTree.Listing

/-!
# The command line for decision trees

The program takes the width of a signed type and, optionally, an indentation, and prints the
listing of the balanced decision tree of that width.

- `Bits.natural`: the number that an operand denotes; it must be a numeral and not negative.
- `Bits.grammar`: the two operands.
- `Bits.run`: the outcome for a list of arguments.
-/

namespace BitReaders.Bits

/-- What the program is asked for. -/
structure Settings where
  bits : Int := 0
  tabs : Int := 0
  deriving DecidableEq, Repr

/-- The number that an operand denotes, or why it is refused. -/
def natural (t : Text) : Except String Int :=
  match Numeral.read? t with
  | none => .error ("not an integer: " ++ t.quoted)
  | some n => if n < 0 then .error ("must be >= 0: " ++ toString n) else .ok n

/-- The options of the program. -/
def options : List (Opt Settings) :=
  [⟨["-h", "--help"], .help⟩]

/-- The operands of the program. -/
def operands : List (Operand Settings) :=
  [⟨"bits", true, fun v s => (natural (.ofString v)).map fun n => { s with bits := n }⟩,
    ⟨"tabs", false, fun v s => (natural (.ofString v)).map fun n => { s with tabs := n }⟩]

/-- The command line of the program. -/
def grammar : Grammar Settings :=
  ⟨options, operands⟩

/-- The manual of the program. -/
def manual : Manual where
  program := "msbgen.py"
  usage := "usage: msbgen.py [-h] bits [tabs]\n"
  details := "\nGenerate an MSB decision tree for a signed integer.\n\n" ++
    "positional arguments:\n" ++
    "  bits        Bit width of the signed type.\n" ++
    "  tabs        Extra indentation (tabs).\n\n" ++
    "options:\n" ++
    "  -h, --help  show this help message and exit\n"

/-- The outcome of a run. -/
def run (arguments : List String) (v : Volume) : Outcome :=
  match grammar.parse {} arguments with
  | .error stop => manual.stop v stop
  | .ok s =>
    match DecisionTree.generate s.bits s.tabs with
    | .ok text => ⟨.exit 0, text, "", v⟩
    | .error e =>
      if e.isRefusal then ⟨.exit 2, "", manual.program ++ ": ERROR: " ++ e.message ++ "\n", v⟩
      else ⟨.abort (.tree e), "", "", v⟩

end BitReaders.Bits
