import BitReaders.DecisionTree.Basic
import BitReaders.Files.Access
import BitReaders.Options.Parse

/-!
# Outcomes of a run

- `Abort`: why a run stops without a message of its own, with its wording.
- `Ending`: an exit status, or an abort.
- `Outcome`: the ending, what was printed, and the volume after the run.
- `Manual`: a program's name, usage and manual; `Manual.stop` is the outcome of a run that ends
  while its arguments are read.
-/

namespace BitReaders

/-- An option whose value is needed as a text. -/
inductive TextOption where
  | expander
  | indexDir
  | wiredSubdir
  deriving DecidableEq, Repr

/-- Why a run stops without a message of its own. -/
inductive Abort where
  /-- A tree has no listing, for no fault of the arguments. -/
  | tree (e : DecisionTree.Error)
  | access (f : Fault)
  /-- The value of an option was dropped, and the run needs it. -/
  | dropped (o : TextOption)
  deriving DecidableEq, Repr

/-- The wording of an abort. -/
def Abort.message : Abort → String
  | .tree e => e.message
  | .access f => f.message
  | .dropped .expander => "sequence item 0: expected str instance, list found"
  | .dropped .indexDir => "'list' object has no attribute 'rstrip'"
  | .dropped .wiredSubdir => "'list' object has no attribute 'strip'"

/-- How a run ends. -/
inductive Ending where
  | exit (status : Nat)
  | abort (a : Abort)
  deriving DecidableEq, Repr

/-- How a run ends, what it has printed, and the volume after it. -/
structure Outcome where
  ending : Ending
  stdout : String
  stderr : String
  volume : Volume
  deriving DecidableEq, Repr

/-- What a program says about itself. -/
structure Manual where
  program : String
  usage : String
  /-- The manual after the usage. -/
  details : String

namespace Manual

/-- What is printed for a usage error. -/
def complaint (m : Manual) (e : UsageError) : String :=
  m.usage ++ m.program ++ ": error: " ++ e.message ++ "\n"

/-- The outcome of a run that ends while its arguments are read. -/
def stop (m : Manual) (v : Volume) : Stop → Outcome
  | .help => ⟨.exit 0, m.usage ++ m.details, "", v⟩
  | .usage e => ⟨.exit 2, "", m.complaint e, v⟩

end Manual

end BitReaders
