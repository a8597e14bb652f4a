import BitReaders.Command.Bits
import BitReaders.Command.Readers

/-!
# The programs

The first argument chooses the program, `bits` or `readers`; the others are its arguments. Files are
those of the computer.

- `Program.report`: prints what a run has printed.
- `Program.readDocument`, `Program.deliver`: the two accesses to files.
- `Program.runReaders`: a run of the program for readers.
-/

namespace BitReaders.Program

/-- Prints what a run has printed, and returns its exit status. -/
def report (o : Outcome) : IO UInt32 := do
  IO.print o.stdout
  IO.eprint o.stderr
  match o.ending with
  | .exit status => return UInt32.ofNat status
  | .abort a =>
    IO.eprintln a.message
    return 1

/-- A volume without files, for runs that use none. -/
def noVolume : Volume := ⟨[], []⟩

/-- The document in a file of the computer. -/
def readDocument (p : Path) : IO (Except Failure Json.Value) := do
  try
    let content ← IO.FS.readBinFile p.toString
    return documentOf p content.toList
  catch
    | .noFileOrDirectory .. => return .error (.refused (.missing p))
    | e => throw e

/-- Writes a report, to a file of the computer if the settings name one. -/
def deliver (s : Readers.Settings) (r : Readers.Report) : IO UInt32 := do
  match s.outPath? with
  | none => IO.print r.text
  | some p =>
    IO.FS.createDirAll p.parent.toString
    IO.FS.writeFile p.toString r.text
  IO.eprint r.printSummary
  return 0

/-- A run of the program for readers on the files of the computer. -/
def runReaders (arguments : List String) : IO UInt32 := do
  match Readers.grammar.parse {} arguments with
  | .error stop => report (Readers.manual.stop noVolume stop)
  | .ok s =>
    let catalogue ←
      match s.axesPath? with
      | none => pure (.ok .default)
      | some p => do
        let document ← readDocument p
        pure (Readers.overridden p document)
    match catalogue.bind s.report with
    | .error t => report (t.outcome noVolume)
    | .ok r => deliver s r

end BitReaders.Program

open BitReaders in
/-- Runs the program that the first argument names. -/
def main (arguments : List String) : IO UInt32 := do
  match arguments with
  | "bits" :: as => Program.report (Bits.run as Program.noVolume)
  | "readers" :: as => Program.runReaders as
  | _ =>
    IO.eprintln "usage: bits ARGUMENTS... | readers ARGUMENTS..."
    return 2
