import BitReaders.Text.Numeral
import BitReaders.Text.Quoted

/-!
# Command-line grammars

A program takes options, each known by one or more names, and operands, each known by its place.

- `Action`: what an option does to the settings `σ` of a program.
- `Opt`, `Operand`, `Grammar`: an option, an operand, and all of a program.
- `UsageError`: why arguments are refused, with its wording.
- `Word`: what an argument is; `Grammar.words` tells it for each of a list.

An argument that starts with a dash is an option, if it is not the dash alone, a negative number,
or a text with a space. A long option may be cut short if no other option starts that way. After
`--` all arguments are operands.
-/

namespace BitReaders

/-! ## Grammars -/

/-- What an option does. -/
inductive Action (σ : Type) where
  /-- Stops and shows the manual. -/
  | help
  /-- Changes the settings. -/
  | flag (set : σ → σ)
  /-- Takes a value, which may be refused. A value of two dashes is dropped and counts as none. -/
  | value (set : Option String → σ → Except String σ)

/-- An option with all its names. -/
structure Opt (σ : Type) where
  names : List String
  action : Action σ

/-- An operand. One that is not required may be absent. -/
structure Operand (σ : Type) where
  name : String
  required : Bool
  set : String → σ → Except String σ

/-- The options and operands of a program. Required operands come first. -/
structure Grammar (σ : Type) where
  options : List (Opt σ)
  operands : List (Operand σ)

/-- What an option is called in messages. -/
def Opt.label {σ : Type} (o : Opt σ) : String :=
  "/".intercalate o.names

/-! ## Usage errors -/

/-- Why arguments are refused. -/
inductive UsageError where
  /-- The argument starts like several options. -/
  | ambiguous (argument : String) (candidates : List String)
  /-- No value follows the option. -/
  | noValue (option : String)
  /-- The option takes no value but has one attached. -/
  | ignoredValue (option value : String)
  /-- The value of the option or operand is refused. -/
  | refused (label cause : String)
  /-- Required operands are absent. -/
  | missing (operands : List String)
  /-- Arguments are left over. -/
  | unrecognized (arguments : List String)
  deriving DecidableEq, Repr

/-- The wording of a usage error. -/
def UsageError.message : UsageError → String
  | .ambiguous a cs => "ambiguous option: " ++ a ++ " could match " ++ ", ".intercalate cs
  | .noValue o => "argument " ++ o ++ ": expected one argument"
  | .ignoredValue o v => "argument " ++ o ++ ": ignored explicit argument " ++ quoted v
  | .refused l c => "argument " ++ l ++ ": " ++ c
  | .missing os => "the following arguments are required: " ++ ", ".intercalate os
  | .unrecognized as => "unrecognized arguments: " ++ " ".intercalate as

/-! ## What an argument is -/

/-- An argument in its role. -/
inductive Word (σ : Type) where
  /-- An option under the name `name`, with the text attached to it. -/
  | option (o : Opt σ) (name : List Char) (attached : Option (List Char))
  /-- Looks like an option, but no option has such a name. -/
  | unknown (argument : String)
  /-- The first `--`. -/
  | separator
  | operand (argument : String)

/-- Whether a text is a dash and digits, with a point before one of them at most. A newline at the
end does not count. -/
def isNegativeNumber (cs : List Char) : Bool :=
  let body := (cs.drop 1)
  let body := if body.getLast? = some '\n' then body.dropLast else body
  let isDigit := fun c => (digitValue? c).isSome
  match body.dropWhile isDigit with
  | [] => !body.isEmpty
  | c :: ds => c = '.' && !ds.isEmpty && ds.all isDigit

/-- The parts of a text before and after its first equals sign, if it has one. -/
def splitValue (cs : List Char) : List Char × Option (List Char) :=
  match cs.span (· ≠ '=') with
  | (name, []) => (name, none)
  | (name, _ :: value) => (name, some value)

namespace Grammar

variable {σ : Type}

/-- All names with their options, in order of declaration. -/
def names (g : Grammar σ) : List (List Char × Opt σ) :=
  g.options.flatMap fun o => o.names.map fun n => (n.toList, o)

/-- The option with a name. -/
def find? (g : Grammar σ) (name : List Char) : Option (Opt σ) :=
  (g.names.find? fun e => e.1 == name).map (·.2)

/-- The readings of an argument as a name cut short or with a value attached. -/
def readings (g : Grammar σ) (cs : List Char) : List (Opt σ × List Char × Option (List Char)) :=
  if cs.take 2 = ['-', '-'] then
    let (start, value) := splitValue cs
    (g.names.filter fun e => start.isPrefixOf e.1).map fun e => (e.2, e.1, value)
  else
    g.names.filterMap fun e =>
      if e.1 = cs.take 2 then some (e.2, e.1, some (cs.drop 2))
      else if cs.isPrefixOf e.1 then some (e.2, e.1, none)
      else none

/-- The role of an argument before any `--`. -/
def word (g : Grammar σ) (argument : String) : Except UsageError (Word σ) :=
  let cs := argument.toList
  if cs.head? ≠ some '-' then .ok (.operand argument)
  else
    match g.find? cs with
    | some o => .ok (.option o cs none)
    | none =>
      if cs = ['-'] then .ok (.operand argument)
      else
        match splitValue cs with
        | (name, value) =>
          match value.bind fun _ => g.find? name with
          | some o => .ok (.option o name value)
          | none =>
            match g.readings cs with
            | [(o, name, value)] => .ok (.option o name value)
            | [] =>
              if isNegativeNumber cs || cs.contains ' ' then .ok (.operand argument)
              else .ok (.unknown argument)
            | rs => .error (.ambiguous argument (rs.map fun r => String.ofList r.2.1))

/-- The roles of all arguments. -/
def words (g : Grammar σ) : List String → Except UsageError (List (Word σ))
  | [] => .ok []
  | a :: as =>
    if a = "--" then .ok (.separator :: as.map .operand)
    else
      match g.word a with
      | .error e => .error e
      | .ok w => (g.words as).map (w :: ·)

end Grammar

end BitReaders
