import BitReaders.Options.Grammar

/-!
# Reading a command line

The arguments are read from left to right. A run of operands between two options is given to the
operands of the grammar that are still pending; what is left over is reported at the end.

- `Stop`: why reading ends early: the manual is asked for, or a usage error.
- `Plain`: an operand or the separator, in a run.
- `fill`: gives a run to the pending operands.
- `Grammar.cluster`: short options written together behind one dash.
- `Progress`, `Grammar.scan`: the settings so far, what is pending and what is left over.
- `Grammar.parse`: the settings that arguments ask for.
-/

namespace BitReaders

/-- Why reading ends early. -/
inductive Stop where
  | help
  | usage (e : UsageError)
  deriving DecidableEq, Repr

/-- An argument that is no option. -/
inductive Plain where
  | separator
  | operand (argument : String)
  deriving DecidableEq, Repr

/-- The argument as it was written. -/
def Plain.argument : Plain → String
  | .separator => "--"
  | .operand a => a

/-- Whether an argument is the separator. -/
def Plain.isSeparator (p : Plain) : Bool :=
  p == .separator

/-- Two dashes given as a value are dropped. -/
def keepValue (value : String) : Option String :=
  if value = "--" then none else some value

/-- The settings after an operand was given an argument. -/
def Operand.give {σ : Type} (o : Operand σ) (value : Option String) (s : σ) : Except Stop σ :=
  match value with
  | none => .ok s
  | some v =>
    match o.set v s with
    | .ok s' => .ok s'
    | .error cause => .error (.usage (.refused o.name cause))

/-- Gives a run to the pending operands, in order: each takes one argument and the separators
around it. One that is not required may take none. The result is the settings, the operands still
pending and the arguments left over. -/
def fill {σ : Type} : List (Operand σ) → List Plain → σ →
    Except Stop (σ × List (Operand σ) × List Plain)
  | [], ps, s => .ok (s, [], ps)
  | o :: os, ps, s =>
    match ps.dropWhile Plain.isSeparator with
    | .operand a :: rest =>
      let value := if ps.head? = some .separator then some a else keepValue a
      match o.give value s with
      | .error e => .error e
      | .ok s' => fill os (rest.dropWhile Plain.isSeparator) s'
    | _ => if o.required then .ok (s, o :: os, ps) else fill os [] s

/-- Settings in the making. -/
structure Progress (σ : Type) where
  settings : σ
  pending : List (Operand σ)
  extras : List String

namespace Progress

variable {σ : Type}

/-- After a run of operands. An empty run does nothing. -/
def run (p : Progress σ) (ps : List Plain) : Except Stop (Progress σ) :=
  if ps.isEmpty then .ok p
  else
    match fill p.pending ps p.settings with
    | .error e => .error e
    | .ok (s, os, rest) => .ok ⟨s, os, p.extras ++ rest.map Plain.argument⟩

/-- After an option that takes no value. -/
def take (p : Progress σ) (o : Opt σ) : Except Stop (Progress σ) :=
  match o.action with
  | .help => .error .help
  | .flag set => .ok { p with settings := set p.settings }
  | .value _ => .error (.usage (.noValue o.label))

/-- After options that take no value, in order. -/
def takeAll (p : Progress σ) : List (Opt σ) → Except Stop (Progress σ)
  | [] => .ok p
  | o :: os =>
    match p.take o with
    | .error e => .error e
    | .ok q => q.takeAll os

/-- After an option with a value. -/
def takeValue (p : Progress σ) (o : Opt σ) (set : Option String → σ → Except String σ)
    (value : String) : Except Stop (Progress σ) :=
  match set (keepValue value) p.settings with
  | .ok s => .ok { p with settings := s }
  | .error cause => .error (.usage (.refused o.label cause))

end Progress

namespace Grammar

variable {σ : Type}

/-- Short options behind one dash, the first of which is `o`: those that take no value, then the
last one with the text attached to it. -/
def cluster (g : Grammar σ) (o : Opt σ) : List Char →
    Except Stop (List (Opt σ) × Opt σ × Option (List Char))
  | [] => .ok ([], o, none)
  | c :: cs =>
    match o.action with
    | .value _ => .ok ([], o, some (c :: cs))
    | _ =>
      match g.find? ['-', c] with
      | none => .error (.usage (.ignoredValue o.label (String.ofList (c :: cs))))
      | some o' => (g.cluster o' cs).map fun r => (o :: r.1, r.2)

/-- The options that one argument stands for, where `o` was found under `name` with a text attached:
those before the last, and the last with its text. -/
def expand (g : Grammar σ) (o : Opt σ) (name : List Char) (attached : Option (List Char)) :
    Except Stop (List (Opt σ) × Opt σ × Option (List Char)) :=
  match attached, o.action with
  | none, _ => .ok ([], o, none)
  | some v, .value _ => .ok ([], o, some v)
  | some v, _ =>
    if v ≠ [] ∧ name.take 2 ≠ ['-', '-'] then g.cluster o v
    else .error (.usage (.ignoredValue o.label (String.ofList v)))

/-- Reads the words after the operands `ps`, a run that is not finished. -/
def scan (g : Grammar σ) (ps : List Plain) (p : Progress σ) :
    List (Word σ) → Except Stop (Progress σ)
  | [] => p.run ps
  | .operand a :: ws => g.scan (ps ++ [.operand a]) p ws
  | .separator :: ws => g.scan (ps ++ [.separator]) p ws
  | .unknown a :: ws =>
    match p.run ps with
    | .error e => .error e
    | .ok p => g.scan [] { p with extras := p.extras ++ [a] } ws
  | .option o name attached :: ws =>
    match p.run ps with
    | .error e => .error e
    | .ok p =>
      match g.expand o name attached with
      | .error e => .error e
      | .ok (before, last, text) =>
        match last.action, text, ws with
        | .value set, some v, ws =>
          match p.takeAll before with
          | .error e => .error e
          | .ok p =>
            match p.takeValue last set (String.ofList v) with
            | .error e => .error e
            | .ok p => g.scan [] p ws
        | .value set, none, .operand a :: ws =>
          match p.takeAll before with
          | .error e => .error e
          | .ok p =>
            match p.takeValue last set a with
            | .error e => .error e
            | .ok p => g.scan [] p ws
        | .value _, none, _ => .error (.usage (.noValue last.label))
        | _, _, ws =>
          match p.takeAll (before ++ [last]) with
          | .error e => .error e
          | .ok p => g.scan [] p ws

/-- The settings at the end, if no required operand is absent and no argument is left over. -/
def finish (p : Progress σ) : Except Stop σ :=
  let absent := p.pending.filter Operand.required
  if !absent.isEmpty then .error (.usage (.missing (absent.map Operand.name)))
  else if !p.extras.isEmpty then .error (.usage (.unrecognized p.extras))
  else .ok p.settings

/-- The settings that arguments ask for, from the settings `s` without any. -/
def parse (g : Grammar σ) (s : σ) (arguments : List String) : Except Stop σ :=
  match g.words arguments with
  | .error e => .error (.usage e)
  | .ok ws =>
    match g.scan [] ⟨s, g.operands, []⟩ ws with
    | .error e => .error e
    | .ok p => finish p

end Grammar

end BitReaders
