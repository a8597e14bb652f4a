import BitReaders.Json.Scan

/-!
# Reading JSON documents

A document is read in steps. Between two steps the reader holds a stack of unfinished arrays and
objects and knows what is due: a value, a member's name, or what may follow a value.

- `Frame`: an unfinished array or object. `State`: what is due, over a stack of frames.
- `State.step`: reads one token and what belongs to it; every step moves on (`step_lt`).
- `State.run`: steps until the stack is empty and a value has been read.
- `Place`: line, column and offset of a position.
- `Json.read`: the value of a whole document, or why and where it is malformed.
-/

namespace BitReaders.Json

/-- An array or object that has begun. -/
inductive Frame where
  /-- An array with the items before the current one, the last first. -/
  | items (before : List Value)
  /-- An object with the members before the current one, whose name has been read. -/
  | member (before : Members) (name : Text)
  deriving Repr

/-- What is due. -/
inductive State where
  /-- A value. -/
  | beforeValue (stack : List Frame)
  /-- The name of a member, in an object with the members `before`. -/
  | beforeName (before : Members) (stack : List Frame)
  /-- What follows the value `v`. -/
  | afterValue (v : Value) (stack : List Frame)
  deriving Repr

namespace State

/-- A string at this position, and the position past it. -/
def string (cs : List Char) : Except Flaw (Text × List Char) :=
  match cs with
  | '"' :: r => scanString cs r
  | _ => .error (.malformed .name cs)

/-- The step from where a value is due. -/
def stepValue (stack : List Frame) : List Char → Except Flaw (State × List Char)
  | '[' :: cs =>
    match skipBlanks cs with
    | ']' :: r => .ok (.afterValue (.array []) stack, r)
    | r => .ok (.beforeValue (.items [] :: stack), r)
  | '\x7b' :: cs =>
    match skipBlanks cs with
    | '\x7d' :: r => .ok (.afterValue (.object []) stack, r)
    | r => .ok (.beforeName [] stack, r)
  | '"' :: cs => (scanString ('"' :: cs) cs).map fun p => (.afterValue (.string p.1) stack, p.2)
  | cs => (scanScalar cs).map fun p => (.afterValue p.1 stack, p.2)

/-- The step from where a member's name is due: the name and the colon after it. -/
def stepName (before : Members) (stack : List Frame) (cs : List Char) :
    Except Flaw (State × List Char) :=
  match string cs with
  | .error f => .error f
  | .ok (name, r) =>
    match skipBlanks r with
    | ':' :: s => .ok (.beforeValue (.member before name :: stack), skipBlanks s)
    | s => .error (.malformed .colon s)

/-- The step from the value `v` inside a frame: the frame ends here, or a comma follows. -/
def stepAfter (v : Value) (frame : Frame) (stack : List Frame) (cs : List Char) :
    Except Flaw (State × List Char) :=
  match frame, skipBlanks cs with
  | .items before, ']' :: r => .ok (.afterValue (.array (v :: before).reverse) stack, r)
  | .items before, ',' :: r => .ok (.beforeValue (.items (v :: before) :: stack), skipBlanks r)
  | .member before name, '\x7d' :: r => .ok (.afterValue (.object (before.insert name v)) stack, r)
  | .member before name, ',' :: r => .ok (.beforeName (before.insert name v) stack, skipBlanks r)
  | _, r => .error (.malformed .comma r)

/-! ## Every step moves on -/

theorem skipBlanks_lt_of_eq_cons {cs r : List Char} {c : Char} (h : skipBlanks cs = c :: r) :
    r.length < cs.length := by
  have := skipBlanks_length_le cs
  rw [h, List.length_cons] at this
  omega

theorem stepValue_lt {stack : List Frame} {cs r : List Char} {s : State}
    (h : stepValue stack cs = .ok (s, r)) : r.length < cs.length := by
  unfold stepValue at h
  split at h
  · rename_i cs
    have hle := skipBlanks_length_le cs
    split at h
    · rename_i hs
      have := skipBlanks_lt_of_eq_cons hs
      simp only [Except.ok.injEq, Prod.mk.injEq] at h
      obtain ⟨-, rfl⟩ := h
      simp only [List.length_cons]
      omega
    · simp only [Except.ok.injEq, Prod.mk.injEq] at h
      obtain ⟨-, rfl⟩ := h
      simp only [List.length_cons]
      omega
  · rename_i cs
    have hle := skipBlanks_length_le cs
    split at h
    · rename_i hs
      have := skipBlanks_lt_of_eq_cons hs
      simp only [Except.ok.injEq, Prod.mk.injEq] at h
      obtain ⟨-, rfl⟩ := h
      simp only [List.length_cons]
      omega
    · simp only [Except.ok.injEq, Prod.mk.injEq] at h
      obtain ⟨-, rfl⟩ := h
      simp only [List.length_cons]
      omega
  · rename_i cs
    cases hs : scanString ('"' :: cs) cs with
    | error f => simp [hs, Except.map] at h
    | ok p =>
      simp only [hs, Except.map, Except.ok.injEq, Prod.mk.injEq] at h
      obtain ⟨-, rfl⟩ := h
      have := scanString_lt (t := p.1) (r := p.2) hs
      simp only [List.length_cons]
      omega
  · cases hs : scanScalar cs with
    | error f => simp [hs, Except.map] at h
    | ok p =>
      simp only [hs, Except.map, Except.ok.injEq, Prod.mk.injEq] at h
      obtain ⟨-, rfl⟩ := h
      exact scanScalar_lt (v := p.1) (r := p.2) hs

theorem string_lt {cs r : List Char} {t : Text} (h : string cs = .ok (t, r)) :
    r.length < cs.length := by
  unfold string at h
  split at h
  · have := scanString_lt h
    simp only [List.length_cons]
    omega
  · simp at h

theorem stepName_lt {before : Members} {stack : List Frame} {cs r : List Char} {s : State}
    (h : stepName before stack cs = .ok (s, r)) : r.length < cs.length := by
  unfold stepName at h
  split at h
  · simp at h
  · rename_i name u hu
    have hlt := string_lt hu
    split at h
    · rename_i w hw
      have := skipBlanks_lt_of_eq_cons hw
      have := skipBlanks_length_le w
      simp only [Except.ok.injEq, Prod.mk.injEq] at h
      obtain ⟨-, rfl⟩ := h
      omega
    · simp at h

theorem stepAfter_lt {v : Value} {frame : Frame} {stack : List Frame} {cs r : List Char}
    {s : State} (h : stepAfter v frame stack cs = .ok (s, r)) : r.length < cs.length := by
  unfold stepAfter at h
  split at h
  · rename_i hs
    simp only [Except.ok.injEq, Prod.mk.injEq] at h
    obtain ⟨-, rfl⟩ := h
    exact skipBlanks_lt_of_eq_cons hs
  · rename_i u hs
    have := skipBlanks_lt_of_eq_cons hs
    have := skipBlanks_length_le u
    simp only [Except.ok.injEq, Prod.mk.injEq] at h
    obtain ⟨-, rfl⟩ := h
    omega
  · rename_i hs
    simp only [Except.ok.injEq, Prod.mk.injEq] at h
    obtain ⟨-, rfl⟩ := h
    exact skipBlanks_lt_of_eq_cons hs
  · rename_i u hs
    have := skipBlanks_lt_of_eq_cons hs
    have := skipBlanks_length_le u
    simp only [Except.ok.injEq, Prod.mk.injEq] at h
    obtain ⟨-, rfl⟩ := h
    omega
  · simp at h

/-! ## The run -/

/-- One step; none if a whole value has been read. -/
def step (s : State) (cs : List Char) : Option (Except Flaw (State × List Char)) :=
  match s with
  | .beforeValue stack => some (stepValue stack cs)
  | .beforeName before stack => some (stepName before stack cs)
  | .afterValue _ [] => none
  | .afterValue v (frame :: stack) => some (stepAfter v frame stack cs)

theorem step_lt {s s' : State} {cs r : List Char} (h : step s cs = some (.ok (s', r))) :
    r.length < cs.length := by
  unfold step at h
  split at h
  · exact stepValue_lt (Option.some.inj h)
  · exact stepName_lt (Option.some.inj h)
  · simp at h
  · exact stepAfter_lt (Option.some.inj h)

/-- The value that the steps from here on read, and the position past it. -/
def run (s : State) (cs : List Char) : Except Flaw (Value × List Char) :=
  match s, h : step s cs with
  | .afterValue v [], _ => .ok (v, cs)
  | _, some (.ok (s', r)) =>
    have : r.length < cs.length := step_lt h
    run s' r
  | _, some (.error f) => .error f
  | _, none => .error (.malformed .value cs)
  termination_by cs.length

end State

/-! ## Documents -/

/-- A position in a document: its line and column, from one, and its offset, from zero. -/
structure Place where
  line : Nat
  column : Nat
  offset : Nat
  deriving DecidableEq, Repr

/-- The place of an offset in a document. -/
def Place.of (document : List Char) (offset : Nat) : Place :=
  let before := document.take offset
  ⟨before.count '\n' + 1, (before.reverse.takeWhile (· ≠ '\n')).length + 1, offset⟩

/-- Why a document is refused. -/
inductive ReadError where
  | malformed (issue : Issue) (place : Place)
  | oversized (digits : Nat)
  deriving DecidableEq, Repr

/-- The error of a flaw in a document. -/
def Flaw.toError (document : List Char) : Flaw → ReadError
  | .malformed issue rest => .malformed issue (.of document (document.length - rest.length))
  | .oversized digits => .oversized digits

/-- The wording of an error. -/
def ReadError.message : ReadError → String
  | .malformed issue p =>
    issue.message ++ ": line " ++ toString p.line ++ " column " ++ toString p.column ++ " (char " ++
      toString p.offset ++ ")"
  | .oversized digits =>
    Numeral.limitMessage (": value has " ++ toString digits ++ " digits")

/-- The value of a document, or its first flaw. -/
def scanDocument (document : List Char) : Except Flaw Value :=
  match document with
  | '\uFEFF' :: _ => .error (.malformed .byteOrderMark document)
  | _ =>
    match State.run (.beforeValue []) (skipBlanks document) with
    | .error f => .error f
    | .ok (v, r) =>
      match skipBlanks r with
      | [] => .ok v
      | s => .error (.malformed .extra s)

/-- The value of a document, or why it is refused. -/
def read (document : List Char) : Except ReadError Value :=
  (scanDocument document).mapError (·.toError document)

end BitReaders.Json
