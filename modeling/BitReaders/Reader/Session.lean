import BitReaders.Reader.Override
import BitReaders.Reader.Request

/-!
# Sessions

A session holds a catalogue, which override documents change, and answers questions about it.

- `Session.Step`: a document to apply, or a question about some families.
- `Session.Reply`: the answer, or the wording of a refusal.
- `Session.next`: a reply and the catalogue after it; a refused document leaves the catalogue.
- `Session.run`: the replies to a list of steps.
-/

namespace BitReaders.Session

/-- One step of a session. Questions are about the named families, or all of them. -/
inductive Step where
  | apply (document : Json.Value) (source : String)
  | classes (names : Option (List String))
  | render (names : Option (List String))
  | summary (names : Option (List String))

/-- The reply to a step. -/
inductive Reply where
  | families (fs : List Family)
  | lines (ls : List String)
  | text (t : String)
  | refused (message : String)
  deriving DecidableEq, Repr

/-- The families that a question is about. -/
def chosen (c : Catalogue) : Option (List String) → List Family
  | none => c.families
  | some names => c.pick names

/-- The reply to a question whose answer may be a repetition. -/
def Reply.ofExcept {α : Type} (answer : α → Reply) : Except Repetition α → Reply
  | .ok a => answer a
  | .error e => .refused e.message

/-- The reply to a step, and the catalogue after it. -/
def next (c : Catalogue) : Step → Reply × Catalogue
  | .apply document source =>
    match c.override document with
    | .ok c' => (.families c'.families, c')
    | .error e => (.refused (e.message source), c)
  | .classes names =>
    (.ofExcept (fun vs => .lines (vs.map Variant.className)) (allVariants (chosen c names)), c)
  | .render names =>
    (.ofExcept (fun rs => .text (renderRequests defaultExpander rs))
      (buildRequests (chosen c names) {}), c)
  | .summary names =>
    let fs := chosen c names
    (.ofExcept (fun rs => .lines (BitReaders.summary fs rs)) (buildRequests fs {}), c)

/-- The replies to the steps of a session that starts with a catalogue. -/
def run (c : Catalogue) : List Step → List Reply
  | [] => []
  | s :: ss =>
    let (r, c') := next c s
    r :: run c' ss

end BitReaders.Session
