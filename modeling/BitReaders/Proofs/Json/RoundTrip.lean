import BitReaders.Proofs.Json.Tokens
import Mathlib.Data.List.Nodup

/-!
# Reading the texts of a value

A document that is a text of a storable value is read as that value.

- `Value.Reads`: wherever the value is written, a run of the reader goes on with it.
- `Bracket`, `Frame.closed`, `Frame.next`: how arrays and objects open, go on and close.
- `State.run_items`, `State.run_members`: the reader collects the items of an array and the members
  of an object in order. `Value.reads_bracket`: so it reads the whole.
- `Value.Storable.reads`: storable values are read so.
- `read_eq_ok`: **every text of a storable value** is read as that value.
-/

namespace BitReaders.Json

/-! ## First tokens -/

theorem Mark.char_injective : Function.Injective Mark.char := by
  intro m n h
  cases m <;> cases n <;> first | rfl | exact absurd h (by decide)

/-- A token whose first character is that of a mark is that mark. -/
theorem WrittenToken.eq_mark {t : Token} {m : Mark} {cs : List Char}
    (h : WrittenToken t (m.char :: cs)) : t = .mark m := by
  generalize hcs : m.char :: cs = text at h
  cases h with
  | mark n =>
    rw [Mark.char_injective (List.cons.inj hcs).1]
  | null =>
    have hchar : m.char = 'n' := (List.cons.inj hcs).1
    cases m <;> exact absurd hchar (by decide)
  | bool b =>
    have hchar : m.char = 't' ∨ m.char = 'f' := by
      cases b with
      | true => exact .inl (List.cons.inj hcs).1
      | false => exact .inr (List.cons.inj hcs).1
    cases m <;> exact absurd hchar (by decide)
  | integer n =>
    have hchar : m.char = '-' ∨ m.char.isDigit = true :=
      Conditional.of_mem_toString (hcs ▸ List.mem_cons_self)
    cases m <;> exact absurd hchar (by decide)
  | string _ =>
    have hchar : m.char = '"' := (List.cons.inj hcs).1
    cases m <;> exact absurd hchar (by decide)

/-- A mark stands where no other token is written. -/
theorem Written.skipBlanks_ne {t : Token} {ts : List Token} {m : Mark} {cs : List Char}
    (h : Written (t :: ts) cs) (ht : t ≠ .mark m) (rest : List Char) :
    skipBlanks cs ≠ m.char :: rest := by
  obtain ⟨text, rest', hskip, htext, -⟩ := h.exists_skipBlanks_eq
  obtain ⟨c, text, rfl, -, -⟩ := htext.exists_cons
  rw [hskip]
  intro heq
  obtain ⟨rfl, -⟩ := List.cons.inj heq
  exact ht htext.eq_mark

/-- A value closes no array. -/
theorem Value.exists_tokens_eq (v : Value) :
    ∃ t ts, v.tokens = t :: ts ∧ t ≠ .mark .closeArray := by
  cases v <;> exact ⟨_, _, rfl, nofun⟩

/-- Joined lists start with the first of them. -/
theorem exists_intercalate_eq {α : Type} (sep l : List α) (ls : List (List α)) :
    ∃ s, sep.intercalate (l :: ls) = l ++ s := by
  cases ls with
  | nil => exact ⟨[], by rw [List.intercalate_singleton, List.append_nil]⟩
  | cons k ls => exact ⟨_, by rw [List.intercalate_cons_cons, List.append_assoc]⟩

/-- A member with a new name is set at the end. -/
theorem Members.insert_of_not_mem {name : Text} {ms : Members} (h : name ∉ ms.map (·.1))
    (v : Value) : ms.insert name v = ms ++ [(name, v)] := by
  induction ms with
  | nil => rfl
  | cons m ms ih =>
    rw [List.map_cons, List.mem_cons, not_or] at h
    rw [insert, if_neg (Ne.symm h.1), ih h.2, List.cons_append]

namespace State

/-! ## Runs -/

variable {stack : List Frame} {toks : List Token} {cs : List Char}

/-- A run goes on after a step. -/
theorem run_of_step {s s' : State} {r : List Char} (h : step s cs = some (.ok (s', r))) :
    run s cs = run s' r := by
  rw [run.eq_def s]
  split
  · cases h
  · rename_i hstep
    cases h.symm.trans hstep
    rfl
  · rename_i hstep
    cases h.symm.trans hstep
  · rename_i hstep
    cases h.symm.trans hstep

/-- Without unfinished arrays and objects a run ends with its value. -/
theorem run_afterValue (v : Value) : run (.afterValue v []) cs = .ok (v, cs) := by
  rw [run.eq_def]

end State

/-- Wherever the value is written and no scalar follows, a run goes on with it. -/
def Value.Reads (v : Value) : Prop :=
  ∀ {toks : List Token} {cs : List Char} (stack : List Frame), Ends toks →
    Written (v.tokens ++ toks) cs → ∃ rest, Written toks rest ∧
      State.run (.beforeValue stack) (skipBlanks cs) = State.run (.afterValue v stack) rest

theorem ends_nil : Ends [] := by
  intro t ht
  cases ht

theorem ends_mark (m : Mark) (toks : List Token) : Ends (.mark m :: toks) := by
  intro t ht
  exact ⟨m, (Option.some.inj ht).symm⟩

namespace State

/-! ## Brackets -/

end State

/-- The two kinds of values with other values inside. -/
inductive Bracket where
  | array
  | object
  deriving DecidableEq, Repr

namespace Bracket

def opening : Bracket → Mark
  | .array => .openArray
  | .object => .openObject

def closing : Bracket → Mark
  | .array => .closeArray
  | .object => .closeObject

/-- The value with nothing inside. -/
def empty : Bracket → Value
  | .array => .array []
  | .object => .object []

/-- What is due after the opening mark of a value that is not empty. -/
def first (stack : List Frame) : Bracket → State
  | .array => .beforeValue (.items [] :: stack)
  | .object => .beforeName [] stack

end Bracket

namespace Frame

def bracket : Frame → Bracket
  | .items _ => .array
  | .member _ _ => .object

/-- The whole value, with `v` as the last value inside. -/
def closed (v : Value) : Frame → Value
  | .items before => .array (v :: before).reverse
  | .member before name => .object (before.insert name v)

/-- What is due after the value `v` and a comma. -/
def next (v : Value) (stack : List Frame) : Frame → State
  | .items before => .beforeValue (.items (v :: before) :: stack)
  | .member before name => .beforeName (before.insert name v) stack

end Frame

namespace State

variable {v : Value} {stack : List Frame} {toks : List Token} {cs : List Char}

/-- A value may close where it opens. -/
theorem step_open_close (k : Bracket)
    (h : Written (.mark k.opening :: .mark k.closing :: toks) cs) :
    ∃ rest, Written toks rest ∧ step (.beforeValue stack) (skipBlanks cs) =
      some (.ok (.afterValue k.empty stack, rest)) := by
  obtain ⟨cs₁, hopen, h₁⟩ := h.exists_skipBlanks_eq_mark
  obtain ⟨rest, hclose, hrest⟩ := h₁.exists_skipBlanks_eq_mark
  refine ⟨rest, hrest, congrArg some ?_⟩
  rw [hopen]
  cases k with
  | array =>
    show stepValue stack ('[' :: cs₁) = _
    rw [stepValue, hclose]
    rfl
  | object =>
    show stepValue stack ('\x7b' :: cs₁) = _
    rw [stepValue, hclose]
    rfl

/-- Else the first part is due. -/
theorem step_open (k : Bracket) {t : Token} (ht : t ≠ .mark k.closing)
    (h : Written (.mark k.opening :: t :: toks) cs) :
    ∃ rest, Written (t :: toks) rest ∧ step (.beforeValue stack) (skipBlanks cs) =
      some (.ok (k.first stack, skipBlanks rest)) := by
  obtain ⟨rest, hopen, hrest⟩ := h.exists_skipBlanks_eq_mark
  have hne : ∀ r, skipBlanks rest ≠ k.closing.char :: r := hrest.skipBlanks_ne ht
  refine ⟨rest, hrest, congrArg some ?_⟩
  rw [hopen]
  cases k with
  | array =>
    show stepValue stack ('[' :: rest) = _
    rw [stepValue]
    split
    · rename_i r hclose
      exact absurd hclose (hne r)
    · rfl
  | object =>
    show stepValue stack ('\x7b' :: rest) = _
    rw [stepValue]
    split
    · rename_i r hclose
      exact absurd hclose (hne r)
    · rfl

theorem step_close (frame : Frame) (h : Written (.mark frame.bracket.closing :: toks) cs) :
    ∃ rest, Written toks rest ∧ step (.afterValue v (frame :: stack)) cs =
      some (.ok (.afterValue (frame.closed v) stack, rest)) := by
  obtain ⟨rest, hskip, hrest⟩ := h.exists_skipBlanks_eq_mark
  refine ⟨rest, hrest, congrArg some ?_⟩
  cases frame <;>
  · unfold stepAfter
    rw [hskip]
    rfl

theorem step_comma (frame : Frame) (h : Written (.mark .comma :: toks) cs) :
    ∃ rest, Written toks rest ∧ step (.afterValue v (frame :: stack)) cs =
      some (.ok (frame.next v stack, skipBlanks rest)) := by
  obtain ⟨rest, hskip, hrest⟩ := h.exists_skipBlanks_eq_mark
  refine ⟨rest, hrest, congrArg some ?_⟩
  cases frame <;>
  · unfold stepAfter
    rw [hskip]
    rfl

/-- The items of an array are collected in order. By induction on the items after the first. -/
theorem run_items (before : List Value) {vs : List Value} (hv : v.Reads) (hvs : ∀ w ∈ vs, w.Reads)
    (h : Written ([.mark .comma].intercalate ((v :: vs).map Value.tokens) ++
      .mark .closeArray :: toks) cs) :
    ∃ rest, Written toks rest ∧
      run (.beforeValue (.items before :: stack)) (skipBlanks cs) =
        run (.afterValue (.array (before.reverse ++ v :: vs)) stack) rest := by
  induction vs generalizing v before cs with
  | nil =>
    rw [List.map_singleton, List.intercalate_singleton] at h
    obtain ⟨cs₁, h₁, hrun⟩ := hv (.items before :: stack) (ends_mark _ _) h
    obtain ⟨rest, hrest, hclose⟩ := step_close (.items before) h₁
    refine ⟨rest, hrest, ?_⟩
    rw [hrun, run_of_step hclose, Frame.closed, List.reverse_cons]
  | cons w vs ih =>
    obtain ⟨hw, hvs⟩ := List.forall_mem_cons.mp hvs
    rw [List.map_cons, List.map_cons, List.intercalate_cons_cons, List.append_assoc,
      List.append_assoc] at h
    obtain ⟨cs₁, h₁, hrun⟩ := hv (.items before :: stack) (ends_mark _ _) h
    -- After the comma the item is the first on the frame, which holds the last item first.
    obtain ⟨cs₂, h₂, hcomma⟩ := step_comma (.items before) h₁
    obtain ⟨rest, hrest, htail⟩ := ih (v :: before) hw hvs h₂
    refine ⟨rest, hrest, ?_⟩
    rw [hrun, run_of_step hcomma, Frame.next, htail, List.reverse_cons, List.append_assoc,
      List.singleton_append]

/-- A name is read with the colon after it. -/
theorem step_name {before : Members} {name : Text}
    (h : Written (.scalar (.string name) :: .mark .colon :: toks) cs) :
    ∃ rest, Written toks rest ∧ step (.beforeName before stack) (skipBlanks cs) =
      some (.ok (.beforeValue (.member before name :: stack), skipBlanks rest)) := by
  obtain ⟨text, cs₁, hskip, htext, h₁⟩ := h.exists_skipBlanks_eq
  obtain ⟨rest, hcolon, hrest⟩ := h₁.exists_skipBlanks_eq_mark
  refine ⟨rest, hrest, congrArg some ?_⟩
  rw [hskip]
  cases htext with
  | string hps =>
    rw [stepName, List.cons_append, List.append_assoc, List.singleton_append, string,
      scanString_flatten hps]
    dsimp only
    rw [hcolon]
    rfl

/-- A member whose name is new goes to the end. -/
theorem insert_of_nodup {before : Members} {m : Text × Value} {ms : Members}
    (hnames : ((before ++ m :: ms).map (·.1)).Nodup) :
    before.insert m.1 m.2 = before ++ [m] := by
  rw [List.map_append, List.map_cons, List.nodup_middle, List.nodup_cons, List.mem_append,
    not_or] at hnames
  exact Members.insert_of_not_mem hnames.1.1 m.2

/-- The members of an object are collected in order, if their names are new. By induction on the
members after the first. -/
theorem run_members (before : Members) {m : Text × Value} {ms : Members} (hm : m.2.Reads)
    (hms : ∀ e ∈ ms, e.2.Reads) (hnames : ((before ++ m :: ms).map (·.1)).Nodup)
    (h : Written ([.mark .comma].intercalate ((m :: ms).map Value.pairTokens) ++
      .mark .closeObject :: toks) cs) :
    ∃ rest, Written toks rest ∧
      run (.beforeName before stack) (skipBlanks cs) =
        run (.afterValue (.object (before ++ m :: ms)) stack) rest := by
  induction ms generalizing m before cs with
  | nil =>
    rw [List.map_singleton, List.intercalate_singleton] at h
    obtain ⟨cs₁, h₁, hname⟩ := step_name h
    obtain ⟨cs₂, h₂, hrun⟩ := hm (.member before m.1 :: stack) (ends_mark _ _) h₁
    obtain ⟨rest, hrest, hclose⟩ := step_close (.member before m.1) h₂
    refine ⟨rest, hrest, ?_⟩
    rw [run_of_step hname, hrun, run_of_step hclose, Frame.closed, insert_of_nodup hnames]
  | cons e ms ih =>
    obtain ⟨he, hms⟩ := List.forall_mem_cons.mp hms
    rw [List.map_cons, List.map_cons, List.intercalate_cons_cons, List.append_assoc,
      List.append_assoc] at h
    obtain ⟨cs₁, h₁, hname⟩ := step_name h
    obtain ⟨cs₂, h₂, hrun⟩ := hm (.member before m.1 :: stack) (ends_mark _ _) h₁
    obtain ⟨cs₃, h₃, hcomma⟩ := step_comma (.member before m.1) h₂
    -- A new name is set at the end, so that the members keep their order.
    rw [Frame.next, insert_of_nodup hnames] at hcomma
    rw [List.append_cons] at hnames
    obtain ⟨rest, hrest, htail⟩ := ih (before ++ [m]) he hms hnames h₃
    refine ⟨rest, hrest, ?_⟩
    rw [run_of_step hname, hrun, run_of_step hcomma, htail, List.append_assoc,
      List.singleton_append]

end State

/-! ## Values -/

namespace Value

/-- A scalar is read in one step. -/
theorem reads_scalar {v : Value} (hv : v.Storable) (htokens : v.tokens = [.scalar v]) :
    v.Reads := by
  intro toks cs stack htoks h
  rw [htokens, List.singleton_append] at h
  obtain ⟨text, rest, hskip, htext, hrest⟩ := h.exists_skipBlanks_eq
  refine ⟨rest, hrest, ?_⟩
  rw [hskip]
  exact State.run_of_step
    (congrArg some (State.stepValue_scalar hv htext (hrest.stops htoks)))

theorem reads_empty (k : Bracket)
    (htokens : k.empty.tokens = [.mark k.opening, .mark k.closing]) : k.empty.Reads := by
  intro toks cs stack _ h
  rw [htokens] at h
  obtain ⟨rest, hrest, hstep⟩ := State.step_open_close k h
  exact ⟨rest, hrest, State.run_of_step hstep⟩

/-- A value between marks is read, if a run collects the parts inside. -/
theorem reads_bracket (k : Bracket) {v : Value} {inner : List Token}
    (htokens : v.tokens = .mark k.opening :: (inner ++ [.mark k.closing]))
    (hfirst : ∃ t ts, inner = t :: ts ∧ t ≠ .mark k.closing)
    (hrun : ∀ {toks cs} (stack : List Frame), Written (inner ++ .mark k.closing :: toks) cs →
      ∃ rest, Written toks rest ∧
        State.run (k.first stack) (skipBlanks cs) = State.run (.afterValue v stack) rest) :
    v.Reads := by
  intro toks cs stack _ h
  obtain ⟨t, ts, rfl, hne⟩ := hfirst
  rw [htokens, List.cons_append, List.append_assoc, List.singleton_append, List.cons_append] at h
  obtain ⟨cs₁, h₁, hstep⟩ := State.step_open k hne h
  obtain ⟨rest, hrest, hinner⟩ := hrun stack h₁
  exact ⟨rest, hrest, (State.run_of_step hstep).trans hinner⟩

theorem reads_array {vs : List Value} (hvs : ∀ v ∈ vs, v.Reads) : (Value.array vs).Reads := by
  cases vs with
  | nil => exact reads_empty .array rfl
  | cons v vs =>
    obtain ⟨hv, hvs⟩ := List.forall_mem_cons.mp hvs
    obtain ⟨t, ts, ht, hne⟩ := v.exists_tokens_eq
    obtain ⟨s, hs⟩ := exists_intercalate_eq [.mark .comma] v.tokens (vs.map tokens)
    refine reads_bracket .array (by rw [tokens, itemTokens_eq]; rfl) ⟨t, ts ++ s, ?_, hne⟩
      fun stack h => State.run_items [] hv hvs h
    rw [List.map_cons, hs, ht, List.cons_append]

theorem reads_object {ms : Members} (hnames : (ms.map (·.1)).Nodup)
    (hms : ∀ m ∈ ms, m.2.Reads) : (Value.object ms).Reads := by
  cases ms with
  | nil => exact reads_empty .object rfl
  | cons m ms =>
    obtain ⟨hm, hms⟩ := List.forall_mem_cons.mp hms
    obtain ⟨s, hs⟩ := exists_intercalate_eq [.mark .comma] (pairTokens m) (ms.map pairTokens)
    refine reads_bracket .object (by rw [tokens, memberTokens_eq]; rfl)
      ⟨.scalar (.string m.1), .mark .colon :: m.2.tokens ++ s, ?_, Token.noConfusion⟩
      fun stack h => State.run_members [] hm hms hnames h
    rw [List.map_cons, hs, pairTokens, List.cons_append]

/-- **Storable values are read** wherever they are written. By induction on the value. -/
theorem Storable.reads {v : Value} (h : v.Storable) : v.Reads := by
  induction h with
  | null => exact reads_scalar .null rfl
  | bool b => exact reads_scalar (.bool b) rfl
  | integer hn => exact reads_scalar (.integer hn) rfl
  | string cs => exact reads_scalar (.string cs) rfl
  | array _ ih => exact reads_array ih
  | object hnames _ _ ih => exact reads_object hnames ih

end Value

/-! ## Documents -/

/-- A text of a value starts with no mark of byte order. -/
theorem Written.ne_byteOrderMark {t : Token} {ts : List Token} {cs : List Char}
    (h : Written (t :: ts) cs) (rest : List Char) : cs ≠ '\uFEFF' :: rest := by
  cases h with
  | @cons _ _ bs text _ hbs ht _ =>
    cases bs with
    | nil =>
      obtain ⟨c, text, rfl, -, hc⟩ := ht.exists_cons
      exact fun heq => hc (List.cons.inj heq).1
    | cons b bs =>
      intro heq
      obtain ⟨rfl, -⟩ := List.cons.inj heq
      exact absurd (hbs '\uFEFF' List.mem_cons_self) (by decide)

/-- **Every text of a storable value** is read as that value. -/
theorem read_eq_ok {v : Value} (hv : v.Storable) {cs : List Char} (h : Written v.tokens cs) :
    read cs = .ok v := by
  obtain ⟨t, ts, ht, -⟩ := v.exists_tokens_eq
  have hmark : ∀ rest, cs ≠ '\uFEFF' :: rest := by
    rw [ht] at h
    exact h.ne_byteOrderMark
  rw [← List.append_nil v.tokens] at h
  obtain ⟨rest, hrest, hrun⟩ := hv.reads [] ends_nil h
  rw [State.run_afterValue] at hrun
  -- What is left after the value is white space only.
  have hscan : scanDocument cs = .ok v := by
    unfold scanDocument
    split
    · rename_i cs
      exact absurd rfl (hmark cs)
    · rw [hrun]
      dsimp only
      rw [hrest.skipBlanks_eq_nil]
  rw [read, hscan]
  rfl

end BitReaders.Json
