import BitReaders.Proofs.Options.Comparison

/-!
# An option among other arguments

An option with its value attached, at any place before a separator. The arguments in front of it
are read for themselves, since an option is never the value of another one; then its value is set,
and the arguments behind are read.

- `attached`: the argument that names an option and its value.
- `Grammar.words_append`, `Progress.afterOptions_append`, `Grammar.scan_append_option`: roles and
  readings of the arguments in front.
- `Grammar.parse_insert`: **the reading in its stages**.
- `Grammar.parse_insert_alike`: values that the option treats alike make readings that end alike.
- `Grammar.of_parse_insert`: what the option sets stays, if the arguments behind keep it.
- `Grammar.uses_insert_iff`, `Grammar.uses_append`: the options that arguments use, with one
  argument more and with some in front.
-/

namespace BitReaders

variable {σ τ ε : Type} {R : σ → σ → Prop}

/-- The argument that gives a value to the option with a name. -/
def attached (name value : String) : String :=
  name ++ "=" ++ value

theorem attached_ne_separator (name value : String) : attached name value ≠ "--" := by
  intro h
  have hequals : '=' ∈ (attached name value).toList := by
    simp [attached, String.toList_append]
  rw [h] at hequals
  exact absurd hequals (by decide)

theorem except_bind_assoc {ρ : Type} (a : Except ε σ) (f : σ → Except ε τ) (g : τ → Except ε ρ) :
    (a.bind f).bind g = a.bind fun s => (f s).bind g := by
  cases a <;> rfl

theorem of_mapError_eq_ok {ε' : Type} {f : ε → ε'} {a : Except ε σ} {s : σ}
    (h : a.mapError f = .ok s) : a = .ok s := by
  cases a with
  | error e => cases h
  | ok t => exact congrArg _ (Except.ok.inj h)

/-! ## The arguments in front -/

namespace Progress

/-- Up to the next option, an option takes no account of the words behind it. -/
theorem afterOptions_append (p : Progress σ) (before : List (Opt σ)) (last : Opt σ)
    (text : Option (List Char)) (us : List (Word σ)) (o : Opt σ) (name : List Char)
    (value : Option (List Char)) (ws : List (Word σ)) :
    p.afterOptions before last text (us ++ .option o name value :: ws) =
      (p.afterOptions before last text us).map fun x =>
        (x.1, x.2 ++ .option o name value :: ws) := by
  obtain ⟨names, action⟩ := last
  cases action with
  | help =>
    simp only [afterOptions]
    cases p.takeAll (before ++ [⟨names, .help⟩]) <;> rfl
  | flag set =>
    simp only [afterOptions]
    cases p.takeAll (before ++ [⟨names, .flag set⟩]) <;> rfl
  | value set =>
    cases text with
    | some v =>
      simp only [afterOptions]
      cases p.takeAll before with
      | error e => rfl
      | ok p =>
        simp only [Except.bind]
        cases p.takeValue ⟨names, .value set⟩ set (String.ofList v) <;> rfl
    | none =>
      cases us with
      | nil => rfl
      | cons u us =>
        -- Only an operand is taken as the value, and an option is none.
        cases u with
        | operand a =>
          simp only [List.cons_append, afterOptions]
          cases p.takeAll before with
          | error e => rfl
          | ok p =>
            simp only [Except.bind]
            cases p.takeValue ⟨names, .value set⟩ set a <;> rfl
        | option => rfl
        | unknown => rfl
        | separator => rfl

end Progress

namespace Grammar

variable {g : Grammar σ}

/-- The roles of arguments do not depend on those in front, if there is no separator among them. -/
theorem words_append {as : List String} (h : "--" ∉ as) (bs : List String) :
    g.words (as ++ bs) = (g.words as).bind fun us => (g.words bs).map (us ++ ·) := by
  induction as with
  | nil =>
    show g.words bs = (g.words bs).map ([] ++ ·)
    cases g.words bs <;> rfl
  | cons a as ih =>
    have ha : a ≠ "--" := fun heq => h (heq ▸ List.mem_cons_self)
    rw [List.cons_append, words, words, if_neg ha, if_neg ha, ih (List.not_mem_of_not_mem_cons h)]
    cases g.word a with
    | error e => rfl
    | ok w =>
      cases g.words as with
      | error e => rfl
      | ok us =>
        cases g.words bs <;> rfl

/-- The words in front of an option are read for themselves. By recursion on them, of which an
option may take two at once. -/
theorem scan_append_option (us : List (Word σ)) (ps : List Plain) (p : Progress σ) (o : Opt σ)
    (name : List Char) (value : Option (List Char)) (ws : List (Word σ)) :
    g.scan ps p (us ++ .option o name value :: ws) =
      (g.scan ps p us).bind fun q => g.scan [] q (.option o name value :: ws) := by
  match us with
  | [] =>
    have hend : ∀ q : Progress σ, g.scan [] q (.option o name value :: ws) =
        (g.expand o name value).bind fun r => (q.afterOptions r.1 r.2.1 r.2.2 ws).bind fun x =>
          g.scan [] x.1 x.2 := fun q => scan_option [] q o name value ws
    rw [List.nil_append, scan_option]
    simp only [hend]
    rfl
  | .operand a :: us => exact scan_append_option us _ p o name value ws
  | .separator :: us => exact scan_append_option us _ p o name value ws
  | .unknown a :: us =>
    rw [List.cons_append, scan_unknown, scan_unknown]
    cases p.run ps with
    | error e => rfl
    | ok p => exact scan_append_option us [] _ o name value ws
  | .option o' name' value' :: us =>
    rw [List.cons_append, scan_option, scan_option]
    cases p.run ps with
    | error e => rfl
    | ok p =>
      cases g.expand o' name' value' with
      | error e => rfl
      | ok r =>
        simp only [Except.bind, Progress.afterOptions_append]
        cases hx : p.afterOptions r.1 r.2.1 r.2.2 us with
        | error e => rfl
        | ok x =>
          have hlength := (Progress.suffix_of_afterOptions hx).length_le
          exact scan_append_option x.2 [] x.1 o name value ws
  termination_by us.length
  decreasing_by all_goals simp only [List.length_cons]; omega

/-! ## The reading in its stages -/

section Insert

variable {before : List String} {a : String} {o : Opt σ} {name value : List Char}
  {set : Option String → σ → Except String σ}

/-- **The reading in its stages**: the arguments in front of the option, its value, and the
arguments behind it. The roles of all of them come first. -/
theorem parse_insert (hbefore : "--" ∉ before) (ha : a ≠ "--")
    (hword : g.word a = .ok (.option o name (some value))) (ho : o.action = .value set) (s : σ)
    (after : List String) :
    g.parse s (before ++ a :: after) =
      ((g.words before).mapError .usage).bind fun us =>
        ((g.words after).mapError .usage).bind fun ws =>
          (g.scan [] ⟨s, g.operands, []⟩ us).bind fun p =>
            (p.takeValue o set (String.ofList value)).bind fun p =>
              (g.scan [] p ws).bind finish := by
  rw [parse_eq_bind, words_append hbefore, words_cons ha hword]
  cases g.words before with
  | error e => rfl
  | ok us =>
    cases g.words after with
    | error e => rfl
    | ok ws =>
      show (g.scan [] _ (us ++ .option o name (some value) :: ws)).bind finish =
        (g.scan [] ⟨s, g.operands, []⟩ us).bind _
      rw [scan_append_option, except_bind_assoc]
      simp only [scan_value ho, except_bind_assoc]

/-- Operands that are pending were so before. -/
theorem pending_subset_of_scan {ps : List Plain} {p q : Progress σ} {ws : List (Word σ)}
    (h : g.scan ps p ws = .ok q) : q.pending ⊆ p.pending := by
  have hstart : Progress.Abreast p.pending Eq p p := ⟨rfl, rfl, List.Subset.refl _, rfl⟩
  have halike : Alike (fun _ => True) _ (g.scan ps p ws) (g.scan ps p ws) :=
    scan_alike (fun _ => trivial) ws ps hstart (fun o _ => o.respects_eq)
      fun o _ => Action.respects_eq fun _ => trivial
  rw [h] at halike
  obtain ⟨_, -, hq⟩ := halike.exists_ok
  exact hq.subset

/-- **Values that the option treats alike** make readings that end alike, if every operand and every
option that is used behind it keeps the settings so. -/
theorem parse_insert_alike {b : String} {name' value' : List Char}
    (hoperands : ∀ o ∈ g.operands, o.Respects R) (hbefore : "--" ∉ before) (ha : a ≠ "--")
    (hb : b ≠ "--") (hworda : g.word a = .ok (.option o name (some value)))
    (hwordb : g.word b = .ok (.option o name' (some value'))) (ho : o.action = .value set)
    (hset : ∀ s, Alike (fun _ => True) R (set (keepValue (String.ofList value)) s)
      (set (keepValue (String.ofList value')) s)) {after : List String}
    (hafter : ∀ us ws, g.words before = .ok us → g.words after = .ok ws → ∀ o, g.Involves ws o →
      o.action.Respects (fun _ => True) R) (s : σ) :
    Alike (fun _ => True) R (g.parse s (before ++ a :: after))
      (g.parse s (before ++ b :: after)) := by
  rw [parse_insert hbefore ha hworda ho, parse_insert hbefore hb hwordb ho]
  refine Alike.bind_self fun us hus => Alike.bind_self fun ws hws => Alike.bind_self fun p hp => ?_
  have hstart : Progress.Abreast g.operands Eq p p := ⟨rfl, rfl, pending_subset_of_scan hp, rfl⟩
  refine (hstart.takeValue (fun _ => trivial) (hset p.settings)).bind fun p q _ hpq => ?_
  have hrest := hafter us ws (of_mapError_eq_ok hus) (of_mapError_eq_ok hws)
  exact (scan_alike (fun _ => trivial) ws [] hpq hoperands hrest).bind fun p q _ hpq =>
    finish_alike (fun _ => trivial) hpq

/-- **What the option sets stays**, if every operand and every option that is used behind it keeps
it. -/
theorem of_parse_insert {P : σ → Prop}
    (hoperands : ∀ o ∈ g.operands, o.Respects (Unchanged P)) (hbefore : "--" ∉ before)
    (ha : a ≠ "--") (hword : g.word a = .ok (.option o name (some value)))
    (ho : o.action = .value set)
    (hset : ∀ s t, set (keepValue (String.ofList value)) s = .ok t → P t) {after : List String}
    (hafter : ∀ us ws, g.words before = .ok us → g.words after = .ok ws → ∀ o, g.Involves ws o →
      o.action.Respects (fun _ => True) (Unchanged P)) {s t : σ}
    (h : g.parse s (before ++ a :: after) = .ok t) : P t := by
  -- The reading is compared with itself, which tells that its settings have the property.
  have hvalue : ∀ s, Alike (fun _ => True) (Unchanged P)
      (set (keepValue (String.ofList value)) s) (set (keepValue (String.ofList value)) s) := by
    intro s
    cases hs : set (keepValue (String.ofList value)) s with
    | error e => exact .error trivial
    | ok t => exact .ok ⟨hset s t hs, rfl⟩
  have halike := parse_insert_alike hoperands hbefore ha ha hword hword ho hvalue hafter s
  rw [h] at halike
  obtain ⟨_, -, hP, -⟩ := halike.exists_ok
  exact hP

/-! ## The options that arguments use -/

/-- An option that arguments use is still used with another option among them. -/
theorem uses_insert_iff {text : Option (List Char)} {unused : String} (hbefore : "--" ∉ before)
    (ha : a ≠ "--") (hword : g.word a = .ok (.option o name text)) (hname : unused ∉ o.names)
    (after : List String) :
    g.Uses unused (before ++ a :: after) ↔ g.Uses unused (before ++ after) := by
  rw [Uses, Uses, words_append hbefore, words_append hbefore, words_cons ha hword]
  cases g.words before with
  | error e => exact Iff.rfl
  | ok us =>
    cases g.words after with
    | error e => exact Iff.rfl
    | ok ws =>
      constructor
      · rintro ⟨_, hwords, o', name', text', hw, hname'⟩
        cases hwords
        refine ⟨us ++ ws, rfl, o', name', text', ?_, hname'⟩
        rcases List.mem_append.mp hw with hw | hw
        · exact List.mem_append_left ws hw
        · rcases List.mem_cons.mp hw with hw | hw
          · cases hw
            exact absurd hname' hname
          · exact List.mem_append_right us hw
      · rintro ⟨_, hwords, o', name', text', hw, hname'⟩
        cases hwords
        refine ⟨us ++ .option o name text :: ws, rfl, o', name', text', ?_, hname'⟩
        rcases List.mem_append.mp hw with hw | hw
        · exact List.mem_append_left _ hw
        · exact List.mem_append_right us (List.mem_cons_of_mem _ hw)

/-- An option that arguments use is still used with others in front. -/
theorem uses_append {used : String} {after : List String} {us : List (Word σ)}
    (hbefore : "--" ∉ before) (hus : g.words before = .ok us) (h : g.Uses used after) :
    g.Uses used (before ++ after) := by
  obtain ⟨ws, hws, o, name, text, hw, hname⟩ := h
  refine ⟨us ++ ws, ?_, o, name, text, List.mem_append_right us hw, hname⟩
  rw [words_append hbefore, hus, hws]
  rfl

end Insert

end Grammar

end BitReaders
