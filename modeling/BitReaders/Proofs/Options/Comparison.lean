import BitReaders.Options.Parse
import BitReaders.Proofs.Options.Words
import Mathlib.Data.List.Infix

/-!
# Comparing two readings of a command line

The same arguments are read twice, from settings in a relation that every option in use and every
operand respects. Both readings end alike: with the same error, or with settings in the relation.

- `Alike`: the same error twice, one of those that are allowed, or two values in a relation.
- `Action.Respects`, `Operand.Respects`: an option or an operand keeps a relation between settings;
  an option stops only as is allowed. `fill_alike`: so do operands in a run.
- `Progress.afterOptions`, `Grammar.scan_option`: one word that names an option, as one step.
- `Grammar.Involves`: the options that some words may stand for; a cluster of short options stands
  for several (`involves_of_expand`).
- `Progress.Abreast`, `Grammar.scan_alike`: the invariant of two readings, and that every word
  keeps it.
- `Grammar.parse_alike`: **both readings end alike**. `Grammar.of_parse`: what every option and
  every operand keeps is true of the settings at the end.
- `Grammar.parse_cons_flag`, `Grammar.parse_cons_value`, `Grammar.parse_cons_next`: an option in
  front of the other arguments changes the settings that these are read from.
-/

namespace BitReaders

variable {σ τ ε : Type} {R : σ → σ → Prop} {E : Stop → Prop}

/-! ## Results and options in a relation -/

/-- The same error twice, one of those in `E`, or two values in the relation `R`. -/
inductive Alike (E : ε → Prop) (R : σ → σ → Prop) : Except ε σ → Except ε σ → Prop where
  | error {e : ε} (h : E e) : Alike E R (.error e) (.error e)
  | ok {s t : σ} (h : R s t) : Alike E R (.ok s) (.ok t)

/-- What goes on from two results alike ends alike, if it does so from values in the relation. -/
theorem Alike.bind {F : ε → Prop} {Q : τ → τ → Prop} {a b : Except ε σ} {f g : σ → Except ε τ}
    (h : Alike F R a b) (hfg : ∀ s t, a = .ok s → R s t → Alike F Q (f s) (g t)) :
    Alike F Q (a.bind f) (b.bind g) := by
  cases h with
  | error he => exact .error he
  | ok hst => exact hfg _ _ rfl hst

/-- What goes on from the same result ends alike, if it does so from the same value. -/
theorem Alike.bind_self {Q : τ → τ → Prop} {a : Except ε σ} {f g : σ → Except ε τ}
    (h : ∀ s, a = .ok s → Alike (fun _ => True) Q (f s) (g s)) :
    Alike (fun _ => True) Q (a.bind f) (a.bind g) := by
  cases a with
  | error e => exact .error trivial
  | ok s => exact h s rfl

theorem Alike.mono {F : ε → Prop} {Q : σ → σ → Prop} {a b : Except ε σ} (h : Alike F R a b)
    (hRQ : ∀ s t, R s t → Q s t) : Alike F Q a b := by
  cases h with
  | error he => exact .error he
  | ok hst => exact .ok (hRQ _ _ hst)

theorem Alike.self (a : Except ε σ) : Alike (fun _ => True) Eq a a := by
  cases a with
  | error e => exact .error trivial
  | ok s => exact .ok rfl

theorem Alike.eq_error {F : ε → Prop} {e : ε} {b : Except ε σ} (h : Alike F R (.error e) b) :
    b = .error e := by
  cases h
  rfl

theorem Alike.exists_ok {F : ε → Prop} {s : σ} {b : Except ε σ} (h : Alike F R (.ok s) b) :
    ∃ t, b = .ok t ∧ R s t := by
  cases h with
  | ok hst => exact ⟨_, rfl, hst⟩

/-- What goes on from a result ends well only if both do. -/
theorem exists_of_bind_eq_ok {a : Except ε σ} {f : σ → Except ε τ} {r : τ}
    (h : a.bind f = .ok r) : ∃ x, a = .ok x ∧ f x = .ok r := by
  cases a with
  | error e => cases h
  | ok x => exact ⟨x, rfl, h⟩

/-- Settings with a property, and the same once more: a reading that is compared with itself. -/
def Unchanged (P : σ → Prop) (s t : σ) : Prop :=
  P s ∧ t = s

/-- What the option does keeps the relation; it shows the manual only if that is allowed. -/
def Action.Respects (E : Stop → Prop) (R : σ → σ → Prop) : Action σ → Prop
  | .help => E .help
  | .flag set => ∀ s t, R s t → R (set s) (set t)
  | .value set => ∀ v s t, R s t → Alike (fun _ => True) R (set v s) (set v t)

/-- An option keeps equal settings equal. -/
theorem Action.respects_eq {a : Action σ} (h : a = .help → E .help) : a.Respects E Eq := by
  cases a with
  | help => exact h rfl
  | flag set => exact fun s t hst => congrArg set hst
  | value set =>
    rintro v s _ rfl
    exact .self (set v s)

/-- What the operand sets keeps the relation. -/
def Operand.Respects (R : σ → σ → Prop) (o : Operand σ) : Prop :=
  ∀ v s t, R s t → Alike (fun _ => True) R (o.set v s) (o.set v t)

/-- An operand keeps equal settings equal. -/
theorem Operand.respects_eq (o : Operand σ) : o.Respects Eq := by
  rintro v s _ rfl
  exact .self (o.set v s)

theorem Operand.give_alike (hE : ∀ u, E (.usage u)) {o : Operand σ} (ho : o.Respects R)
    (value : Option String) {s t : σ} (h : R s t) :
    Alike E R (o.give value s) (o.give value t) := by
  cases value with
  | none => exact .ok h
  | some v =>
    have hset := ho v s t h
    unfold Operand.give
    dsimp only
    generalize o.set v s = a at hset
    generalize o.set v t = b at hset
    cases hset with
    | error => exact .error (hE _)
    | ok hst => exact .ok hst

/-- Two results of a run of operands, with settings in the relation, with the same operands pending,
all of them among some, and with the same arguments left over. -/
def FilledAlike (os : List (Operand σ)) (R : σ → σ → Prop)
    (x y : σ × List (Operand σ) × List Plain) : Prop :=
  R x.1 y.1 ∧ x.2 = y.2 ∧ x.2.1 ⊆ os

/-- Two runs of operands end alike. By induction on the pending operands. -/
theorem fill_alike (hE : ∀ u, E (.usage u)) {os : List (Operand σ)}
    (hos : ∀ o ∈ os, o.Respects R) (ps : List Plain) {s t : σ} (h : R s t) :
    Alike E (FilledAlike os R) (fill os ps s) (fill os ps t) := by
  induction os generalizing ps s t with
  | nil => exact .ok ⟨h, rfl, List.Subset.refl _⟩
  | cons o os ih =>
    obtain ⟨ho, hos⟩ := List.forall_mem_cons.mp hos
    have hrest : ∀ (qs : List Plain) {s t : σ}, R s t →
        Alike E (FilledAlike (o :: os) R) (fill os qs s) (fill os qs t) := fun qs s t hst =>
      (ih hos qs hst).mono fun x y hxy => ⟨hxy.1, hxy.2.1, List.subset_cons_of_subset _ hxy.2.2⟩
    have habsent : Alike E (FilledAlike (o :: os) R)
        (if o.required then .ok (s, o :: os, ps) else fill os [] s)
        (if o.required then .ok (t, o :: os, ps) else fill os [] t) := by
      split
      · exact .ok ⟨h, rfl, List.Subset.refl _⟩
      · exact hrest [] h
    rw [fill, fill]
    cases ps.dropWhile Plain.isSeparator with
    | nil => exact habsent
    | cons p qs =>
      cases p with
      | separator => exact habsent
      | operand a =>
        have hgive := Operand.give_alike hE ho
          (if ps.head? = some .separator then some a else keepValue a) h
        dsimp only
        generalize o.give _ s = x at hgive
        generalize o.give _ t = y at hgive
        cases hgive with
        | error he => exact .error he
        | ok hst => exact hrest _ hst

/-! ## Two readings in progress -/

namespace Progress

/-- The reading after the options that one word stands for, and the words that are left: an option
may take the next one as its value. -/
def afterOptions (p : Progress σ) (before : List (Opt σ)) (last : Opt σ)
    (text : Option (List Char)) (ws : List (Word σ)) :
    Except Stop (Progress σ × List (Word σ)) :=
  match last.action, text, ws with
  | .value set, some v, ws =>
    (p.takeAll before).bind fun p => (p.takeValue last set (String.ofList v)).bind fun p =>
      .ok (p, ws)
  | .value set, none, .operand a :: ws =>
    (p.takeAll before).bind fun p => (p.takeValue last set a).bind fun p => .ok (p, ws)
  | .value _, none, _ => .error (.usage (.noValue last.label))
  | _, _, ws => (p.takeAll (before ++ [last])).bind fun p => .ok (p, ws)

/-- Two readings in progress with settings in the relation, with the same operands pending, all of
them among some, and with the same arguments left over. -/
structure Abreast (os : List (Operand σ)) (R : σ → σ → Prop) (p q : Progress σ) : Prop where
  settings : R p.settings q.settings
  pending : p.pending = q.pending
  subset : p.pending ⊆ os
  extras : p.extras = q.extras

variable {os : List (Operand σ)} {p q : Progress σ} {o : Opt σ}

theorem takeAll_cons (p : Progress σ) (o : Opt σ) (os : List (Opt σ)) :
    p.takeAll (o :: os) = (p.take o).bind fun p => p.takeAll os := by
  rw [Progress.takeAll]
  cases p.take o <;> rfl

namespace Abreast

theorem extend (h : p.Abreast os R q) (as : List String) :
    Progress.Abreast os R { p with extras := p.extras ++ as } { q with extras := q.extras ++ as } :=
  ⟨h.settings, h.pending, h.subset, by rw [h.extras]⟩

theorem run (hE : ∀ u, E (.usage u)) (h : p.Abreast os R q) (hos : ∀ o ∈ os, o.Respects R)
    (ps : List Plain) : Alike E (Progress.Abreast os R) (p.run ps) (q.run ps) := by
  have hfill := fill_alike hE (fun o ho => hos o (h.subset ho)) ps h.settings
  unfold Progress.run
  rw [← h.pending, ← h.extras]
  split
  · exact .ok h
  · generalize fill p.pending ps p.settings = x at hfill
    generalize fill p.pending ps q.settings = y at hfill
    cases hfill with
    | error he => exact .error he
    | @ok x y hxy =>
      obtain ⟨s, pending, rest⟩ := x
      obtain ⟨t, _, _⟩ := y
      obtain ⟨hst, hsame, hsubset⟩ := hxy
      cases hsame
      exact .ok ⟨hst, rfl, List.Subset.trans hsubset h.subset, rfl⟩

theorem take (hE : ∀ u, E (.usage u)) (h : p.Abreast os R q) (ho : o.action.Respects E R) :
    Alike E (Progress.Abreast os R) (p.take o) (q.take o) := by
  unfold Progress.take
  cases haction : o.action with
  | help =>
    rw [haction] at ho
    exact .error ho
  | flag set =>
    rw [haction] at ho
    exact .ok ⟨ho _ _ h.settings, h.pending, h.subset, h.extras⟩
  | value set => exact .error (hE _)

theorem takeAll (hE : ∀ u, E (.usage u)) {opts : List (Opt σ)} (h : p.Abreast os R q)
    (hopts : ∀ o ∈ opts, o.action.Respects E R) :
    Alike E (Progress.Abreast os R) (p.takeAll opts) (q.takeAll opts) := by
  induction opts generalizing p q with
  | nil => exact .ok h
  | cons o opts ih =>
    obtain ⟨ho, hopts⟩ := List.forall_mem_cons.mp hopts
    rw [takeAll_cons, takeAll_cons]
    exact (h.take hE ho).bind fun _ _ _ hpq => ih hpq hopts

/-- An option is given two values that it treats alike; the settings need not be in the relation
before. -/
theorem takeValue (hE : ∀ u, E (.usage u)) {Q : σ → σ → Prop} (h : p.Abreast os Q q)
    {set : Option String → σ → Except String σ} {value value' : String}
    (hset : Alike (fun _ => True) R (set (keepValue value) p.settings)
      (set (keepValue value') q.settings)) :
    Alike E (Progress.Abreast os R) (p.takeValue o set value) (q.takeValue o set value') := by
  unfold Progress.takeValue
  generalize set (keepValue value) p.settings = a at hset
  generalize set (keepValue value') q.settings = b at hset
  cases hset with
  | error => exact .error (hE _)
  | ok hst => exact .ok ⟨hst, h.pending, h.subset, h.extras⟩

/-- The options of one word keep two readings alike. -/
theorem afterOptions (hE : ∀ u, E (.usage u)) {before : List (Opt σ)} (h : p.Abreast os R q)
    (hbefore : ∀ o ∈ before, o.action.Respects E R) (ho : o.action.Respects E R)
    (text : Option (List Char)) (ws : List (Word σ)) :
    Alike E (fun x y => x.1.Abreast os R y.1 ∧ x.2 = y.2) (p.afterOptions before o text ws)
      (q.afterOptions before o text ws) := by
  unfold Progress.afterOptions
  split
  · rename_i set v haction
    rw [haction] at ho
    exact (h.takeAll hE hbefore).bind fun _ _ _ hpq =>
      (hpq.takeValue hE (ho _ _ _ hpq.settings)).bind fun _ _ _ hpq => .ok ⟨hpq, rfl⟩
  · rename_i set a ws haction
    rw [haction] at ho
    exact (h.takeAll hE hbefore).bind fun _ _ _ hpq =>
      (hpq.takeValue hE (ho _ _ _ hpq.settings)).bind fun _ _ _ hpq => .ok ⟨hpq, rfl⟩
  · exact .error (hE _)
  · have hall : ∀ o' ∈ before ++ [o], o'.action.Respects E R := by
      intro o' ho'
      rcases List.mem_append.mp ho' with ho' | ho'
      · exact hbefore o' ho'
      · exact List.mem_singleton.mp ho' ▸ ho
    exact (h.takeAll hE hall).bind fun _ _ _ hpq => .ok ⟨hpq, rfl⟩

end Abreast

/-- The words that are left are the last ones. -/
theorem suffix_of_afterOptions {before : List (Opt σ)} {text : Option (List Char)}
    {ws : List (Word σ)} {x : Progress σ × List (Word σ)}
    (h : p.afterOptions before o text ws = .ok x) : x.2 <:+ ws := by
  unfold afterOptions at h
  split at h
  · obtain ⟨_, -, h⟩ := exists_of_bind_eq_ok h
    obtain ⟨_, -, h⟩ := exists_of_bind_eq_ok h
    cases h
    exact List.suffix_rfl
  · -- The operand that was taken as the value is gone.
    obtain ⟨_, -, h⟩ := exists_of_bind_eq_ok h
    obtain ⟨_, -, h⟩ := exists_of_bind_eq_ok h
    cases h
    exact List.suffix_cons _ _
  · cases h
  · obtain ⟨_, -, h⟩ := exists_of_bind_eq_ok h
    cases h
    exact List.suffix_rfl

end Progress

namespace Grammar

variable {g : Grammar σ}

/-! ## The options that words stand for -/

/-- The options that the words may stand for: those they name, and, if one has a short name, others
behind the same dash. -/
def Involves (g : Grammar σ) (ws : List (Word σ)) (o : Opt σ) : Prop :=
  ∃ named name attached, .option named name attached ∈ ws ∧
    (o = named ∨ name.take 2 ≠ ['-', '-'] ∧ ∃ c, g.find? ['-', c] = some o)

/-- The options that words stand for are options of the program. -/
theorem mem_options_of_involves {argv : List String} {ws : List (Word σ)} {o : Opt σ}
    (hws : g.words argv = .ok ws) (h : g.Involves ws o) : o ∈ g.options := by
  obtain ⟨named, name, attached, hw, rfl | ⟨-, c, hc⟩⟩ := h
  · exact mem_options_of_mem_names (mem_names_of_mem_words hws hw)
  · exact mem_options_of_mem_names (mem_names_of_find? hc)

theorem cluster_eq_ok {o : Opt σ} {cs : List Char} {r : List (Opt σ) × Opt σ × Option (List Char)}
    (h : g.cluster o cs = .ok r) :
    ∀ o' ∈ r.2.1 :: r.1, o' = o ∨ ∃ c, g.find? ['-', c] = some o' := by
  induction cs generalizing o r with
  | nil =>
    cases h
    exact fun o' ho' => .inl (List.mem_singleton.mp ho')
  | cons c cs ih =>
    rw [cluster] at h
    split at h
    · cases h
      exact fun o' ho' => .inl (List.mem_singleton.mp ho')
    · split at h
      · cases h
      · rename_i next hnext
        cases hrest : g.cluster next cs with
        | error e =>
          rw [hrest] at h
          cases h
        | ok u =>
          rw [hrest] at h
          cases h
          intro o' ho'
          -- The first option of the cluster stands before those of the rest.
          have hcases : o' = o ∨ o' ∈ u.2.1 :: u.1 := by
            rcases List.mem_cons.mp ho' with rfl | ho'
            · exact .inr List.mem_cons_self
            · exact (List.mem_cons.mp ho').imp_right (List.mem_cons_of_mem _)
          rcases hcases with rfl | ho'
          · exact .inl rfl
          · rcases ih hrest o' ho' with rfl | hshort
            · exact .inr ⟨c, hnext⟩
            · exact .inr hshort

/-- A word stands for the option it names, or for short ones. -/
theorem involves_of_expand {o : Opt σ} {name : List Char} {attached : Option (List Char)}
    {ws : List (Word σ)} (hw : .option o name attached ∈ ws)
    {r : List (Opt σ) × Opt σ × Option (List Char)} (h : g.expand o name attached = .ok r) :
    ∀ o' ∈ r.2.1 :: r.1, g.Involves ws o' := by
  have hnamed : g.Involves ws o := ⟨o, name, attached, hw, .inl rfl⟩
  unfold expand at h
  split at h
  · cases h
    exact fun o' ho' => List.mem_singleton.mp ho' ▸ hnamed
  · cases h
    exact fun o' ho' => List.mem_singleton.mp ho' ▸ hnamed
  · split at h
    · rename_i hshort
      intro o' ho'
      rcases cluster_eq_ok h o' ho' with rfl | hfound
      · exact hnamed
      · exact ⟨o, name, _, hw, .inr ⟨hshort.2, hfound⟩⟩
    · cases h

theorem exists_usage_of_cluster_eq_error {o : Opt σ} {cs : List Char} {e : Stop}
    (h : g.cluster o cs = .error e) : ∃ u, e = .usage u := by
  induction cs generalizing o with
  | nil => cases h
  | cons c cs ih =>
    rw [cluster] at h
    split at h
    · cases h
    · split at h
      · cases h
        exact ⟨_, rfl⟩
      · rename_i next _
        cases hrest : g.cluster next cs with
        | error f =>
          rw [hrest] at h
          cases h
          exact ih hrest
        | ok r =>
          rw [hrest] at h
          cases h

/-- A word that stands for no options is a usage error. -/
theorem exists_usage_of_expand_eq_error {o : Opt σ} {name : List Char}
    {attached : Option (List Char)} {e : Stop} (h : g.expand o name attached = .error e) :
    ∃ u, e = .usage u := by
  unfold expand at h
  split at h
  · cases h
  · cases h
  · split at h
    · exact exists_usage_of_cluster_eq_error h
    · cases h
      exact ⟨_, rfl⟩

/-! ## Both readings -/

/-- A word that names an option, as one step: the operands before it, then what it stands for. -/
theorem scan_option (ps : List Plain) (p : Progress σ) (o : Opt σ) (name : List Char)
    (attached : Option (List Char)) (ws : List (Word σ)) :
    g.scan ps p (.option o name attached :: ws) =
      (p.run ps).bind fun p => (g.expand o name attached).bind fun r =>
        (p.afterOptions r.1 r.2.1 r.2.2 ws).bind fun x => g.scan [] x.1 x.2 := by
  rw [scan]
  cases p.run ps with
  | error e => rfl
  | ok p =>
    cases g.expand o name attached with
    | error e => rfl
    | ok r =>
      obtain ⟨before, last, text⟩ := r
      obtain ⟨names, action⟩ := last
      simp only [Except.bind, Progress.afterOptions]
      cases action with
      | help => cases p.takeAll (before ++ [⟨names, .help⟩]) <;> rfl
      | flag set => cases p.takeAll (before ++ [⟨names, .flag set⟩]) <;> rfl
      | value set =>
        cases text with
        | some v =>
          cases p.takeAll before with
          | error e => rfl
          | ok p =>
            dsimp only
            cases p.takeValue ⟨names, .value set⟩ set (String.ofList v) <;> rfl
        | none =>
          cases ws with
          | nil => rfl
          | cons w ws =>
            -- Only an operand is taken as the value.
            cases w with
            | operand a =>
              cases p.takeAll before with
              | error e => rfl
              | ok p =>
                dsimp only
                cases p.takeValue ⟨names, .value set⟩ set a <;> rfl
            | option => rfl
            | unknown => rfl
            | separator => rfl

/-- An option with its value attached sets this, and the words behind are read. -/
theorem scan_value {o : Opt σ} {name value : List Char}
    {set : Option String → σ → Except String σ} (ho : o.action = .value set) (p : Progress σ)
    (ws : List (Word σ)) :
    g.scan [] p (.option o name (some value) :: ws) =
      (p.takeValue o set (String.ofList value)).bind fun p => g.scan [] p ws := by
  obtain ⟨names, action⟩ := o
  obtain rfl : action = .value set := ho
  rw [scan_option]
  show ((Except.bind (p.takeValue _ set (String.ofList value)) fun p => .ok (p, ws)).bind _) = _
  cases p.takeValue ⟨names, .value set⟩ set (String.ofList value) <;> rfl

theorem scan_unknown (ps : List Plain) (p : Progress σ) (a : String) (ws : List (Word σ)) :
    g.scan ps p (.unknown a :: ws) =
      (p.run ps).bind fun p => g.scan [] { p with extras := p.extras ++ [a] } ws := by
  rw [scan]
  cases p.run ps <;> rfl

theorem Involves.of_subset {ws us : List (Word σ)} {o : Opt σ} (h : g.Involves us o)
    (hus : us ⊆ ws) : g.Involves ws o := by
  obtain ⟨named, name, attached, hw, ho⟩ := h
  exact ⟨named, name, attached, hus hw, ho⟩

/-- Every word keeps two readings alike. By recursion on the words, of which an option may take two
at once. -/
theorem scan_alike (hE : ∀ u, E (.usage u)) (ws : List (Word σ)) (ps : List Plain)
    {os : List (Operand σ)} {p q : Progress σ} (h : p.Abreast os R q)
    (hos : ∀ o ∈ os, o.Respects R) (hws : ∀ o, g.Involves ws o → o.action.Respects E R) :
    Alike E (Progress.Abreast os R) (g.scan ps p ws) (g.scan ps q ws) := by
  match ws with
  | [] => exact h.run hE hos ps
  | .operand a :: ws =>
    exact scan_alike hE ws _ h hos fun o ho => hws o (ho.of_subset (List.subset_cons_self _ _))
  | .separator :: ws =>
    exact scan_alike hE ws _ h hos fun o ho => hws o (ho.of_subset (List.subset_cons_self _ _))
  | .unknown a :: ws =>
    rw [scan_unknown, scan_unknown]
    refine (h.run hE hos ps).bind fun p q _ hpq => ?_
    exact scan_alike hE ws _ (hpq.extend [a]) hos fun o ho =>
      hws o (ho.of_subset (List.subset_cons_self _ _))
  | .option o name attached :: ws =>
    rw [scan_option, scan_option]
    refine (h.run hE hos ps).bind fun p q _ hpq => ?_
    -- The grammar alone says what the word stands for, so that it is the same in both readings.
    cases hexpand : g.expand o name attached with
    | error e =>
      obtain ⟨u, rfl⟩ := exists_usage_of_expand_eq_error hexpand
      exact .error (hE u)
    | ok r =>
      have hinvolved : ∀ o' ∈ r.2.1 :: r.1, o'.action.Respects E R := fun o' ho' =>
        hws o' (involves_of_expand List.mem_cons_self hexpand o' ho')
      obtain ⟨hlast, hbefore⟩ := List.forall_mem_cons.mp hinvolved
      refine (hpq.afterOptions hE hbefore hlast r.2.2 ws).bind fun x y hx hxy => ?_
      have hsuffix := Progress.suffix_of_afterOptions hx
      have hlength : x.2.length ≤ ws.length := hsuffix.length_le
      rw [← hxy.2]
      exact scan_alike hE x.2 _ hxy.1 hos fun o ho =>
        hws o (ho.of_subset (List.subset_cons_of_subset _ hsuffix.subset))
  termination_by ws.length
  decreasing_by all_goals simp only [List.length_cons]; omega

/-- Two readings end alike after the last word. -/
theorem finish_alike (hE : ∀ u, E (.usage u)) {os : List (Operand σ)} {p q : Progress σ}
    (h : p.Abreast os R q) : Alike E R (finish p) (finish q) := by
  unfold finish
  rw [← h.pending, ← h.extras]
  dsimp only
  split
  · exact .error (hE _)
  · split
    · exact .error (hE _)
    · exact .ok h.settings

theorem parse_eq_bind (s : σ) (argv : List String) :
    g.parse s argv = ((g.words argv).mapError .usage).bind fun ws =>
      (g.scan [] ⟨s, g.operands, []⟩ ws).bind finish := by
  rw [parse]
  cases g.words argv with
  | error e => rfl
  | ok ws =>
    dsimp only [Except.mapError, Except.bind]
    cases g.scan [] ⟨s, g.operands, []⟩ ws <;> rfl

variable {s t : σ}

/-- **Both readings end alike**, with the same error or with settings in the relation, if every
operand and every option that the arguments use respects it. -/
theorem parse_alike (hE : ∀ u, E (.usage u)) (hoperands : ∀ o ∈ g.operands, o.Respects R)
    (h : R s t) {argv : List String}
    (hwords : ∀ ws, g.words argv = .ok ws → ∀ o, g.Involves ws o → o.action.Respects E R) :
    Alike E R (g.parse s argv) (g.parse t argv) := by
  rw [parse_eq_bind, parse_eq_bind]
  cases hws : g.words argv with
  | error e => exact .error (hE e)
  | ok ws =>
    have hstart : Progress.Abreast g.operands R ⟨s, g.operands, []⟩ ⟨t, g.operands, []⟩ :=
      ⟨h, rfl, List.Subset.refl _, rfl⟩
    exact (scan_alike hE ws [] hstart hoperands (hwords ws hws)).bind fun p q _ hpq =>
      finish_alike hE hpq

/-- What is true of the settings at the start is so at the end, if every operand and every option
that the arguments use keeps it. -/
theorem of_parse {P : σ → Prop} (hoperands : ∀ o ∈ g.operands, o.Respects (Unchanged P))
    (hs : P s) {argv : List String}
    (hwords : ∀ ws, g.words argv = .ok ws → ∀ o, g.Involves ws o →
      o.action.Respects (fun _ => True) (Unchanged P))
    (h : g.parse s argv = .ok t) : P t := by
  have halike := parse_alike (R := Unchanged P) (fun _ => trivial) hoperands ⟨hs, rfl⟩ hwords
  rw [h] at halike
  obtain ⟨_, -, hP, -⟩ := halike.exists_ok
  exact hP

/-! ## One option more -/

/-- Arguments after some others are read from what these make of the settings, if they can be read
without them. -/
theorem parse_append {as : List String} {us : List (Word σ)}
    (hwords : ∀ argv, g.words (as ++ argv) = (g.words argv).map (us ++ ·))
    (hscan : ∀ ws, g.scan [] ⟨s, g.operands, []⟩ (us ++ ws) = g.scan [] ⟨t, g.operands, []⟩ ws)
    (argv : List String) : g.parse s (as ++ argv) = g.parse t argv := by
  rw [parse_eq_bind, parse_eq_bind, hwords]
  cases g.words argv with
  | error e => rfl
  | ok ws =>
    show Except.bind (g.scan [] _ _) finish = Except.bind (g.scan [] _ _) finish
    rw [hscan]

theorem words_cons {a : String} {w : Word σ} (hseparator : a ≠ "--") (hword : g.word a = .ok w)
    (argv : List String) : g.words (a :: argv) = (g.words argv).map (w :: ·) := by
  rw [words, if_neg hseparator, hword]

/-- Arguments after an option are read from what it makes of the settings, if it can be read without
them. -/
theorem parse_cons_option {a : String} {o : Opt σ} {name : List Char}
    {attached : Option (List Char)} (hseparator : a ≠ "--")
    (hword : g.word a = .ok (.option o name attached))
    (hscan : ∀ ws, g.scan [] ⟨s, g.operands, []⟩ (.option o name attached :: ws) =
      g.scan [] ⟨t, g.operands, []⟩ ws) (argv : List String) :
    g.parse s (a :: argv) = g.parse t argv := by
  have hwords : ∀ argv, g.words ([a] ++ argv) =
      (g.words argv).map ([.option o name attached] ++ ·) := words_cons hseparator hword
  exact parse_append hwords hscan argv

/-- An option that takes no value. -/
theorem parse_cons_flag {a : String} {o : Opt σ} {name : List Char} {set : σ → σ}
    (hseparator : a ≠ "--") (hword : g.word a = .ok (.option o name none))
    (ho : o.action = .flag set) (s : σ) (argv : List String) :
    g.parse s (a :: argv) = g.parse (set s) argv := by
  refine parse_cons_option hseparator hword (fun ws => ?_) argv
  obtain ⟨names, action⟩ := o
  obtain rfl : action = .flag set := ho
  rw [scan_option]
  rfl

theorem takeValue_eq_ok {o : Opt σ} {set : Option String → σ → Except String σ} {value : String}
    (hset : set (keepValue value) s = .ok t) (os : List (Operand σ)) (es : List String) :
    Progress.takeValue ⟨s, os, es⟩ o set value = .ok ⟨t, os, es⟩ := by
  rw [Progress.takeValue, hset]

/-- An option with its value attached. -/
theorem parse_cons_value {a : String} {o : Opt σ} {name value : List Char}
    {set : Option String → σ → Except String σ} (hseparator : a ≠ "--")
    (hword : g.word a = .ok (.option o name (some value))) (ho : o.action = .value set)
    (hset : set (keepValue (String.ofList value)) s = .ok t) (argv : List String) :
    g.parse s (a :: argv) = g.parse t argv := by
  refine parse_cons_option hseparator hword (fun ws => ?_) argv
  rw [scan_value ho, takeValue_eq_ok hset]
  rfl

/-- An option that takes the next argument as its value. -/
theorem parse_cons_next {a b : String} {o : Opt σ} {name : List Char}
    {set : Option String → σ → Except String σ} (ha : a ≠ "--") (hb : b ≠ "--")
    (hword : g.word a = .ok (.option o name none)) (hnext : g.word b = .ok (.operand b))
    (ho : o.action = .value set) (hset : set (keepValue b) s = .ok t) (argv : List String) :
    g.parse s (a :: b :: argv) = g.parse t argv := by
  have hwords : ∀ argv, g.words ([a, b] ++ argv) =
      (g.words argv).map ([.option o name none, .operand b] ++ ·) := by
    intro argv
    show g.words (a :: b :: argv) = _
    rw [words_cons ha hword, words_cons hb hnext]
    cases g.words argv <;> rfl
  refine parse_append hwords (fun ws => ?_) argv
  obtain ⟨names, action⟩ := o
  obtain rfl : action = .value set := ho
  have hafter : Progress.afterOptions ⟨s, g.operands, []⟩ [] ⟨names, .value set⟩ none
      (.operand b :: ws) = .ok (⟨t, g.operands, []⟩, ws) := by
    simp only [Progress.afterOptions, Progress.takeAll, Except.bind, takeValue_eq_ok hset]
  show g.scan [] _ (.option ⟨names, .value set⟩ name none :: .operand b :: ws) = _
  rw [scan_option]
  show Except.bind (Progress.afterOptions _ [] _ none (.operand b :: ws)) _ = _
  rw [hafter]
  rfl

end Grammar

end BitReaders
