import BitReaders.Json.Reader
import Mathlib.Data.List.Nodup

/-!
# Objects with distinct names

A document may write a name twice; the reader then keeps one member. The objects of a value that
was read have members of distinct names, in every depth.

- `Value.DistinctNames`: the members of every object in the value have distinct names.
- `Members.nodup_insert`: setting a member keeps the names distinct.
- `State.Distinct`: the invariant of the reader, over its stack; `step_distinct`: every step keeps
  it.
- `read_distinctNames`: **every value that is read** has distinct names.
-/

namespace BitReaders.Json

/-- The members of every object in the value have distinct names. -/
inductive Value.DistinctNames : Value → Prop where
  | null : DistinctNames .null
  | bool (b : Bool) : DistinctNames (.bool b)
  | integer (n : Int) : DistinctNames (.integer n)
  | real (x : Binary64) : DistinctNames (.real x)
  | string (t : Text) : DistinctNames (.string t)
  | array {vs : List Value} (items : ∀ v ∈ vs, DistinctNames v) : DistinctNames (.array vs)
  | object {ms : Members} (names : (ms.map (·.1)).Nodup) (values : ∀ m ∈ ms, DistinctNames m.2) :
    DistinctNames (.object ms)

namespace Members

/-! ## Members by name -/

theorem find?_cons (name k : Text) (v : Value) (ms : Members) :
    find? name ((k, v) :: ms) = if k = name then some v else find? name ms := by
  by_cases h : k = name <;> simp [find?, h]

/-- A member that is found is there. -/
theorem mem_of_find?_eq_some {name : Text} {v : Value} {ms : Members}
    (h : find? name ms = some v) : (name, v) ∈ ms := by
  obtain ⟨⟨k, w⟩, hfind, rfl⟩ := Option.map_eq_some_iff.mp h
  have hname : k = name := by simpa using List.find?_some hfind
  subst hname
  exact List.mem_of_find?_eq_some hfind

theorem find?_eq_none_iff {name : Text} {ms : Members} :
    find? name ms = none ↔ name ∉ ms.map (·.1) := by
  induction ms with
  | nil => simp [find?]
  | cons m ms ih =>
    obtain ⟨k, w⟩ := m
    rw [find?_cons, List.map_cons, List.mem_cons, not_or, ← ih]
    by_cases h : k = name
    · simp [h]
    · simp [h, Ne.symm h]

/-- If no name is there twice, what is there is found. -/
theorem find?_eq_some_of_mem {ms : Members} (hnames : (ms.map (·.1)).Nodup) {name : Text}
    {v : Value} (h : (name, v) ∈ ms) : find? name ms = some v := by
  induction ms with
  | nil => cases h
  | cons m ms ih =>
    obtain ⟨k, w⟩ := m
    rw [List.map_cons, List.nodup_cons] at hnames
    rw [find?_cons]
    rcases List.mem_cons.mp h with heq | h
    · cases heq
      rw [if_pos rfl]
    · have hne : k ≠ name := by
        rintro rfl
        exact hnames.1 (List.mem_map.mpr ⟨(k, v), h, rfl⟩)
      rw [if_neg hne, ih hnames.2 h]

/-! ## Setting a member -/

theorem mem_insert {name : Text} {v : Value} {ms : Members} {m : Text × Value}
    (h : m ∈ insert name v ms) : m = (name, v) ∨ m ∈ ms := by
  induction ms with
  | nil => exact .inl (List.mem_singleton.mp h)
  | cons e ms ih =>
    obtain ⟨k, w⟩ := e
    rw [insert] at h
    split at h
    · rename_i hk
      rcases List.mem_cons.mp h with rfl | h
      · exact .inl (by rw [hk])
      · exact .inr (List.mem_cons_of_mem _ h)
    · rcases List.mem_cons.mp h with rfl | h
      · exact .inr List.mem_cons_self
      · exact (ih h).imp_right (List.mem_cons_of_mem _)

/-- Setting a member keeps the names distinct. -/
theorem nodup_insert {name : Text} {v : Value} {ms : Members} (h : (ms.map (·.1)).Nodup) :
    ((insert name v ms).map (·.1)).Nodup := by
  induction ms with
  | nil => exact List.nodup_singleton name
  | cons e ms ih =>
    obtain ⟨k, w⟩ := e
    rw [insert]
    split
    · exact h
    · rename_i hk
      rw [List.map_cons, List.nodup_cons] at h ⊢
      refine ⟨fun hmem => ?_, ih h.2⟩
      obtain ⟨m, hm, hname⟩ := List.mem_map.mp hmem
      rcases mem_insert hm with rfl | hm
      · exact hk hname.symm
      · exact h.1 (List.mem_map.mpr ⟨m, hm, hname⟩)

/-- Members that all are as they should be. -/
structure Distinct (ms : Members) : Prop where
  names : (ms.map (·.1)).Nodup
  values : ∀ m ∈ ms, m.2.DistinctNames

theorem Distinct.insert {ms : Members} (h : Distinct ms) {v : Value} (hv : v.DistinctNames)
    (name : Text) : Distinct (ms.insert name v) := by
  refine ⟨nodup_insert h.names, fun m hm => ?_⟩
  rcases mem_insert hm with rfl | hm
  · exact hv
  · exact h.values m hm

end Members

/-! ## The reader -/

/-- What a frame has collected has distinct names. -/
def Frame.Distinct : Frame → Prop
  | .items before => ∀ v ∈ before, v.DistinctNames
  | .member before _ => Members.Distinct before

namespace State

/-- What the reader has collected has distinct names. -/
def Distinct : State → Prop
  | .beforeValue stack => ∀ f ∈ stack, f.Distinct
  | .beforeName before stack => Members.Distinct before ∧ ∀ f ∈ stack, f.Distinct
  | .afterValue v stack => v.DistinctNames ∧ ∀ f ∈ stack, f.Distinct

theorem scanLiteral_distinctNames {cs r : List Char} {v : Value}
    (h : scanLiteral cs = some (v, r)) : v.DistinctNames := by
  have hall : ∀ l ∈ literals, l.2.DistinctNames := by
    intro l hl
    simp only [literals, List.mem_cons, List.not_mem_nil, or_false] at hl
    rcases hl with rfl | rfl | rfl | rfl | rfl | rfl <;> constructor
  obtain ⟨l, hl, hp⟩ := List.exists_of_findSome?_eq_some h
  obtain ⟨s, -, he⟩ := Option.map_eq_some_iff.mp hp
  cases he
  exact hall l hl

theorem scanUnsigned_distinctNames {negative : Bool} {cs r : List Char} {v : Value}
    (h : scanUnsigned negative cs = some (.ok (v, r))) : v.DistinctNames := by
  obtain ⟨⟨whole, s⟩, -, h⟩ := Option.map_eq_some_iff.mp h
  simp only at h
  split at h
  · split at h
    · cases h
    · cases h
      exact .integer _
  · cases h
    exact .real _

/-- Literals and numbers hold no objects. -/
theorem scanScalar_distinctNames {cs r : List Char} {v : Value} (h : scanScalar cs = .ok (v, r)) :
    v.DistinctNames := by
  unfold scanScalar at h
  split at h
  · rename_i p hp
    cases h
    exact scanLiteral_distinctNames hp
  · cases hn : scanNumber cs with
    | none =>
      rw [hn] at h
      cases h
    | some e =>
      rw [hn, Option.getD_some] at h
      subst h
      unfold scanNumber at hn
      split at hn
      · exact scanUnsigned_distinctNames hn
      · exact scanUnsigned_distinctNames hn

theorem stepValue_distinct {stack : List Frame} {cs r : List Char} {s : State}
    (hstack : ∀ f ∈ stack, f.Distinct) (h : stepValue stack cs = .ok (s, r)) : s.Distinct := by
  unfold stepValue at h
  split at h
  · split at h
    · cases h
      exact ⟨.array nofun, hstack⟩
    · cases h
      exact List.forall_mem_cons.mpr ⟨nofun, hstack⟩
  · split at h
    · cases h
      exact ⟨.object List.nodup_nil nofun, hstack⟩
    · cases h
      exact ⟨⟨List.nodup_nil, nofun⟩, hstack⟩
  · rename_i cs
    cases hs : scanString ('"' :: cs) cs with
    | error f =>
      rw [hs] at h
      cases h
    | ok p =>
      rw [hs] at h
      cases h
      exact ⟨.string _, hstack⟩
  · cases hs : scanScalar cs with
    | error f =>
      rw [hs] at h
      cases h
    | ok p =>
      rw [hs] at h
      cases h
      exact ⟨scanScalar_distinctNames hs, hstack⟩

theorem stepName_distinct {before : Members} {stack : List Frame} {cs r : List Char} {s : State}
    (hbefore : before.Distinct) (hstack : ∀ f ∈ stack, f.Distinct)
    (h : stepName before stack cs = .ok (s, r)) : s.Distinct := by
  unfold stepName at h
  split at h
  · cases h
  · split at h
    · cases h
      exact List.forall_mem_cons.mpr ⟨hbefore, hstack⟩
    · cases h

theorem stepAfter_distinct {v : Value} {frame : Frame} {stack : List Frame} {cs r : List Char}
    {s : State} (hv : v.DistinctNames) (hframe : frame.Distinct) (hstack : ∀ f ∈ stack, f.Distinct)
    (h : stepAfter v frame stack cs = .ok (s, r)) : s.Distinct := by
  unfold stepAfter at h
  split at h
  · rename_i before _ _
    cases h
    refine ⟨.array fun w hw => ?_, hstack⟩
    rcases List.mem_cons.mp (List.mem_reverse.mp hw) with rfl | hw
    · exact hv
    · exact hframe w hw
  · cases h
    refine List.forall_mem_cons.mpr ⟨fun w hw => ?_, hstack⟩
    rcases List.mem_cons.mp hw with rfl | hw
    · exact hv
    · exact hframe w hw
  · rename_i before name _ _
    cases h
    have hms := Members.Distinct.insert hframe hv name
    exact ⟨.object hms.names hms.values, hstack⟩
  · rename_i before name _ _
    cases h
    exact ⟨Members.Distinct.insert hframe hv name, hstack⟩
  · cases h

/-- Every step keeps the names distinct. -/
theorem step_distinct {s s' : State} {cs r : List Char} (hs : s.Distinct)
    (h : step s cs = some (.ok (s', r))) : s'.Distinct := by
  cases s with
  | beforeValue stack => exact stepValue_distinct hs (Option.some.inj h)
  | beforeName before stack => exact stepName_distinct hs.1 hs.2 (Option.some.inj h)
  | afterValue v stack =>
    cases stack with
    | nil => cases h
    | cons frame stack =>
      obtain ⟨hframe, hstack⟩ := List.forall_mem_cons.mp hs.2
      exact stepAfter_distinct hs.1 hframe hstack (Option.some.inj h)

/-- A run that ends has read its value, or goes on after one step. -/
theorem run_eq_ok {s : State} {cs r : List Char} {v : Value} (h : run s cs = .ok (v, r)) :
    s = .afterValue v [] ∨
      ∃ s' cs', step s cs = some (.ok (s', cs')) ∧ run s' cs' = .ok (v, r) := by
  rw [run.eq_def] at h
  split at h
  · cases h
    exact .inl rfl
  · rename_i s' cs' _ hstep
    exact .inr ⟨s', cs', hstep, h⟩
  · cases h
  · cases h

/-- A whole run keeps the names distinct. By recursion on the text that is left, which every step
shortens. -/
theorem run_distinctNames {s : State} {cs r : List Char} {v : Value} (hs : s.Distinct)
    (h : run s cs = .ok (v, r)) : v.DistinctNames := by
  rcases run_eq_ok h with rfl | ⟨s', cs', hstep, hrun⟩
  · exact hs.1
  · have hlt : cs'.length < cs.length := step_lt hstep
    exact run_distinctNames (step_distinct hs hstep) hrun
  termination_by cs.length

end State

/-- **Every value that is read** has distinct names. -/
theorem read_distinctNames {document : List Char} {v : Value} (h : read document = .ok v) :
    v.DistinctNames := by
  have hscan : scanDocument document = .ok v := by
    unfold read at h
    cases hs : scanDocument document with
    | error f =>
      rw [hs] at h
      cases h
    | ok w =>
      rw [hs] at h
      cases h
      rfl
  unfold scanDocument at hscan
  split at hscan
  · cases hscan
  · split at hscan
    · cases hscan
    · rename_i w r hrun
      split at hscan
      · cases hscan
        exact State.run_distinctNames (s := .beforeValue []) nofun hrun
      · cases hscan

end BitReaders.Json
