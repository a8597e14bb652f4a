import BitReaders.Proofs.Overrides

/-!
# Entries of an override document

A document is refused for the reason for which its first bad entry would be refused alone. What
the entries before it have changed is in the catalogue by then, but no check reads it: the changes
of a family are made after all of its members are checked, and no later object is for that family.

- `Override.Entry`: an axis of a family, or the whole member of a family where the catalogue has no
  such family or the member is no object. `Entry.document`: the document with this entry only.
- `Override.entries`: the entries of a document, in document order.
- `failure?_family`: the members of a family's object fail one by one; `failure?_member`: so do the
  entries of a family; `failure?_override`: all entries of a document.
- `Catalogue.override_eq_error_iff_entry`: **the first entry that fails alone** decides.
-/

namespace BitReaders

open Json (Value Members)

namespace Override

/-! ## Entries -/

/-- A part of a document that is checked by itself. -/
inductive Entry where
  /-- The member of a family that is unknown, or whose value is no object. -/
  | family (name : Text) (value : Value)
  /-- An axis of a family. -/
  | axis (name axis : Text) (value : Value)

/-- A document with some members for families. -/
def familiesDocument (fs : Members) : Value :=
  .object [(Text.ofString "families", .object fs)]

/-- The member for families that an entry makes alone. -/
def Entry.member : Entry → Text × Value
  | .family name v => (name, v)
  | .axis name key v => (name, .object [(key, v)])

/-- The document with one entry only. -/
def Entry.document (entry : Entry) : Value :=
  familiesDocument [entry.member]

/-- The entries of a family's member. -/
def entriesOf (c : Catalogue) (m : Text × Value) : List Entry :=
  match c.find? m.1, m.2 with
  | some _, .object axes => axes.map fun a => .axis m.1 a.1 a.2
  | _, v => [.family m.1 v]

/-- The entries of a document with the members `fs` for families, in document order. -/
def entries (c : Catalogue) (fs : Members) : List Entry :=
  fs.flatMap (entriesOf c)

/-! ## The members of a family -/

theorem failure?_changes (f : Family) (name : Text) (axes : Members) :
    failure? (changes f name axes) =
      axes.findSome? fun a => failure? (Change.read f name a.1 a.2) := by
  induction axes with
  | nil => rfl
  | cons a axes ih =>
    obtain ⟨axis, v⟩ := a
    rw [changes, List.findSome?_cons, ← ih]
    cases Change.read f name axis v with
    | error e => rfl
    | ok change => exact failure?_map _

/-- The members of a family's object are checked against the family as it was, each by itself. -/
theorem failure?_family (f : Family) (name : Text) (axes : Members) :
    failure? (family f name (.object axes)) =
      axes.findSome? fun a => failure? (Change.read f name a.1 a.2) := by
  rw [← failure?_changes]
  exact failure?_map _

/-! ## The entries of a document -/

theorem listsFamilies_familiesDocument (fs : Members) : ListsFamilies (familiesDocument fs) fs :=
  ⟨_, rfl, by rw [Members.find?_cons, if_pos rfl]⟩

/-- An entry alone is checked as the only member of a document. -/
theorem override_document (c : Catalogue) (entry : Entry) :
    c.override entry.document = families c [entry.member] :=
  Catalogue.override_eq_families (listsFamilies_familiesDocument _) c

/-- An axis alone is checked against the family as it is in the catalogue. -/
theorem failure?_axis {c : Catalogue} {name : Text} {f : Family} (hf : c.find? name = some f)
    (key : Text) (v : Value) :
    failure? (c.override (Entry.axis name key v).document) =
      failure? (Change.read f name key v) := by
  rw [override_document]
  show failure? (families c [(name, .object [(key, v)])]) = _
  rw [failure?_families_singleton, hf]
  show failure? (family f name (.object [(key, v)])) = _
  rw [failure?_family, List.findSome?_singleton]

/-- A family's member fails as its first entry that fails alone. -/
theorem failure?_member (c : Catalogue) (m : Text × Value) :
    failure? (families c [m]) =
      (entriesOf c m).findSome? fun entry => failure? (c.override entry.document) := by
  obtain ⟨name, v⟩ := m
  rw [entriesOf]
  split
  · rename_i f axes hf hv
    obtain rfl : v = .object axes := hv
    rw [List.findSome?_map, failure?_families_singleton, show c.find? name = some f from hf]
    show failure? (family f name (.object axes)) = _
    rw [failure?_family]
    exact findSome?_congr fun a _ => (failure?_axis hf a.1 a.2).symm
  · rw [List.findSome?_singleton, override_document]
    rfl

theorem findSome?_flatMap {α β γ : Type} (f : β → Option γ) (g : α → List β) (l : List α) :
    (l.flatMap g).findSome? f = l.findSome? fun a => (g a).findSome? f := by
  induction l with
  | nil => rfl
  | cons a l ih =>
    rw [List.flatMap_cons, List.findSome?_append, ih, List.findSome?_cons]
    cases (g a).findSome? f <;> rfl

/-- A document fails as its first entry that fails alone. -/
theorem failure?_override {document : Value} {fs : Members} (hfs : ListsFamilies document fs)
    (hnames : document.DistinctNames) (c : Catalogue) :
    failure? (c.override document) =
      (entries c fs).findSome? fun entry => failure? (c.override entry.document) := by
  rw [Catalogue.override_eq_families hfs, failure?_families (hfs.nodup hnames).1, entries,
    findSome?_flatMap]
  exact findSome?_congr fun m _ => failure?_member c m

end Override

namespace Catalogue

/-- **The first entry that fails alone decides.** A document that lists families is refused iff one
of its entries would be refused as the only one, and then with the error of the first such entry,
and so with the same wording, whatever the source is called. Neither the entries before it, which
are all taken alone, nor those after it change what is said. -/
theorem override_eq_error_iff_entry (c : Catalogue) {document : Value}
    (hnames : document.DistinctNames) {fs : Members}
    (hfs : Override.ListsFamilies document fs) :
    ((∃ e, c.override document = .error e) ↔
      ∃ entry ∈ Override.entries c fs, ∃ e, c.override entry.document = .error e) ∧
    ∀ e, c.override document = .error e ↔
      ∃ before entry after, Override.entries c fs = before ++ entry :: after ∧
        c.override entry.document = .error e ∧
        ∀ b ∈ before, ∃ c', c.override b.document = .ok c' := by
  have hfirst := Override.failure?_override hfs hnames c
  constructor
  · rw [← Override.isSome_failure?_iff, hfirst, List.findSome?_isSome_iff]
    simp only [Override.isSome_failure?_iff]
  · intro e
    rw [← Override.failure?_eq_some_iff, hfirst, List.findSome?_eq_some_iff]
    simp only [Override.failure?_eq_some_iff, Override.failure?_eq_none_iff]

/-- Members with a good entry and two bad ones: an empty list, and a family that is unknown. -/
def faultyMembers : Members :=
  [(Text.ofString "standard", .object
    [(Text.ofString "skips", .array [.bool false]), (Text.ofString "counts", .array [])]),
    (Text.ofString "nobody", .null)]

/-- The empty list is what is refused. -/
theorem override_eq_error_iff_entry_faultyMembers :
    ∃ before entry after,
      Override.entries .default faultyMembers = before ++ entry :: after ∧
        Catalogue.default.override entry.document = .error
          (.at (.axis (Text.ofString "standard") (Text.ofString "counts")) .empty) ∧
        ∀ b ∈ before, ∃ c', Catalogue.default.override b.document = .ok c' := by
  have hnames : (Override.familiesDocument faultyMembers).DistinctNames := by
    refine .object (by decide) (List.forall_mem_singleton.mpr (.object (by decide) ?_))
    refine List.forall_mem_cons.mpr ⟨.object (by decide) (List.forall_mem_cons.mpr ⟨?_, ?_⟩),
      List.forall_mem_singleton.mpr .null⟩
    · exact .array (List.forall_mem_singleton.mpr (.bool false))
    · exact List.forall_mem_singleton.mpr (.array nofun)
  exact ((override_eq_error_iff_entry .default hnames
    (Override.listsFamilies_familiesDocument faultyMembers)).2 _).mp rfl

end Catalogue

end BitReaders
