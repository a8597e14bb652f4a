import BitReaders.Proofs.Json.DistinctNames
import BitReaders.Proofs.SchemeNames
import BitReaders.Reader.Override
import Mathlib.Data.List.Forall2

/-!
# Which documents override, and what they do

A document is read level by level, and each level is read here as the rule that it decides. The
changes of a family are collected first and made at the end; so no change is checked against what
another one has made.

- `Override.Asks`: what a family takes as a member of its object, and the change that it asks for;
  `read_eq_ok_iff`: nothing else is read.
- `Override.Overridden`: what a family is after the members of its object; `overridden_foldl`: the
  collected changes make it so, since no axis is listed twice.
- `failure?`: why a computation fails; `Override.failure?_families`: the objects of a document are
  taken one by one, and the first that is not taken decides.
- `Override.EntryOverridden`: what an entry of a catalogue is after a document;
  `entriesOverridden`: each object changes its own family only.
- `Override.ListsFamilies`: where the families stand in a document. No family stands there twice in
  a document that has been read, by `Json.read_distinctNames`.
- `Catalogue.exists_override_eq_ok_iff`: **exactly the well-formed documents override**, and what
  they do.
-/

namespace BitReaders

open Json (Value Members)

namespace Text

theorem ofString_injective : Function.Injective ofString := by
  intro s t h
  have hread := congrArg toString? h
  rw [toString?_ofString, toString?_ofString] at hread
  exact Option.some.inj hread

end Text

namespace Override

/-! ## Outcomes -/

/-- Why a computation fails, if it does. -/
def failure? {ε α : Type} : Except ε α → Option ε
  | .ok _ => none
  | .error e => some e

section

variable {ε α β : Type} {x : Except ε α}

theorem failure?_eq_some_iff {e : ε} : failure? x = some e ↔ x = .error e := by
  cases x <;> simp [failure?]

theorem failure?_eq_none_iff : failure? x = none ↔ ∃ a, x = .ok a := by
  cases x <;> simp [failure?]

theorem isSome_failure?_iff : (failure? x).isSome ↔ ∃ e, x = .error e := by
  cases x <;> simp [failure?]

theorem failure?_map (g : α → β) : failure? (x.map g) = failure? x := by
  cases x <;> rfl

end

/-- Functions that agree on a list find the same. -/
theorem findSome?_congr {α β : Type} {f g : α → Option β} {l : List α} (h : ∀ a ∈ l, f a = g a) :
    l.findSome? f = l.findSome? g := by
  induction l with
  | nil => rfl
  | cons a l ih =>
    rw [List.forall_mem_cons] at h
    rw [List.findSome?_cons, List.findSome?_cons, h.1, ih h.2]

theorem map_eq_ok_iff {ε α β : Type} {x : Except ε α} {g : α → β} {b : β} :
    x.map g = .ok b ↔ ∃ a, x = .ok a ∧ g a = b := by
  cases x <;> simp [Except.map]

/-! ## Names of axes -/

theorem axis?_eq_some_iff {name : Text} {a : Axis} :
    axis? name = some a ↔ Text.ofString a.name = name := by
  constructor
  · intro h
    exact eq_of_beq (List.find?_some (p := fun a : Axis => Text.ofString a.name == name) h)
  · rintro rfl
    cases a <;> decide

theorem axisName_injective {a b : Axis} (h : Text.ofString a.name = Text.ofString b.name) :
    a = b := by
  have hread := axis?_eq_some_iff.mpr h
  rw [axis?_eq_some_iff.mpr rfl] at hread
  exact (Option.some.inj hread).symm

theorem skipAxis_ne (a : Axis) : Text.ofString a.name ≠ skipAxis := by
  cases a <;> decide

/-! ## Parts of the document -/

theorem members_eq_ok_iff {place : Place} {v : Value} {ms : Members} :
    members place v = .ok ms ↔ v = .object ms := by
  cases v <;> simp [members]

theorem items_eq_ok_iff {place : Place} {v : Value} {vs : List Value} :
    items place v = .ok vs ↔ v = .array vs ∧ vs ≠ [] := by
  cases v with
  | array ws =>
    cases ws with
    | nil => simp +contextual [items]
    | cons w ws => simp +contextual [items, eq_comm]
  | _ => simp [items]

/-- A list of booleans is read as it is. -/
theorem booleans_eq_ok_iff {place : Place} {vs : List Value} {bs : List Bool} :
    booleans place vs = .ok bs ↔ vs = bs.map .bool := by
  induction vs generalizing bs with
  | nil => cases bs <;> simp [booleans]
  | cons v vs ih =>
    cases v with
    | bool b =>
      rw [booleans, map_eq_ok_iff]
      constructor
      · rintro ⟨as, has, rfl⟩
        rw [ih.mp has, List.map_cons]
      · intro h
        cases bs with
        | nil => cases h
        | cons b' bs =>
          obtain ⟨hb, hbs⟩ := List.cons.inj h
          cases hb
          exact ⟨bs, ih.mpr hbs, rfl⟩
    | _ => cases bs <;> simp [booleans]

/-- A list of schemes is read iff every item names one. -/
theorem namedSchemes_eq_ok_iff {vs : List Value} {ss : List Scheme} :
    namedSchemes vs = .ok ss ↔ vs.map Value.scheme? = ss.map some := by
  induction vs generalizing ss with
  | nil => cases ss <;> simp [namedSchemes]
  | cons v vs ih =>
    rw [namedSchemes, Json.parse?_display, List.map_cons]
    cases hv : v.scheme? with
    | none => cases ss <;> simp
    | some s =>
      simp only
      rw [map_eq_ok_iff]
      constructor
      · rintro ⟨as, has, rfl⟩
        rw [ih.mp has, List.map_cons]
      · intro h
        cases ss with
        | nil => cases h
        | cons s' ss =>
          obtain ⟨hs, hss⟩ := List.cons.inj h
          cases hs
          exact ⟨ss, ih.mpr hss, rfl⟩

/-! ## One member -/

/-- What a family takes as a member of its object, and the change that it asks for: a list of
booleans for the skip axis if the family has one, or a list of schemes for another axis, with no
quantity left out unless the family has payload readers. The lists are not empty. -/
inductive Asks (f : Family) : Text → Value → Change → Prop where
  | skips (bs : List Bool) (nonempty : bs ≠ []) (hasAxis : 2 ≤ f.skips.length) :
    Asks f skipAxis (.array (bs.map .bool)) (.skips bs)
  | schemes (a : Axis) (vs : List Value) (ss : List Scheme) (nonempty : vs ≠ [])
    (named : vs.map Value.scheme? = ss.map some) (stored : .none ∈ ss → f.payloads = true) :
    Asks f (Text.ofString a.name) (.array vs) (.schemes a ss)

/-- A member is read iff the family takes it. -/
theorem read_eq_ok_iff {f : Family} {name axis : Text} {v : Value} {c : Change} :
    Change.read f name axis v = .ok c ↔ Asks f axis v c := by
  constructor
  · intro h
    unfold Change.read at h
    dsimp only at h
    split at h
    · cases h
    · rename_i vs hitems
      obtain ⟨rfl, hne⟩ := items_eq_ok_iff.mp hitems
      split at h
      · rename_i haxis
        split at h
        · cases h
        · rename_i hlen
          obtain ⟨bs, hbs, rfl⟩ := map_eq_ok_iff.mp h
          obtain rfl := booleans_eq_ok_iff.mp hbs
          subst haxis
          exact .skips bs (fun hnil => hne (by rw [hnil, List.map_nil])) (by omega)
      · split at h
        · cases h
        · rename_i a ha
          split at h
          · cases h
          · rename_i ss hss
            split at h
            · cases h
            · rename_i hnone
              cases h
              obtain rfl := axis?_eq_some_iff.mp ha
              refine .schemes a vs ss hne (namedSchemes_eq_ok_iff.mp hss) fun hmem => ?_
              simpa [hmem] using hnone
  · intro h
    cases h with
    | skips bs nonempty hasAxis =>
      have hitems : items (.axis name skipAxis) (.array (bs.map .bool)) = .ok (bs.map .bool) :=
        items_eq_ok_iff.mpr ⟨rfl, by simpa using nonempty⟩
      have hread : booleans (.axis name skipAxis) (bs.map .bool) = .ok bs :=
        booleans_eq_ok_iff.mpr rfl
      simp only [Change.read, hitems, if_pos, if_neg (Nat.not_lt.mpr hasAxis), hread]
      rfl
    | schemes a vs ss nonempty named stored =>
      have hitems : items (.axis name (Text.ofString a.name)) (.array vs) = .ok vs :=
        items_eq_ok_iff.mpr ⟨rfl, nonempty⟩
      have hstored : ¬ ((!f.payloads) = true ∧ .none ∈ ss) := by
        rintro ⟨hpay, hmem⟩
        rw [stored hmem] at hpay
        cases hpay
      simp only [Change.read, hitems, if_neg (skipAxis_ne a), axis?_eq_some_iff.mpr rfl,
        namedSchemes_eq_ok_iff.mpr named, if_neg hstored]

/-! ## The members of a family -/

/-- Partners for all elements of a list can be put in a list. -/
theorem exists_forall₂_iff {α β : Type} {R : α → β → Prop} {l : List α} :
    (∃ u, List.Forall₂ R l u) ↔ ∀ a ∈ l, ∃ b, R a b := by
  induction l with
  | nil => exact iff_of_true ⟨[], .nil⟩ nofun
  | cons a l ih =>
    rw [List.forall_mem_cons, ← ih]
    constructor
    · rintro ⟨u, hu⟩
      obtain ⟨b, u', hb, hu', rfl⟩ := List.forall₂_cons_left_iff.mp hu
      exact ⟨⟨b, hb⟩, u', hu'⟩
    · rintro ⟨⟨b, hb⟩, u, hu⟩
      exact ⟨b :: u, .cons hb hu⟩

/-- Relations between lists compose as those between their elements do. -/
theorem forall₂_comp {α β γ : Type} {R : α → β → Prop} {S : β → γ → Prop} {T : α → γ → Prop}
    {l₁ : List α} {l₂ : List β} {l₃ : List γ} (h₁ : List.Forall₂ R l₁ l₂)
    (h₂ : List.Forall₂ S l₂ l₃) (h : ∀ a b c, R a b → S b c → T a c) : List.Forall₂ T l₁ l₃ := by
  induction h₁ generalizing l₃ with
  | nil => exact List.forall₂_nil_left_iff.mpr (List.forall₂_nil_left_iff.mp h₂)
  | cons ha _ ih =>
    cases h₂ with
    | cons hb h₂ => exact .cons (h _ _ _ ha hb) (ih h₂)

/-- The members of a family's object are read iff the family takes each of them. -/
theorem changes_eq_ok_iff {f : Family} {name : Text} {axes : Members} {cs : List Change} :
    changes f name axes = .ok cs ↔ List.Forall₂ (fun m c => Asks f m.1 m.2 c) axes cs := by
  induction axes generalizing cs with
  | nil => cases cs <;> simp [changes]
  | cons m axes ih =>
    obtain ⟨axis, v⟩ := m
    rw [changes]
    constructor
    · intro h
      split at h
      · cases h
      · rename_i c hc
        obtain ⟨cs', hcs', rfl⟩ := map_eq_ok_iff.mp h
        exact .cons (read_eq_ok_iff.mp hc) (ih.mp hcs')
    · rintro (_ | ⟨hc, hcs⟩)
      rw [read_eq_ok_iff.mpr hc]
      exact map_eq_ok_iff.mpr ⟨_, ih.mpr hcs, rfl⟩

/-- A change leaves what no document can change. -/
theorem Change.apply_fixed (f : Family) (c : Change) :
    (c.apply f).name = f.name ∧ (c.apply f).suffix = f.suffix ∧
      (c.apply f).payloads = f.payloads := by
  cases c with
  | skips bs => exact ⟨rfl, rfl, rfl⟩
  | schemes a ss => cases a <;> exact ⟨rfl, rfl, rfl⟩

/-- What a family `g` is after the members `axes` of its object: every axis that is listed has
what the list says, in its order, and nothing else is changed. -/
structure Overridden (axes : Members) (f g : Family) : Prop where
  name : g.name = f.name
  suffix : g.suffix = f.suffix
  payloads : g.payloads = f.payloads
  listed : ∀ a vs, axes.find? (Text.ofString a.name) = some (.array vs) →
    vs.map Value.scheme? = (g.schemes a).map some
  unlisted : ∀ a, axes.find? (Text.ofString a.name) = none → g.schemes a = f.schemes a
  skipsListed : ∀ vs, axes.find? skipAxis = some (.array vs) → vs = g.skips.map .bool
  skipsUnlisted : axes.find? skipAxis = none → g.skips = f.skips

/-- The change that a family takes for an axis sets the axis. -/
theorem Asks.schemes_apply {f g : Family} {a : Axis} {vs : List Value} {c : Change}
    (h : Asks f (Text.ofString a.name) (.array vs) c) :
    vs.map Value.scheme? = ((c.apply g).schemes a).map some := by
  generalize haxis : Text.ofString a.name = axis at h
  generalize hv : Value.array vs = v at h
  cases h with
  | skips bs => exact absurd haxis (skipAxis_ne a)
  | schemes b ws ss _ named =>
    obtain rfl : a = b := axisName_injective haxis
    cases hv
    rw [Change.apply, Family.schemes_setSchemes_self]
    exact named

/-- A change for another member leaves the axis. -/
theorem Asks.schemes_apply_of_ne {f g : Family} {a : Axis} {axis : Text} {v : Value} {c : Change}
    (h : Asks f axis v c) (hne : axis ≠ Text.ofString a.name) :
    (c.apply g).schemes a = g.schemes a := by
  cases h with
  | skips bs => cases a <;> rfl
  | schemes b ws ss =>
    have hb : a ≠ b := by
      rintro rfl
      exact hne rfl
    exact Family.schemes_setSchemes_of_ne hb g ss

/-- The change that a family takes for the skip axis sets it. -/
theorem Asks.skips_apply {f g : Family} {vs : List Value} {c : Change}
    (h : Asks f skipAxis (.array vs) c) : vs = (c.apply g).skips.map .bool := by
  generalize haxis : skipAxis = axis at h
  generalize hv : Value.array vs = v at h
  cases h with
  | skips bs =>
    cases hv
    rfl
  | schemes b => exact absurd haxis.symm (skipAxis_ne b)

/-- A change for another member leaves the skip axis. -/
theorem Asks.skips_apply_of_ne {f g : Family} {axis : Text} {v : Value} {c : Change}
    (h : Asks f axis v c) (hne : axis ≠ skipAxis) : (c.apply g).skips = g.skips := by
  cases h with
  | skips bs => exact absurd rfl hne
  | schemes b ws ss => cases b <;> rfl

/-- Changes one after the other do what the members list, if no name is listed twice. By induction
on the members: what the first one sets, the others leave. -/
theorem overridden_foldl {f : Family} {axes : Members} {cs : List Change}
    (h : List.Forall₂ (fun m c => Asks f m.1 m.2 c) axes cs) (hnames : (axes.map (·.1)).Nodup)
    (g : Family) : Overridden axes g (cs.foldl Change.apply g) := by
  induction h generalizing g with
  | nil => exact ⟨rfl, rfl, rfl, nofun, fun _ _ => rfl, nofun, fun _ => rfl⟩
  | @cons m c axes cs hc hcs ih =>
    obtain ⟨axis, v⟩ := m
    rw [List.map_cons, List.nodup_cons] at hnames
    have hrest := ih hnames.2 (c.apply g)
    have hfixed := Change.apply_fixed g c
    have habsent : Members.find? axis axes = none := Members.find?_eq_none_iff.mpr hnames.1
    rw [List.foldl_cons]
    refine ⟨hrest.name.trans hfixed.1, hrest.suffix.trans hfixed.2.1,
      hrest.payloads.trans hfixed.2.2, ?_, ?_, ?_, ?_⟩
    · intro a vs hfind
      rw [Members.find?_cons] at hfind
      split at hfind
      · rename_i haxis
        cases hfind
        subst haxis
        rw [hrest.unlisted a habsent]
        exact hc.schemes_apply
      · exact hrest.listed a vs hfind
    · intro a hfind
      rw [Members.find?_cons] at hfind
      split at hfind
      · cases hfind
      · rename_i hne
        rw [hrest.unlisted a hfind]
        exact hc.schemes_apply_of_ne hne
    · intro vs hfind
      rw [Members.find?_cons] at hfind
      split at hfind
      · rename_i haxis
        cases hfind
        subst haxis
        rw [hrest.skipsUnlisted habsent]
        exact hc.skips_apply
      · exact hrest.skipsListed vs hfind
    · intro hfind
      rw [Members.find?_cons] at hfind
      split at hfind
      · cases hfind
      · rename_i hne
        rw [hrest.skipsUnlisted hfind]
        exact hc.skips_apply_of_ne hne

/-! ## The members of the document -/

/-- A family is overridden by an object whose members it takes. -/
theorem family_eq_ok_iff {f g : Family} {name : Text} {v : Value} :
    family f name v = .ok g ↔ ∃ axes cs, v = .object axes ∧
      List.Forall₂ (fun m c => Asks f m.1 m.2 c) axes cs ∧ cs.foldl Change.apply f = g := by
  rw [family]
  constructor
  · intro h
    split at h
    · cases h
    · rename_i axes hms
      obtain ⟨cs, hcs, rfl⟩ := map_eq_ok_iff.mp h
      exact ⟨axes, cs, members_eq_ok_iff.mp hms, changes_eq_ok_iff.mp hcs, rfl⟩
  · rintro ⟨axes, cs, rfl, hcs, rfl⟩
    exact map_eq_ok_iff.mpr ⟨cs, changes_eq_ok_iff.mpr hcs, rfl⟩

end Override

namespace Catalogue

theorem find?_cons (e : String × Family) (c : Catalogue) (name : Text) :
    find? (e :: c) name = if Text.ofString e.1 = name then some e.2 else c.find? name := by
  by_cases h : Text.ofString e.1 = name <;> simp [find?, h]

/-- A family that is found is there under its key. -/
theorem exists_mem_of_find?_eq_some {c : Catalogue} {name : Text} {f : Family}
    (h : c.find? name = some f) : ∃ k, Text.ofString k = name ∧ (k, f) ∈ c := by
  obtain ⟨⟨k, g⟩, hfind, rfl⟩ := Option.map_eq_some_iff.mp h
  exact ⟨k, by simpa using List.find?_some hfind, List.mem_of_find?_eq_some hfind⟩

/-- In an ordered map the family under a key is the one that is found. -/
theorem eq_of_find?_eq_some {c : Catalogue} (hkeys : (c.map (·.1)).Nodup) {e : String × Family}
    (he : e ∈ c) {f : Family} (h : c.find? (Text.ofString e.1) = some f) : e.2 = f := by
  obtain ⟨k, hk, hmem⟩ := exists_mem_of_find?_eq_some h
  obtain rfl := Text.ofString_injective hk
  have heq : e = (e.1, f) := List.inj_on_of_nodup_map hkeys he hmem rfl
  exact (Prod.ext_iff.mp heq).2

theorem map_fst_set (c : Catalogue) (name : Text) (f : Family) :
    (c.set name f).map (·.1) = c.map (·.1) := by
  rw [set, List.map_map]
  refine List.map_congr_left fun e _ => ?_
  show (if Text.ofString e.1 == name then (e.1, f) else e).1 = e.1
  split <;> rfl

/-- Entries that keep their keys, whatever becomes of the families. -/
theorem map_fst_eq_of_forall₂ {R : String × Family → String × Family → Prop}
    (hR : ∀ e e', R e e' → e'.1 = e.1) {c c' : Catalogue} (h : List.Forall₂ R c c') :
    c'.map (·.1) = c.map (·.1) := by
  induction h with
  | nil => rfl
  | cons he _ ih => rw [List.map_cons, List.map_cons, hR _ _ he, ih]

/-- Setting one family leaves the others. -/
theorem find?_set_of_ne {name other : Text} (h : other ≠ name) (c : Catalogue) (f : Family) :
    (c.set name f).find? other = c.find? other := by
  induction c with
  | nil => rfl
  | cons e c ih =>
    have hcons : set (e :: c) name f =
        (if Text.ofString e.1 == name then (e.1, f) else e) :: set c name f := rfl
    rw [hcons, find?_cons, find?_cons, ih]
    by_cases he : Text.ofString e.1 = name
    · have hne : Text.ofString e.1 ≠ other := fun ho => h (ho.symm.trans he)
      rw [if_pos (beq_iff_eq.mpr he), if_neg hne, if_neg hne]
    · rw [if_neg (mt beq_iff_eq.mp he)]

end Catalogue

namespace Override

/-- What a document with the members `fs` makes of an entry of a catalogue: the key stays, a family
that is listed is overridden by its object, and another one is not changed. -/
structure EntryOverridden (fs : Members) (e e' : String × Family) : Prop where
  key : e'.1 = e.1
  listed : ∀ v, fs.find? (Text.ofString e.1) = some v →
    family e.2 (Text.ofString e.1) v = .ok e'.2
  unlisted : fs.find? (Text.ofString e.1) = none → e'.2 = e.2

/-- The first object is for a family as it is, the others for what it leaves. -/
theorem families_cons_eq_ok_iff {c c' : Catalogue} {name : Text} {v : Value} {fs : Members} :
    families c ((name, v) :: fs) = .ok c' ↔
      ∃ f g, c.find? name = some f ∧ family f name v = .ok g ∧
        families (c.set name g) fs = .ok c' := by
  rw [families]
  cases hf : c.find? name with
  | none => simp
  | some f =>
    cases hg : family f name v with
    | error e => simp [hg]
    | ok g => simp [hg]

/-- Why the only object of a document fails: the family is not there, or does not take it. -/
theorem failure?_families_singleton (c : Catalogue) (name : Text) (v : Value) :
    failure? (families c [(name, v)]) =
      (c.find? name).elim (some (.unknownFamily name)) fun f => failure? (family f name v) := by
  rw [families]
  cases c.find? name with
  | none => rfl
  | some f =>
    dsimp only [Option.elim]
    cases family f name v <;> rfl

/-- **The objects of a document are checked each by itself**, if no family is listed twice. By
induction on them: they are for different families, so that none changes what a later one is checked
against. -/
theorem failure?_families {fs : Members} (hnames : (fs.map (·.1)).Nodup) (c : Catalogue) :
    failure? (families c fs) = fs.findSome? fun m => failure? (families c [m]) := by
  induction fs generalizing c with
  | nil => rfl
  | cons m fs ih =>
    obtain ⟨name, v⟩ := m
    rw [List.map_cons, List.nodup_cons] at hnames
    -- what the first object makes of its family is not looked at again
    have hlater : ∀ g, failure? (families (c.set name g) fs) =
        fs.findSome? fun m => failure? (families c [m]) := by
      intro g
      rw [ih hnames.2]
      refine findSome?_congr fun m hm => ?_
      have hne : m.1 ≠ name := fun h => hnames.1 (List.mem_map.mpr ⟨m, hm, h⟩)
      rw [failure?_families_singleton, failure?_families_singleton, Catalogue.find?_set_of_ne hne]
    rw [List.findSome?_cons, failure?_families_singleton, families]
    cases c.find? name with
    | none => rfl
    | some f =>
      dsimp only [Option.elim]
      cases family f name v with
      | error e => rfl
      | ok g => exact hlater g

/-- **A document is taken iff each of its objects is**, if no family is listed twice. -/
theorem exists_families_eq_ok_iff {fs : Members} (hnames : (fs.map (·.1)).Nodup) (c : Catalogue) :
    (∃ c', families c fs = .ok c') ↔
      ∀ m ∈ fs, ∃ f g, c.find? m.1 = some f ∧ family f m.1 m.2 = .ok g := by
  rw [← failure?_eq_none_iff, failure?_families hnames, List.findSome?_eq_none_iff]
  refine forall₂_congr fun m _ => ?_
  obtain ⟨name, v⟩ := m
  rw [failure?_families_singleton]
  cases c.find? name <;> simp [failure?_eq_none_iff]

/-- What a document makes of every entry. By induction on its objects: the first one overrides its
family, which the others leave, and leaves the other families, which the others override. -/
theorem entriesOverridden {fs : Members} (hnames : (fs.map (·.1)).Nodup) {c c' : Catalogue}
    (hkeys : (c.map (·.1)).Nodup) (h : families c fs = .ok c') :
    List.Forall₂ (EntryOverridden fs) c c' := by
  induction fs generalizing c with
  | nil =>
    cases h
    exact List.forall₂_same.mpr fun e _ => ⟨rfl, nofun, fun _ => rfl⟩
  | cons m fs ih =>
    obtain ⟨name, v⟩ := m
    rw [List.map_cons, List.nodup_cons] at hnames
    obtain ⟨f, g, hf, hg, hc'⟩ := families_cons_eq_ok_iff.mp h
    have habsent : Members.find? name fs = none := Members.find?_eq_none_iff.mpr hnames.1
    have hrest := ih hnames.2 ((Catalogue.map_fst_set c name g).symm ▸ hkeys) hc'
    rw [Catalogue.set, List.forall₂_map_left_iff] at hrest
    have hmem : ∀ e ∈ c, e ∈ c := fun _ => id
    refine ((List.forall₂_and_left c c').mpr ⟨hmem, hrest⟩).imp ?_
    rintro e e' ⟨he, hentry⟩
    by_cases hname : Text.ofString e.1 = name
    · -- the entry that the first object is for
      subst hname
      rw [if_pos (beq_self_eq_true _)] at hentry
      have hset : e'.2 = g := hentry.unlisted habsent
      refine ⟨hentry.key, ?_, ?_⟩
      · intro w hw
        rw [Members.find?_cons, if_pos rfl] at hw
        cases hw
        rw [Catalogue.eq_of_find?_eq_some hkeys he hf, hset]
        exact hg
      · intro hnone
        rw [Members.find?_cons, if_pos rfl] at hnone
        cases hnone
    · rw [if_neg (mt beq_iff_eq.mp hname)] at hentry
      have hcons : Members.find? (Text.ofString e.1) ((name, v) :: fs) =
          Members.find? (Text.ofString e.1) fs := by
        rw [Members.find?_cons, if_neg (Ne.symm hname)]
      refine ⟨hentry.key, ?_, ?_⟩
      · rw [hcons]
        exact hentry.listed
      · rw [hcons]
        exact hentry.unlisted

/-- The document is an object, and its member for families is one with the members `fs`. -/
def ListsFamilies (document : Value) (fs : Members) : Prop :=
  ∃ ms : Members, document = .object ms ∧
    ms.find? (Text.ofString "families") = some (.object fs)

/-- No family is listed twice, and no axis of a family. -/
theorem ListsFamilies.nodup {document : Value} {fs : Members} (h : ListsFamilies document fs)
    (hnames : document.DistinctNames) :
    (fs.map (·.1)).Nodup ∧
      ∀ m ∈ fs, ∀ axes : Members, m.2 = .object axes → (axes.map (·.1)).Nodup := by
  obtain ⟨ms, rfl, hfind⟩ := h
  cases hnames with
  | object _ values =>
    cases values _ (Members.mem_of_find?_eq_some hfind) with
    | object names values =>
      refine ⟨names, fun m hm axes hobject => ?_⟩
      have haxes := values m hm
      rw [hobject] at haxes
      cases haxes with
      | object names _ => exact names

end Override

namespace Catalogue

/-- A document that lists families is what it lists for them. -/
theorem override_eq_families {document : Value} {fs : Members}
    (hfs : Override.ListsFamilies document fs) (c : Catalogue) :
    c.override document = Override.families c fs := by
  obtain ⟨ms, rfl, hfind⟩ := hfs
  rw [override]
  simp only [Override.members, hfind, Option.getD_some]

theorem override_eq_ok_iff {c c' : Catalogue} {document : Value} :
    c.override document = .ok c' ↔
      ∃ fs, Override.ListsFamilies document fs ∧ Override.families c fs = .ok c' := by
  constructor
  · intro h
    rw [override] at h
    split at h
    · cases h
    · rename_i ms hms
      split at h
      · cases h
      · rename_i fs hfs
        refine ⟨fs, ⟨ms, Override.members_eq_ok_iff.mp hms, ?_⟩, h⟩
        have hobject := Override.members_eq_ok_iff.mp hfs
        cases hfind : ms.find? (Text.ofString "families") with
        | none =>
          rw [hfind] at hobject
          cases hobject
        | some v =>
          rw [hfind] at hobject
          exact congrArg some hobject
  · rintro ⟨fs, hfs, h⟩
    exact (override_eq_families hfs c).trans h

/-- **Exactly the well-formed documents override, and they do what they say.** -/
theorem exists_override_eq_ok_iff {c : Catalogue} (hkeys : (c.map (·.1)).Nodup) {document : Value}
    (hnames : document.DistinctNames) :
    ((∃ c', c.override document = .ok c') ↔
      ∃ fs, Override.ListsFamilies document fs ∧
        ∀ m ∈ fs, ∃ f axes, c.find? m.1 = some f ∧ m.2 = .object axes ∧
          ∀ a ∈ axes, ∃ change, Override.Asks f a.1 a.2 change) ∧
    ∀ c', c.override document = .ok c' →
      ∃ fs, Override.ListsFamilies document fs ∧
        List.Forall₂
          (fun e e' => e'.1 = e.1 ∧
            (∀ axes, fs.find? (Text.ofString e.1) = some (.object axes) →
              Override.Overridden axes e.2 e'.2) ∧
            (fs.find? (Text.ofString e.1) = none → e'.2 = e.2))
          c c' := by
  constructor
  · constructor
    · rintro ⟨c', h⟩
      obtain ⟨fs, hfs, hc'⟩ := override_eq_ok_iff.mp h
      refine ⟨fs, hfs, fun m hm => ?_⟩
      obtain ⟨f, g, hf, hg⟩ :=
        (Override.exists_families_eq_ok_iff (hfs.nodup hnames).1 c).mp ⟨c', hc'⟩ m hm
      obtain ⟨axes, cs, hobject, hasks, -⟩ := Override.family_eq_ok_iff.mp hg
      exact ⟨f, axes, hf, hobject, Override.exists_forall₂_iff.mp ⟨cs, hasks⟩⟩
    · rintro ⟨fs, hfs, hall⟩
      have hfamilies : ∃ c', Override.families c fs = .ok c' := by
        refine (Override.exists_families_eq_ok_iff (hfs.nodup hnames).1 c).mpr fun m hm => ?_
        obtain ⟨f, axes, hf, hobject, htakes⟩ := hall m hm
        obtain ⟨cs, hasks⟩ := Override.exists_forall₂_iff.mpr htakes
        exact ⟨f, _, hf, Override.family_eq_ok_iff.mpr ⟨axes, cs, hobject, hasks, rfl⟩⟩
      obtain ⟨c', hc'⟩ := hfamilies
      exact ⟨c', override_eq_ok_iff.mpr ⟨fs, hfs, hc'⟩⟩
  · intro c' h
    obtain ⟨fs, hfs, hc'⟩ := override_eq_ok_iff.mp h
    have hnodup := hfs.nodup hnames
    refine ⟨fs, hfs, (Override.entriesOverridden hnodup.1 hkeys hc').imp fun e e' hentry => ?_⟩
    refine ⟨hentry.key, fun axes hfind => ?_, hentry.unlisted⟩
    obtain ⟨axes', cs, hobject, hasks, hfold⟩ :=
      Override.family_eq_ok_iff.mp (hentry.listed _ hfind)
    cases hobject
    rw [← hfold]
    exact Override.overridden_foldl hasks
      (hnodup.2 _ (Members.mem_of_find?_eq_some hfind) axes rfl) e.2

/-- A document that overrides the skips of one default family and an axis of the other. -/
theorem exists_override_eq_ok_skips :
    ∃ c', Catalogue.default.override
      (.object [(Text.ofString "families", .object
        [(Text.ofString "standard", .object
          [(Text.ofString "skips", .array [.bool false]),
            (Text.ofString "counts", .array [.null, .string (Text.ofString " unary\n")])]),
          (Text.ofString "high-performance", .object
            [(Text.ofString "positions", .array [.string (Text.ofString "Delta")])])])]) =
      .ok c' := by
  refine (exists_override_eq_ok_iff (by decide) ?_).1.mpr ⟨_, ⟨_, rfl, rfl⟩, ?_⟩
  · refine .object (by decide) (List.forall_mem_singleton.mpr (.object (by decide) ?_))
    refine List.forall_mem_cons.mpr ⟨.object (by decide) (List.forall_mem_cons.mpr ⟨?_, ?_⟩),
      List.forall_mem_singleton.mpr (.object (by decide) (List.forall_mem_singleton.mpr ?_))⟩
    · exact .array (List.forall_mem_singleton.mpr (.bool false))
    · refine List.forall_mem_singleton.mpr (.array ?_)
      exact List.forall_mem_cons.mpr ⟨.null, List.forall_mem_singleton.mpr (.string _)⟩
    · exact .array (List.forall_mem_singleton.mpr (.string _))
  · refine List.forall_mem_cons.mpr ⟨⟨.standard, _, rfl, rfl, List.forall_mem_cons.mpr ⟨?_, ?_⟩⟩,
      List.forall_mem_singleton.mpr ⟨.highPerformance, _, rfl, rfl, ?_⟩⟩
    · exact ⟨_, .skips [false] (by decide) (by decide)⟩
    · exact List.forall_mem_singleton.mpr
        ⟨_, .schemes .counts _ [.none, .unary] (by simp) (by decide +kernel) (fun _ => rfl)⟩
    · exact List.forall_mem_singleton.mpr
        ⟨_, .schemes .positions _ [.delta] (by simp) (by decide +kernel) (by decide)⟩

end Catalogue

end BitReaders
