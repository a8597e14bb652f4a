import BitReaders.Proofs.Entries
import BitReaders.Proofs.Reachable

/-!
# One document after another

What a document does to a catalogue is said by what it lists, axis by axis, and listings compose: a
later one stands in front of an earlier one. Only the guard on the skip axis reads what an earlier
document has made.

- `Override.Listing`, `Override.listing`: what a document lists for each axis of each family;
  `Listing.orElse`: one listing in front of another.
- `Override.Revised`: what a family is after some lists; `Revised.comp`: lists after lists;
  `Revised.unique`: nothing else is left open.
- `Catalogue.Revised`: the same for a whole catalogue; `revised_of_override`: one document.
- `Override.exists_asks_iff`: what a family takes as a member, before and after a document: the same
  but for the skip axis, by `Catalogue.two_le_skips_iff`.
- `Catalogue.exists_override_after_iff`: which documents are taken after another one.
- `Catalogue.override_after`: **one document after another**.
-/

namespace BitReaders

open Json (Value Members)

namespace Json

/-! ## Members by name -/

/-- The member with a name, of an object. -/
def Value.member? (name : Text) : Value → Option Value
  | .object ms => Members.find? name ms
  | _ => none

/-- The items of an array. -/
def Value.items? : Value → Option (List Value)
  | .array vs => some vs
  | _ => none

theorem Value.items?_eq_some_iff {v : Value} {vs : List Value} :
    v.items? = some vs ↔ v = .array vs := by
  cases v <;> simp [items?]

end Json

namespace Override

/-! ## Listings -/

/-- What is listed for each axis of each family, both by their names. -/
abbrev Listing := Text → Text → Option (List Value)

/-- What a document lists. -/
def listing (document : Value) : Listing := fun name axis =>
  (document.member? (Text.ofString "families")).bind fun fs =>
    (fs.member? name).bind fun axes => (axes.member? axis).bind Value.items?

/-- One listing in front of another: what it lists, and else what the other one does. -/
def Listing.orElse (L₂ L₁ : Listing) : Listing := fun name axis =>
  (L₂ name axis).or (L₁ name axis)

/-- Listings that have no axis in common are in front of each other. -/
theorem Listing.orElse_comm {L₁ L₂ : Listing}
    (h : ∀ name axis, L₁ name axis = none ∨ L₂ name axis = none) : L₂.orElse L₁ = L₁.orElse L₂ := by
  funext name axis
  rcases h name axis with hnone | hnone
  · simp [orElse, hnone]
  · simp [orElse, hnone]

theorem Listing.orElse_self (L : Listing) : L.orElse L = L := by
  funext name axis
  exact Option.or_self

theorem listing_eq {document : Value} {fs : Members} (hfs : ListsFamilies document fs)
    (name axis : Text) :
    listing document name axis =
      (fs.find? name).bind fun axes => (axes.member? axis).bind Value.items? := by
  obtain ⟨ms, rfl, hfind⟩ := hfs
  show ((ms.find? (Text.ofString "families")).bind _) = _
  rw [hfind]
  rfl

/-! ## Families under lists -/

/-- What a family `g` is if some lists are made for the axes of `f`: an axis that is listed has what
the list names, and nothing else is changed. -/
structure Revised (lists : Text → Option (List Value)) (f g : Family) : Prop where
  brand : g.brand = f.brand
  schemes : ∀ a : Axis, (g.schemes a).map some =
    ((lists (Text.ofString a.name)).map (List.map Value.scheme?)).getD ((f.schemes a).map some)
  skips : g.skips.map Value.bool = (lists skipAxis).getD (f.skips.map Value.bool)

section

variable {l l₁ l₂ : Text → Option (List Value)} {f g h : Family}

/-- Without a list nothing is changed. -/
theorem Revised.refl (hl : ∀ axis, l axis = none) (f : Family) : Revised l f f :=
  ⟨rfl, fun a => by rw [hl]; rfl, by rw [hl]; rfl⟩

/-- Lists after lists: the later ones stand in front. -/
theorem Revised.comp (hfg : Revised l₁ f g) (hgh : Revised l₂ g h) :
    Revised (fun axis => (l₂ axis).or (l₁ axis)) f h := by
  refine ⟨hgh.brand.trans hfg.brand, fun a => ?_, ?_⟩
  · rw [hgh.schemes a, hfg.schemes a, Option.map_or, Option.getD_or]
  · rw [hgh.skips, hfg.skips, Option.getD_or]

/-- The lists leave nothing open. -/
theorem Revised.unique (hg : Revised l f g) (hh : Revised l f h) : g = h := by
  have hbrand : g.brand = h.brand := hg.brand.trans hh.brand.symm
  have hschemes : ∀ a, g.schemes a = h.schemes a := by
    intro a
    have hmap := (hg.schemes a).trans (hh.schemes a).symm
    exact List.map_injective_iff.mpr (fun _ _ => Option.some.inj) hmap
  have hskips : g.skips = h.skips :=
    List.map_injective_iff.mpr (fun _ _ => Value.bool.inj) (hg.skips.trans hh.skips.symm)
  obtain ⟨hname, hrest⟩ := Prod.ext_iff.mp hbrand
  obtain ⟨hsuffix, hpayloads⟩ := Prod.ext_iff.mp hrest
  cases g
  cases h
  simp only [Family.mk.injEq]
  exact ⟨hname, hsuffix, hschemes .frequencies, hschemes .pointers, hschemes .counts,
    hschemes .positions, hskips, hpayloads⟩

end

/-! ## What a family takes -/

/-- Only arrays with items are taken. -/
theorem Asks.exists_array {f : Family} {axis : Text} {v : Value} {c : Change}
    (h : Asks f axis v c) : ∃ vs, v = .array vs ∧ vs ≠ [] := by
  cases h with
  | skips bs nonempty => exact ⟨_, rfl, by simpa using nonempty⟩
  | schemes a vs ss nonempty => exact ⟨vs, rfl, nonempty⟩

/-- Skips are taken by a family whose skip axis has at least two entries. -/
theorem Asks.two_le_skips {f : Family} {v : Value} {c : Change} (h : Asks f skipAxis v c) :
    2 ≤ f.skips.length := by
  generalize haxis : skipAxis = axis at h
  cases h with
  | skips bs nonempty hasAxis => exact hasAxis
  | schemes a => exact absurd haxis.symm (skipAxis_ne a)

/-- A family is overridden by the lists of its object. -/
theorem Overridden.revised {f g : Family} {axes : Members} (h : Overridden axes f g)
    (harrays : ∀ m ∈ axes, ∃ vs, m.2 = .array vs) :
    Revised (fun axis => (axes.find? axis).bind Value.items?) f g := by
  have hfound : ∀ axis v, axes.find? axis = some v → ∃ vs, v = .array vs := fun axis v hv =>
    harrays (axis, v) (Members.mem_of_find?_eq_some hv)
  refine ⟨by rw [Family.brand, h.name, h.suffix, h.payloads, Family.brand], fun a => ?_, ?_⟩
  · cases hfind : axes.find? (Text.ofString a.name) with
    | none => rw [h.unlisted a hfind]; rfl
    | some v =>
      obtain ⟨vs, rfl⟩ := hfound _ v hfind
      exact (h.listed a vs hfind).symm
  · cases hfind : axes.find? skipAxis with
    | none => rw [h.skipsUnlisted hfind]; rfl
    | some v =>
      obtain ⟨vs, rfl⟩ := hfound _ v hfind
      exact (h.skipsListed vs hfind).symm

/-- What a family takes as a member does not depend on its schemes, and on its skips only for the
skip axis: there nothing is taken any more once the axis has less than two entries. -/
theorem exists_asks_iff {f g : Family} {P : Prop} (hpay : g.payloads = f.payloads)
    (hskips : 2 ≤ g.skips.length ↔ 2 ≤ f.skips.length ∧ P) {axis : Text} {v : Value} :
    (∃ c, Asks g axis v c) ↔ (∃ c, Asks f axis v c) ∧ (axis = skipAxis → P) := by
  constructor
  · rintro ⟨c, h⟩
    cases h with
    | skips bs nonempty hasAxis =>
      have hboth := hskips.mp hasAxis
      exact ⟨⟨_, .skips bs nonempty hboth.1⟩, fun _ => hboth.2⟩
    | schemes a vs ss nonempty named stored =>
      exact ⟨⟨_, .schemes a vs ss nonempty named (hpay ▸ stored)⟩,
        fun haxis => absurd haxis (skipAxis_ne a)⟩
  · rintro ⟨⟨c, h⟩, hP⟩
    cases h with
    | skips bs nonempty hasAxis => exact ⟨_, .skips bs nonempty (hskips.mpr ⟨hasAxis, hP rfl⟩)⟩
    | schemes a vs ss nonempty named stored =>
      exact ⟨_, .schemes a vs ss nonempty named (hpay ▸ stored)⟩

theorem exists_family_eq_ok_iff {f : Family} {name : Text} {v : Value} :
    (∃ g, family f name v = .ok g) ↔
      ∃ axes, v = .object axes ∧ ∀ m ∈ axes, ∃ c, Asks f m.1 m.2 c := by
  constructor
  · rintro ⟨g, h⟩
    obtain ⟨axes, cs, rfl, hasks, -⟩ := family_eq_ok_iff.mp h
    exact ⟨axes, rfl, exists_forall₂_iff.mp ⟨cs, hasks⟩⟩
  · rintro ⟨axes, rfl, hall⟩
    obtain ⟨cs, hasks⟩ := exists_forall₂_iff.mpr hall
    exact ⟨_, family_eq_ok_iff.mpr ⟨axes, cs, rfl, hasks, rfl⟩⟩

/-- What a family takes as its object, in the same way. -/
theorem exists_family_after_iff {f g : Family} {P : Prop} (hpay : g.payloads = f.payloads)
    (hskips : 2 ≤ g.skips.length ↔ 2 ≤ f.skips.length ∧ P) (name : Text) (v : Value) :
    (∃ g', family g name v = .ok g') ↔
      (∃ f', family f name v = .ok f') ∧
        ∀ vs, (v.member? skipAxis).bind Value.items? = some vs → P := by
  rw [exists_family_eq_ok_iff, exists_family_eq_ok_iff]
  simp only [exists_asks_iff hpay hskips]
  constructor
  · rintro ⟨axes, rfl, hall⟩
    refine ⟨⟨axes, rfl, fun m hm => (hall m hm).1⟩, fun vs hvs => ?_⟩
    obtain ⟨w, hw, -⟩ := Option.bind_eq_some_iff.mp hvs
    exact (hall _ (Members.mem_of_find?_eq_some hw)).2 rfl
  · rintro ⟨⟨axes, rfl, hall⟩, hP⟩
    refine ⟨axes, rfl, fun m hm => ⟨hall m hm, fun haxis => ?_⟩⟩
    -- some member of that name is found, and what is found is an array
    have hfind : Members.find? skipAxis axes ≠ none := by
      intro hnone
      exact Members.find?_eq_none_iff.mp hnone (List.mem_map.mpr ⟨m, hm, haxis⟩)
    obtain ⟨w, hw⟩ := Option.ne_none_iff_exists'.mp hfind
    obtain ⟨c, hc⟩ := hall _ (Members.mem_of_find?_eq_some hw)
    obtain ⟨vs, hvs, -⟩ := hc.exists_array
    exact hP vs (Option.bind_eq_some_iff.mpr ⟨w, hw, Value.items?_eq_some_iff.mpr hvs⟩)

end Override

namespace Catalogue

/-! ## Catalogues under listings -/

/-- What a catalogue is if a listing is made for it: the keys stay, and every family is revised by
what is listed under its key. -/
def Revised (L : Override.Listing) (c c' : Catalogue) : Prop :=
  List.Forall₂ (fun e e' => e'.1 = e.1 ∧ Override.Revised (L (Text.ofString e.1)) e.2 e'.2) c c'

section

variable {L L₁ L₂ : Override.Listing} {c c₁ c₂ : Catalogue}

theorem Revised.comp (h₁ : Revised L₁ c c₁) (h₂ : Revised L₂ c₁ c₂) :
    Revised (L₂.orElse L₁) c c₂ := by
  refine Override.forall₂_comp h₁ h₂ fun e e₁ e₂ he he₁ => ⟨he₁.1.trans he.1, ?_⟩
  exact he.2.comp (he.1 ▸ he₁.2)

theorem Revised.unique (h₁ : Revised L c c₁) (h₂ : Revised L c c₂) : c₁ = c₂ := by
  refine List.right_unique_forall₂' (fun e e₁ e₂ he₁ he₂ => ?_) h₁ h₂
  exact Prod.ext (he₁.1.trans he₂.1.symm) (he₁.2.unique he₂.2)

theorem Revised.map_fst_eq (h : Revised L c c₁) : c₁.map (·.1) = c.map (·.1) :=
  map_fst_eq_of_forall₂ (fun _ _ he => he.1) h

/-- A name has a family before iff it has one after, and the one after is the one before revised. -/
theorem Revised.find?_cases (h : Revised L c c₁) (name : Text) :
    (c.find? name = none ∧ c₁.find? name = none) ∨
      ∃ f f₁, c.find? name = some f ∧ c₁.find? name = some f₁ ∧
        Override.Revised (L name) f f₁ := by
  induction h with
  | nil => exact .inl ⟨rfl, rfl⟩
  | @cons e e₁ c c₁ he _ ih =>
    rw [find?_cons, find?_cons, he.1]
    by_cases hname : Text.ofString e.1 = name
    · subst hname
      exact .inr ⟨e.2, e₁.2, if_pos rfl, if_pos rfl, he.2⟩
    · rw [if_neg hname, if_neg hname]
      exact ih

end

section

variable {c c' : Catalogue} {document : Value}

/-- A document revises the catalogue by what it lists. -/
theorem revised_of_override (hkeys : (c.map (·.1)).Nodup) (hnames : document.DistinctNames)
    (h : c.override document = .ok c') : c.Revised (Override.listing document) c' := by
  obtain ⟨fs, hfs, hc'⟩ := override_eq_ok_iff.mp h
  have hnodup := hfs.nodup hnames
  refine (Override.entriesOverridden hnodup.1 hkeys hc').imp fun e e' hentry => ⟨hentry.key, ?_⟩
  cases hfind : fs.find? (Text.ofString e.1) with
  | none =>
    rw [hentry.unlisted hfind]
    exact .refl (fun axis => by rw [Override.listing_eq hfs, hfind]; rfl) e.2
  | some v =>
    obtain ⟨axes, cs, rfl, hasks, hfold⟩ :=
      Override.family_eq_ok_iff.mp (hentry.listed v hfind)
    have hlists : Override.listing document (Text.ofString e.1) =
        fun axis => (Members.find? axis axes).bind Value.items? := by
      funext axis
      rw [Override.listing_eq hfs, hfind]
      rfl
    rw [hlists, ← hfold]
    have haxes := hnodup.2 _ (Members.mem_of_find?_eq_some hfind) axes rfl
    refine (Override.overridden_foldl hasks haxes e.2).revised fun m hm => ?_
    obtain ⟨change, hchange⟩ := Override.exists_forall₂_iff.mp ⟨cs, hasks⟩ m hm
    obtain ⟨vs, hvs, -⟩ := hchange.exists_array
    exact ⟨vs, hvs⟩

theorem exists_override_eq_ok_iff_members (hnames : document.DistinctNames) :
    (∃ c', c.override document = .ok c') ↔
      ∃ fs, Override.ListsFamilies document fs ∧
        ∀ m ∈ fs, ∃ f g, c.find? m.1 = some f ∧ Override.family f m.1 m.2 = .ok g := by
  constructor
  · rintro ⟨c', h⟩
    obtain ⟨fs, hfs, hc'⟩ := override_eq_ok_iff.mp h
    exact ⟨fs, hfs, (Override.exists_families_eq_ok_iff (hfs.nodup hnames).1 c).mp ⟨c', hc'⟩⟩
  · rintro ⟨fs, hfs, hall⟩
    obtain ⟨c', hc'⟩ := (Override.exists_families_eq_ok_iff (hfs.nodup hnames).1 c).mpr hall
    exact ⟨c', override_eq_ok_iff.mpr ⟨fs, hfs, hc'⟩⟩

/-- The guard on the skip axis: a document that is taken lists skips only for a family whose axis
has at least two entries, and then lists some. -/
theorem skips_of_listing (hnames : document.DistinctNames)
    (h : ∃ c', c.override document = .ok c') {name : Text} {f : Family}
    (hf : c.find? name = some f) {vs : List Value}
    (hlist : Override.listing document name Override.skipAxis = some vs) :
    2 ≤ f.skips.length ∧ vs ≠ [] := by
  obtain ⟨fs, hfs, hall⟩ := (exists_override_eq_ok_iff_members hnames).mp h
  rw [Override.listing_eq hfs] at hlist
  obtain ⟨v, hv, hlist⟩ := Option.bind_eq_some_iff.mp hlist
  obtain ⟨f', g, hf', hg⟩ := hall _ (Members.mem_of_find?_eq_some hv)
  obtain rfl : f = f' := Option.some.inj (hf.symm.trans hf')
  obtain ⟨axes, rfl, htakes⟩ := Override.exists_family_eq_ok_iff.mp ⟨g, hg⟩
  obtain ⟨w, hw, hitems⟩ := Option.bind_eq_some_iff.mp hlist
  obtain ⟨change, hchange⟩ := htakes _ (Members.mem_of_find?_eq_some hw)
  obtain ⟨ws, rfl, hne⟩ := hchange.exists_array
  cases hitems
  exact ⟨hchange.two_le_skips, hne⟩

/-- The skip axis of a family has at least two entries after a document iff it had before and the
document does not list a single one. -/
theorem two_le_skips_iff (hnames : document.DistinctNames)
    (h : ∃ c', c.override document = .ok c') {name : Text} {f f' : Family}
    (hf : c.find? name = some f)
    (hrevised : Override.Revised (Override.listing document name) f f') :
    2 ≤ f'.skips.length ↔
      2 ≤ f.skips.length ∧ ∀ v, Override.listing document name Override.skipAxis ≠ some [v] := by
  have hskips := congrArg List.length hrevised.skips
  rw [List.length_map] at hskips
  cases hlist : Override.listing document name Override.skipAxis with
  | none =>
    rw [hskips, hlist, Option.getD_none, List.length_map]
    simp
  | some vs =>
    obtain ⟨hboth, hne⟩ := skips_of_listing hnames h hf hlist
    rw [hskips, hlist, Option.getD_some]
    cases vs with
    | nil => exact absurd rfl hne
    | cons v vs => cases vs <;> simp [hboth]

end

/-! ## Two documents -/

variable {c c₁ c₂ : Catalogue} {d₁ d₂ : Value}

/-- **Which documents are taken after another one**: those that would be taken at once, unless they
list skips for a family to which the first one has given a single entry there. -/
theorem exists_override_after_iff (hkeys : (c.map (·.1)).Nodup) (hd₁ : d₁.DistinctNames)
    (hd₂ : d₂.DistinctNames) (h : c.override d₁ = .ok c₁) :
    (∃ c₂, c₁.override d₂ = .ok c₂) ↔
      (∃ c', c.override d₂ = .ok c') ∧
        ¬ ∃ name v vs, Override.listing d₁ name Override.skipAxis = some [v] ∧
          Override.listing d₂ name Override.skipAxis = some vs := by
  have hrevised := revised_of_override hkeys hd₁ h
  -- what one member meets after the first document, and what it would meet at once
  have hmember : ∀ m : Text × Value,
      (∃ f g, c₁.find? m.1 = some f ∧ Override.family f m.1 m.2 = .ok g) ↔
        (∃ f g, c.find? m.1 = some f ∧ Override.family f m.1 m.2 = .ok g) ∧
          ∀ vs, (m.2.member? Override.skipAxis).bind Value.items? = some vs →
            ∀ v, Override.listing d₁ m.1 Override.skipAxis ≠ some [v] := by
    intro m
    rcases hrevised.find?_cases m.1 with ⟨hnone, hnone'⟩ | ⟨f, f', hf, hf', hfamily⟩
    · simp [hnone, hnone']
    · have hpay : f'.payloads = f.payloads := congrArg (·.2.2) hfamily.brand
      have hguard := two_le_skips_iff hd₁ ⟨c₁, h⟩ hf hfamily
      simpa [hf, hf'] using Override.exists_family_after_iff hpay hguard m.1 m.2
  rw [exists_override_eq_ok_iff_members hd₂, exists_override_eq_ok_iff_members hd₂]
  simp only [hmember]
  constructor
  · rintro ⟨fs, hfs, hall⟩
    refine ⟨⟨fs, hfs, fun m hm => (hall m hm).1⟩, ?_⟩
    rintro ⟨name, v, vs, hone, hlist⟩
    rw [Override.listing_eq hfs] at hlist
    obtain ⟨w, hw, hlist⟩ := Option.bind_eq_some_iff.mp hlist
    exact (hall _ (Members.mem_of_find?_eq_some hw)).2 vs hlist v hone
  · rintro ⟨⟨fs, hfs, hall⟩, hskips⟩
    refine ⟨fs, hfs, fun m hm => ⟨hall m hm, fun vs hlist v hone => hskips ⟨m.1, v, vs, hone, ?_⟩⟩⟩
    rw [Override.listing_eq hfs, Members.find?_eq_some_of_mem (hfs.nodup hd₂).1 hm]
    exact hlist

/-- What two documents make of a catalogue: the later one stands in front. -/
theorem revised_of_override_override (hkeys : (c.map (·.1)).Nodup) (hd₁ : d₁.DistinctNames)
    (hd₂ : d₂.DistinctNames) (h₁ : c.override d₁ = .ok c₁) (h₂ : c₁.override d₂ = .ok c₂) :
    c.Revised ((Override.listing d₂).orElse (Override.listing d₁)) c₂ := by
  have hrevised := revised_of_override hkeys hd₁ h₁
  have hkeys₁ : (c₁.map (·.1)).Nodup := hrevised.map_fst_eq ▸ hkeys
  exact hrevised.comp (revised_of_override hkeys₁ hd₂ h₂)

/-- **One document after another.** After a document `d₁` that is taken:

- `d₂` is taken iff it would be taken at once and no family is given a single entry for skips by
  `d₁` and any by `d₂`;
- an axis has what `d₂` lists, else what `d₁` lists, else what it had;
- `d₁` again changes nothing, and is taken iff it gives no family a single entry for skips;
- if `d₂` would be taken at once and lists no axis that `d₁` lists, the order does not matter. -/
theorem override_after (hkeys : (c.map (·.1)).Nodup) (hd₁ : d₁.DistinctNames)
    (hd₂ : d₂.DistinctNames) (h : c.override d₁ = .ok c₁) :
    ((∃ c₂, c₁.override d₂ = .ok c₂) ↔
      (∃ c', c.override d₂ = .ok c') ∧
        ¬ ∃ name v vs, Override.listing d₁ name Override.skipAxis = some [v] ∧
          Override.listing d₂ name Override.skipAxis = some vs) ∧
    (∀ c₂, c₁.override d₂ = .ok c₂ →
      c.Revised ((Override.listing d₂).orElse (Override.listing d₁)) c₂) ∧
    ((∀ c₂, c₁.override d₁ = .ok c₂ → c₂ = c₁) ∧
      (c₁.override d₁ = .ok c₁ ↔
        ¬ ∃ name v, Override.listing d₁ name Override.skipAxis = some [v])) ∧
    ∀ c', c.override d₂ = .ok c' →
      (∀ name axis, Override.listing d₁ name axis = none ∨ Override.listing d₂ name axis = none) →
        ∃ c₂, c₁.override d₂ = .ok c₂ ∧ c'.override d₁ = .ok c₂ := by
  have hagain : ∀ c₂, c₁.override d₁ = .ok c₂ → c₂ = c₁ := by
    intro c₂ h₂
    have hrevised := revised_of_override_override hkeys hd₁ hd₁ h h₂
    rw [Override.Listing.orElse_self] at hrevised
    exact hrevised.unique (revised_of_override hkeys hd₁ h)
  refine ⟨exists_override_after_iff hkeys hd₁ hd₂ h,
    fun c₂ h₂ => revised_of_override_override hkeys hd₁ hd₂ h h₂, ⟨hagain, ?_⟩, ?_⟩
  · have htaken := exists_override_after_iff hkeys hd₁ hd₁ h
    constructor
    · rintro h₂ ⟨name, v, hone⟩
      exact (htaken.mp ⟨c₁, h₂⟩).2 ⟨name, v, [v], hone, hone⟩
    · intro hnone
      obtain ⟨c₂, h₂⟩ := htaken.mpr ⟨⟨c₁, h⟩, fun ⟨name, v, _, hone, _⟩ => hnone ⟨name, v, hone⟩⟩
      rw [h₂, hagain c₂ h₂]
  · intro c' h' hapart
    have hnotBoth : ∀ name {vs ws}, Override.listing d₁ name Override.skipAxis = some vs →
        Override.listing d₂ name Override.skipAxis ≠ some ws := by
      intro name vs ws h₁ h₂
      rcases hapart name Override.skipAxis with hnone | hnone
      · rw [hnone] at h₁
        cases h₁
      · rw [hnone] at h₂
        cases h₂
    obtain ⟨c₂, h₂⟩ := (exists_override_after_iff hkeys hd₁ hd₂ h).mpr
      ⟨⟨c', h'⟩, fun ⟨name, _, _, hone, hlist⟩ => hnotBoth name hone hlist⟩
    obtain ⟨c₂', h₂'⟩ := (exists_override_after_iff hkeys hd₂ hd₁ h').mpr
      ⟨⟨c₁, h⟩, fun ⟨name, _, _, hone, hlist⟩ => hnotBoth name hlist hone⟩
    -- both catalogues are what the two documents list together
    have hrevised := revised_of_override_override hkeys hd₁ hd₂ h h₂
    have hrevised' := revised_of_override_override hkeys hd₂ hd₁ h' h₂'
    rw [← Override.Listing.orElse_comm hapart] at hrevised'
    obtain rfl := hrevised.unique hrevised'
    exact ⟨c₂, h₂, h₂'⟩

/-- A document with a list for one axis of the standard readers. -/
def standardDocument (axis : String) (vs : List Value) : Value :=
  (Override.Entry.axis (Text.ofString "standard") (Text.ofString axis) (.array vs)).document

theorem distinctNames_standardDocument {axis : String} {vs : List Value}
    (h : ∀ v ∈ vs, v.DistinctNames) : (standardDocument axis vs).DistinctNames := by
  refine .object (List.nodup_singleton _) (List.forall_mem_singleton.mpr ?_)
  refine .object (List.nodup_singleton _) (List.forall_mem_singleton.mpr ?_)
  exact .object (List.nodup_singleton _) (List.forall_mem_singleton.mpr (.array h))

theorem listing_standardDocument_of_ne {key axis : Text} {s : String} (h : axis ≠ Text.ofString s)
    (vs : List Value) : Override.listing (standardDocument s vs) key axis = none := by
  have hlists : Override.ListsFamilies (standardDocument s vs) _ :=
    Override.listsFamilies_familiesDocument _
  rw [Override.listing_eq hlists, Override.Entry.member, Members.find?_cons]
  split
  · show (Members.find? axis [(Text.ofString s, .array vs)]).bind _ = none
    rw [Members.find?_cons, if_neg h.symm]
    rfl
  · rfl

/-- Readers without skips and readers without counts can be asked for in either order, but the
document for the skips is not taken again. -/
theorem override_after_skips :
    ∃ c₁ c', Catalogue.default.override (standardDocument "skips" [.bool false]) = .ok c₁ ∧
      Catalogue.default.override (standardDocument "counts" [.null]) = .ok c' ∧
      (∃ c₂, c₁.override (standardDocument "counts" [.null]) = .ok c₂ ∧
        c'.override (standardDocument "skips" [.bool false]) = .ok c₂) ∧
      c₁.override (standardDocument "skips" [.bool false]) ≠ .ok c₁ := by
  have hskips : (standardDocument "skips" [.bool false]).DistinctNames :=
    distinctNames_standardDocument (List.forall_mem_singleton.mpr (.bool false))
  have hcounts : (standardDocument "counts" [.null]).DistinctNames :=
    distinctNames_standardDocument (List.forall_mem_singleton.mpr .null)
  have hapart : ∀ name axis,
      Override.listing (standardDocument "skips" [.bool false]) name axis = none ∨
        Override.listing (standardDocument "counts" [.null]) name axis = none := by
    intro name axis
    by_cases haxis : axis = Text.ofString "skips"
    · right
      exact listing_standardDocument_of_ne (by rw [haxis]; decide) _
    · left
      exact listing_standardDocument_of_ne haxis _
  obtain ⟨c₁, h₁⟩ : ∃ c₁, Catalogue.default.override
      (standardDocument "skips" [.bool false]) = .ok c₁ := ⟨_, rfl⟩
  obtain ⟨c', h'⟩ : ∃ c', Catalogue.default.override
      (standardDocument "counts" [.null]) = .ok c' := ⟨_, rfl⟩
  obtain ⟨-, -, ⟨-, hagain⟩, hswap⟩ := override_after (by decide) hskips hcounts h₁
  refine ⟨c₁, c', h₁, h', hswap c' h' hapart, fun h => hagain.mp h ⟨Text.ofString "standard", ?_⟩⟩
  exact ⟨.bool false, rfl⟩

end Catalogue

end BitReaders
