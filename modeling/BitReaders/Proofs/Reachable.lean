import BitReaders.Proofs.Overrides

/-!
# Catalogues that documents lead to

- `Family.brand`: what no document changes in a family: its name, its suffix, and whether it has
  payload readers.
- `Catalogue.brands`: the keys of a catalogue with the brands under them; `override_brands`: one
  document leaves them.
- `Catalogue.Reachable`: the catalogues that documents lead to from the default one;
  `Reachable.brands_eq`: **all of them have the keys and brands of the default one**.
-/

namespace BitReaders

open Json (Value Members)

/-- The suffixes of the default families, in order. -/
def defaultSuffixes : List String :=
  ["BitStreamIndexReader", "BitStreamHPIndexReader"]

/-- What no document changes in a family. -/
def Family.brand (f : Family) : String × String × Bool :=
  (f.name, f.suffix, f.payloads)

namespace Override

theorem Change.apply_brand (f : Family) (c : Change) : (c.apply f).brand = f.brand := by
  obtain ⟨hname, hsuffix, hpayloads⟩ := Change.apply_fixed f c
  rw [Family.brand, hname, hsuffix, hpayloads]
  rfl

/-- An object for a family leaves its brand. -/
theorem family_brand {f g : Family} {name : Text} {v : Value} (h : family f name v = .ok g) :
    g.brand = f.brand := by
  obtain ⟨-, cs, -, -, rfl⟩ := family_eq_ok_iff.mp h
  clear h
  induction cs generalizing f with
  | nil => rfl
  | cons c cs ih => rw [List.foldl_cons, ih, Change.apply_brand]

end Override

namespace Catalogue

/-- The keys of a catalogue, each with the brand of the family under it. -/
def brands (c : Catalogue) : List (String × String × String × Bool) :=
  c.map fun e => (e.1, e.2.brand)

/-- Replacing a family by one of the same brand leaves the brands. -/
theorem brands_set {c : Catalogue} (hkeys : (c.map (·.1)).Nodup) {name : Text} {f g : Family}
    (hfind : c.find? name = some f) (hbrand : g.brand = f.brand) :
    (c.set name g).brands = c.brands := by
  rw [brands, brands, set, List.map_map]
  refine List.map_congr_left fun e he => ?_
  by_cases hname : Text.ofString e.1 = name
  · subst hname
    have hf : e.2 = f := eq_of_find?_eq_some hkeys he hfind
    simp [hbrand, hf]
  · simp [hname]

/-- The objects of a document leave the brands. -/
theorem families_brands {fs : Members} {c c' : Catalogue} (hkeys : (c.map (·.1)).Nodup)
    (h : Override.families c fs = .ok c') : c'.brands = c.brands := by
  induction fs generalizing c with
  | nil =>
    cases h
    rfl
  | cons m fs ih =>
    obtain ⟨name, v⟩ := m
    obtain ⟨f, g, hf, hg, hc'⟩ := Override.families_cons_eq_ok_iff.mp h
    rw [ih ((map_fst_set c name g).symm ▸ hkeys) hc',
      brands_set hkeys hf (Override.family_brand hg)]

/-- **One document leaves the brands**, whatever it changes. -/
theorem override_brands {c c' : Catalogue} (hkeys : (c.map (·.1)).Nodup) {document : Value}
    (h : c.override document = .ok c') : c'.brands = c.brands := by
  obtain ⟨fs, -, hc'⟩ := override_eq_ok_iff.mp h
  exact families_brands hkeys hc'

/-- The catalogues that documents lead to from the default one. -/
inductive Reachable : Catalogue → Prop where
  | default : Reachable Catalogue.default
  | override {c c' : Catalogue} {document : Value} (reachable : Reachable c)
    (step : c.override document = .ok c') : Reachable c'

theorem map_fst_eq_of_brands_eq {c c' : Catalogue} (h : c.brands = c'.brands) :
    c.map (·.1) = c'.map (·.1) := by
  have hkeys := congrArg (List.map (·.1)) h
  rw [brands, brands, List.map_map, List.map_map] at hkeys
  exact hkeys

/-- **The keys and brands are those of the default catalogue**, after any number of documents. -/
theorem Reachable.brands_eq {c : Catalogue} (h : c.Reachable) :
    c.brands = Catalogue.default.brands := by
  induction h with
  | default => rfl
  | override _ hstep ih =>
    have hkeys := map_fst_eq_of_brands_eq ih
    rw [← ih]
    refine override_brands ?_ hstep
    rw [hkeys]
    decide

/-- The suffixes are those of the default families, in their order. -/
theorem Reachable.map_suffix_eq {c : Catalogue} (h : c.Reachable) :
    c.families.map Family.suffix = defaultSuffixes := by
  have hsuffixes := congrArg (List.map fun b => b.2.2.1) h.brands_eq
  rw [brands, List.map_map] at hsuffixes
  rw [families, List.map_map]
  exact hsuffixes

end Catalogue

end BitReaders
