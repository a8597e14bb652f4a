import BitReaders.Proofs.Reachable
import BitReaders.Proofs.Variants
import BitReaders.Reader.Session

/-!
# What a session keeps

Documents may come in any number, and some of them may be refused. What they can make of a family
is a preorder, so one step of a session says as much as many.

- `Family.Stocked`: every axis offers something and, without payload readers, every quantity is
  stored.
- `Family.Descends`: what documents can make of a family. The guard on the skip axis looks at the
  family as it is by then: a family that comes only with skips, or only without, stays that way.
- `Override.family_descends`, `Catalogue.override_descends`: one object, one document.
- `Session.state`: the catalogue after some steps, on which the replies to further steps depend
  (`run_append`); `state_descends`: every session keeps to the preorder.
- `Session.exists_state_default_eq`: **what the two default families are after any session**.
-/

namespace BitReaders

open Json (Value Members)

/-! ## One family -/

namespace Family

/-- Every axis offers something, and without payload readers every quantity is stored. -/
structure Stocked (f : Family) : Prop where
  skips : f.skips ≠ []
  schemes : ∀ a, f.schemes a ≠ []
  stored : f.payloads = false → ∀ a, .none ∉ f.schemes a

/-- What documents can make of a family. -/
structure Descends (f g : Family) : Prop where
  brand : g.brand = f.brand
  stocked : f.Stocked → g.Stocked
  skips : f.skips.length < 2 → g.skips = f.skips

theorem Descends.refl (f : Family) : f.Descends f :=
  ⟨rfl, id, fun _ => rfl⟩

theorem Descends.trans {f g h : Family} (hfg : f.Descends g) (hgh : g.Descends h) :
    f.Descends h := by
  refine ⟨hgh.brand.trans hfg.brand, hgh.stocked ∘ hfg.stocked, fun hlen => ?_⟩
  have hskips : g.skips = f.skips := hfg.skips hlen
  rw [hgh.skips (hskips ▸ hlen), hskips]

theorem Descends.payloads {f g : Family} (h : f.Descends g) : g.payloads = f.payloads :=
  congrArg (·.2.2) h.brand

end Family

namespace Override

/-- A list of values that names schemes names some if it has items. -/
theorem ne_nil_of_named {vs : List Value} {ss : List Scheme} (hne : vs ≠ [])
    (hnamed : vs.map Value.scheme? = ss.map some) : ss ≠ [] := by
  rintro rfl
  exact hne (List.map_eq_nil_iff.mp hnamed)

/-- A change for one axis leaves the schemes of the others. -/
theorem schemes_apply_eq_or (g : Family) (c : Change) (a : Axis) :
    (c.apply g).schemes a = g.schemes a ∨
      ∃ ss, c = .schemes a ss ∧ (c.apply g).schemes a = ss := by
  cases c with
  | skips bs =>
    left
    cases a <;> rfl
  | schemes b ss =>
    by_cases hab : a = b
    · subst hab
      exact .inr ⟨ss, rfl, Family.schemes_setSchemes_self g a ss⟩
    · exact .inl (Family.schemes_setSchemes_of_ne hab g ss)

/-- A change that a family takes keeps a family with the same readers stocked. -/
theorem Asks.stocked {f g : Family} {axis : Text} {v : Value} {c : Change} (h : Asks f axis v c)
    (hpay : g.payloads = f.payloads) (hg : g.Stocked) : (c.apply g).Stocked := by
  refine ⟨?_, fun a => ?_, fun hafter a => ?_⟩
  · cases h with
    | skips bs nonempty hasAxis => exact nonempty
    | schemes b vs ss => cases b <;> exact hg.skips
  · rcases schemes_apply_eq_or g c a with heq | ⟨ss, rfl, heq⟩
    · rw [heq]
      exact hg.schemes a
    · cases h with
      | schemes _ vs _ nonempty named stored =>
        rw [heq]
        exact ne_nil_of_named nonempty named
  · have hnone : g.payloads = false := (Change.apply_fixed g c).2.2.symm.trans hafter
    rcases schemes_apply_eq_or g c a with heq | ⟨ss, rfl, heq⟩
    · rw [heq]
      exact hg.stored hnone a
    · cases h with
      | schemes _ vs _ nonempty named stored =>
        rw [heq]
        intro hmem
        rw [hpay, stored hmem] at hnone
        cases hnone

/-- A change that a family takes does to what it has become what documents can do: the change was
checked against the family as it was, whatever the changes before it have made. -/
theorem Asks.descends {f g : Family} {axis : Text} {v : Value} {c : Change}
    (h : Asks f axis v c) (hg : f.Descends g) : f.Descends (c.apply g) := by
  refine ⟨(Change.apply_brand g c).trans hg.brand, fun hf => h.stocked hg.payloads (hg.stocked hf),
    fun hlen => ?_⟩
  cases h with
  | skips bs nonempty hasAxis => omega
  | schemes b vs ss => cases b <;> exact hg.skips hlen

/-- An object for a family makes of it what documents can. -/
theorem family_descends {f g : Family} {name : Text} {v : Value} (h : family f name v = .ok g) :
    f.Descends g := by
  obtain ⟨axes, cs, -, hasks, rfl⟩ := family_eq_ok_iff.mp h
  -- The changes are checked against `f` and made on what the ones before have made of it.
  have hfold : ∀ g, f.Descends g → f.Descends (cs.foldl Change.apply g) := by
    clear h
    induction hasks with
    | nil => exact fun g hg => hg
    | cons hc _ ih => exact fun g hg => ih _ (hc.descends hg)
  exact hfold f (.refl f)

end Override

/-! ## One document -/

namespace Catalogue

/-- An entry under its key becomes what documents can make of it. -/
def EntryDescends (e e' : String × Family) : Prop :=
  e'.1 = e.1 ∧ e.2.Descends e'.2

theorem EntryDescends.trans {e e' e'' : String × Family} (h : EntryDescends e e')
    (h' : EntryDescends e' e'') : EntryDescends e e'' :=
  ⟨h'.1.trans h.1, h.2.trans h'.2⟩

theorem forall₂_entryDescends_refl (c : Catalogue) : List.Forall₂ EntryDescends c c :=
  List.forall₂_same.mpr fun e _ => ⟨rfl, .refl e.2⟩

theorem forall₂_entryDescends_trans {c c' c'' : Catalogue} (h : List.Forall₂ EntryDescends c c')
    (h' : List.Forall₂ EntryDescends c' c'') : List.Forall₂ EntryDescends c c'' :=
  Override.forall₂_comp h h' fun _ _ _ => EntryDescends.trans

theorem map_fst_eq_of_descends {c c' : Catalogue} (h : List.Forall₂ EntryDescends c c') :
    c'.map (·.1) = c.map (·.1) :=
  map_fst_eq_of_forall₂ (fun _ _ he => he.1) h

/-- Replacing a family by what documents can make of it. -/
theorem set_descends {c : Catalogue} (hkeys : (c.map (·.1)).Nodup) {name : Text} {f g : Family}
    (hfind : c.find? name = some f) (hg : f.Descends g) :
    List.Forall₂ EntryDescends c (c.set name g) := by
  rw [set, List.forall₂_map_right_iff]
  refine List.forall₂_same.mpr fun e he => ?_
  by_cases hname : Text.ofString e.1 = name
  · subst hname
    rw [if_pos (beq_self_eq_true _)]
    exact ⟨rfl, eq_of_find?_eq_some hkeys he hfind ▸ hg⟩
  · rw [if_neg (mt beq_iff_eq.mp hname)]
    exact ⟨rfl, .refl e.2⟩

/-- The objects of a document, by induction on them: each is for a family as the ones before have
left it. -/
theorem families_descend {fs : Members} {c c' : Catalogue} (hkeys : (c.map (·.1)).Nodup)
    (h : Override.families c fs = .ok c') : List.Forall₂ EntryDescends c c' := by
  induction fs generalizing c with
  | nil =>
    cases h
    exact forall₂_entryDescends_refl _
  | cons m fs ih =>
    obtain ⟨name, v⟩ := m
    obtain ⟨f, g, hf, hg, hc'⟩ := Override.families_cons_eq_ok_iff.mp h
    have hset := set_descends hkeys hf (Override.family_descends hg)
    exact forall₂_entryDescends_trans hset (ih ((map_fst_set c name g).symm ▸ hkeys) hc')

/-- **One document** makes of every family what documents can. -/
theorem override_descends {c c' : Catalogue} (hkeys : (c.map (·.1)).Nodup) {document : Value}
    (h : c.override document = .ok c') : List.Forall₂ EntryDescends c c' := by
  obtain ⟨fs, -, hc'⟩ := override_eq_ok_iff.mp h
  exact families_descend hkeys hc'

end Catalogue

/-! ## Sessions -/

namespace Session

/-- The catalogue after the steps of a session. -/
def state (c : Catalogue) (steps : List Step) : Catalogue :=
  steps.foldl (fun c s => (next c s).2) c

theorem state_append (c : Catalogue) (ss ts : List Step) :
    state c (ss ++ ts) = state (state c ss) ts :=
  List.foldl_append

/-- The replies to further steps are those of a session that starts where the first steps end. -/
theorem run_append (c : Catalogue) (ss ts : List Step) :
    run c (ss ++ ts) = run c ss ++ run (state c ss) ts := by
  induction ss generalizing c with
  | nil => rfl
  | cons s ss ih =>
    show (next c s).1 :: run (next c s).2 (ss ++ ts) = _
    rw [ih]
    rfl

/-- A refused document leaves the catalogue. -/
theorem next_apply_of_error {c : Catalogue} {document : Value} {e : Override.Error}
    (h : c.override document = .error e) (source : String) :
    (next c (.apply document source)).2 = c := by
  rw [next, h]

/-- One step makes of every family what documents can: a document that is taken, by what it says,
and anything else by leaving the catalogue. -/
theorem next_descends {c : Catalogue} (hkeys : (c.map (·.1)).Nodup) (s : Step) :
    List.Forall₂ Catalogue.EntryDescends c (next c s).2 := by
  cases s with
  | apply document source =>
    cases h : c.override document with
    | ok c' =>
      rw [next, h]
      exact Catalogue.override_descends hkeys h
    | error e =>
      rw [next_apply_of_error h]
      exact Catalogue.forall₂_entryDescends_refl c
  | classes names => exact Catalogue.forall₂_entryDescends_refl c
  | render names => exact Catalogue.forall₂_entryDescends_refl c
  | summary names => exact Catalogue.forall₂_entryDescends_refl c

/-- **A whole session** makes of every family what documents can. -/
theorem state_descends {c : Catalogue} (hkeys : (c.map (·.1)).Nodup) (steps : List Step) :
    List.Forall₂ Catalogue.EntryDescends c (state c steps) := by
  induction steps generalizing c with
  | nil => exact Catalogue.forall₂_entryDescends_refl c
  | cons s steps ih =>
    have hstep := next_descends hkeys s
    refine Catalogue.forall₂_entryDescends_trans hstep (ih ?_)
    rw [Catalogue.map_fst_eq_of_descends hstep]
    exact hkeys

/-- A catalogue of two families stays one, with each under its key. -/
theorem exists_state_pair_eq (f g : Family) {k l : String} (hne : k ≠ l) (steps : List Step) :
    ∃ f' g', state [(k, f), (l, g)] steps = [(k, f'), (l, g')] ∧ f.Descends f' ∧ g.Descends g' := by
  have hkeys : ([(k, f), (l, g)].map (·.1)).Nodup := by simpa using hne
  obtain ⟨⟨k', f'⟩, es, ⟨hk, hf⟩, hes, hstate⟩ :=
    List.forall₂_cons_left_iff.mp (state_descends hkeys steps)
  obtain ⟨⟨l', g'⟩, es', ⟨hl, hg⟩, hnil, rfl⟩ := List.forall₂_cons_left_iff.mp hes
  obtain rfl := List.forall₂_nil_left_iff.mp hnil
  obtain rfl : k' = k := hk
  obtain rfl : l' = l := hl
  exact ⟨f', g', hstate, hf, hg⟩

/-! ## The default families -/

theorem stocked_standard : Family.standard.Stocked := by
  refine ⟨by decide, fun a => ?_, nofun⟩
  cases a <;> decide

theorem stocked_highPerformance : Family.highPerformance.Stocked := by
  refine ⟨by decide, fun a => ?_, fun _ a => ?_⟩
  · cases a <;> decide
  · cases a <;> decide

/-- A variant of a family that stores every quantity and comes without skips and payloads says so in
its name and its macros. -/
theorem plain_of_mem_variants {f : Family} (hpay : f.payloads = false) (hskips : f.skips = [false])
    (hstored : ∀ a, .none ∉ f.schemes a) {v : Variant} (hv : v ∈ f.variants) :
    v.isPayload = false ∧ ¬ "Skip".toList <+: v.className.toList ∧
      ∀ m ∈ v.macros, m.name ≠ "SKIPS" ∧ m.name ≠ "PAYLOADS" ∧
        ∀ a : Axis, m.name = a.name → m.value ≠ some "NONE" := by
  have hpayload : v.isPayload = false := by
    refine Bool.eq_false_iff.mpr fun h => ?_
    have hpayloads := Family.payloads_of_isPayload hv h
    rw [hpay] at hpayloads
    cases hpayloads
  have hnoSkips : v.hasSkips ≠ true := by
    have hmem := Family.hasSkips_mem_skips hv
    rw [hskips] at hmem
    simp [List.mem_singleton.mp hmem]
  refine ⟨hpayload, fun h => hnoSkips ((Variant.skip_prefix_className_iff v).mp h), ?_⟩
  intro m hm
  refine ⟨fun h => hnoSkips (Variant.hasSkips_of_mem_macros hm h), fun h => ?_,
    fun a ha hvalue => ?_⟩
  · rw [Variant.isPayload_of_mem_macros hm h] at hpayload
    cases hpayload
  · rw [Variant.value_of_mem_macros hm ha] at hvalue
    have hscheme := Family.scheme_mem_schemes hv hpayload a
    rw [Scheme.eq_none_of_name_eq (Option.some.inj hvalue)] at hscheme
    exact hstored a hscheme

/-- **What the default families are after any session**, whatever documents it applies and however
many of them are refused. The keys, names, suffixes and payloads are the original ones, and no axis
is empty. The high-performance readers come without skips and store every quantity, so that no
variant of theirs has anything else in its name or its macros, and no combination is left out. The
standard readers have a payload variant for each choice of skips, frequencies and pointers. Once
they come only with skips, or only without, they stay that way. -/
theorem exists_state_default_eq (steps : List Step) :
    ∃ s h : Family,
      state .default steps = [("standard", s), ("high-performance", h)] ∧
      s.brand = Family.standard.brand ∧ h.brand = Family.highPerformance.brand ∧
      (∀ f ∈ [s, h], f.skips ≠ [] ∧ ∀ a, f.schemes a ≠ []) ∧
      (h.skips = [false] ∧ ∀ a, .none ∉ h.schemes a) ∧
      (∀ v ∈ h.variants, v.isPayload = false ∧ ¬ "Skip".toList <+: v.className.toList ∧
        ∀ m ∈ v.macros, m.name ≠ "SKIPS" ∧ m.name ≠ "PAYLOADS" ∧
          ∀ a : Axis, m.name = a.name → m.value ≠ some "NONE") ∧
      h.variants.length =
        h.frequencies.length * h.pointers.length * h.counts.length * h.positions.length ∧
      s.variants.filter (·.isPayload) =
        (s.skips ×ˢ s.frequencies ×ˢ s.pointers).map
          (fun t => ⟨s, t.1, t.2.1, t.2.2, .none, .none, true⟩) ∧
      (∀ document source, (∃ e, (state .default steps).override document = .error e) →
        state .default (steps ++ [.apply document source]) = state .default steps) ∧
      (s.skips.length = 1 → ∀ later, ∃ s' h',
        state .default (steps ++ later) = [("standard", s'), ("high-performance", h')] ∧
          s'.skips = s.skips) := by
  obtain ⟨s, h, hstate, hs, hh⟩ := exists_state_pair_eq Family.standard Family.highPerformance
    (show "standard" ≠ "high-performance" by decide) steps
  have hstandard := hs.stocked stocked_standard
  have hhigh := hh.stocked stocked_highPerformance
  have hskips : h.skips = [false] := hh.skips (by decide)
  have hstored := hhigh.stored hh.payloads
  refine ⟨s, h, hstate, hs.brand, hh.brand, ?_, ⟨hskips, hstored⟩, ?_, ?_, ?_, ?_, ?_⟩
  · intro f hf
    rcases List.mem_pair.mp hf with rfl | rfl
    · exact ⟨hstandard.skips, hstandard.schemes⟩
    · exact ⟨hhigh.skips, hhigh.schemes⟩
  · exact fun v hv => plain_of_mem_variants hh.payloads hskips hstored hv
  · have hnoPayloads : h.payloads = false := hh.payloads
    rw [Family.length_variants, hskips, Family.length_pairs_of_stored (hstored .counts),
      hnoPayloads]
    simp [Nat.mul_assoc]
  · exact Family.filter_isPayload_variants hs.payloads
  · rintro document source ⟨e, he⟩
    rw [state_append]
    exact next_apply_of_error he source
  · -- The guard looks at the family as it is after the first steps.
    intro hlen later
    rw [state_append, show state .default steps = _ from hstate]
    obtain ⟨s', h', hlater, hs', -⟩ := exists_state_pair_eq s h
      (show "standard" ≠ "high-performance" by decide) later
    exact ⟨s', h', hlater, hs'.skips (by omega)⟩

/-- A document that lists the skips of the standard readers. -/
def skipsDocument (bs : List Bool) : Value :=
  .object [(Text.ofString "families", .object
    [(Text.ofString "standard", .object
      [(Text.ofString "skips", .array (bs.map .bool))])])]

/-- Standard readers that have come to be without skips stay so, although a document asks for both
again and another one is no object. -/
theorem exists_state_default_eq_skips :
    ∃ s h s' h' : Family,
      state .default [.apply (skipsDocument [false]) "a"] =
        [("standard", s), ("high-performance", h)] ∧ s.skips.length = 1 ∧
      state .default [.apply (skipsDocument [false]) "a", .apply (skipsDocument [true, false]) "b",
        .apply .null "c"] = [("standard", s'), ("high-performance", h')] ∧ s'.skips = s.skips := by
  obtain ⟨s, h, hstate, -, -, -, -, -, -, -, -, hfixed⟩ :=
    exists_state_default_eq [.apply (skipsDocument [false]) "a"]
  have hone : s.skips.length = 1 := by
    have hcomputed : state .default [.apply (skipsDocument [false]) "a"] =
        [("standard", { Family.standard with skips := [false] }),
          ("high-performance", .highPerformance)] := rfl
    rw [hcomputed] at hstate
    cases hstate
    rfl
  obtain ⟨s', h', hlater, hskips⟩ :=
    hfixed hone [.apply (skipsDocument [true, false]) "b", .apply .null "c"]
  exact ⟨s, h, s', h', hstate, hone, hlater, hskips⟩

end Session

end BitReaders
