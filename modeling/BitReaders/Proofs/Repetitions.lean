import BitReaders.Proofs.Uniqueness
import Mathlib.Data.List.Nodup

/-!
# Which repetition is reported

The uniqueness check reports a name, not a place. The name is that of the first place in the list
whose name stands at an earlier place, too: the names before it are distinct, and it is one of them.

- `firstRepeatAfter_eq_some_iff`: **the invariant of the search**: what has been read is distinct
  and new, and what is found has been seen or read.
- `Recurs`, `FirstRecurs`: a place whose name stands at an earlier place, and the least such place;
  `firstRecurs_iff`: in terms of the names before it.
- `firstRepeat?_eq_some_iff`: the search finds the name at the least place.
- `FirstClash`: a variant of some families is the first whose class name has occurred, in its own
  family or in one before; `firstRepeat?_classNames_eq_some_iff`: its name is what is found.
- `checkUnique_reports_first`: **what is reported, for names and for families**.
-/

namespace BitReaders

variable {seen names : List String} {n : String} {j : Nat}

/-! ## The search -/

/-- The search stops at a name behind distinct new names that has been seen or is one of these. -/
theorem firstRepeatAfter_eq_some_iff :
    firstRepeatAfter seen names = some n ↔
      ∃ before after, names = before ++ n :: after ∧ (before.Nodup ∧ ∀ m ∈ before, m ∉ seen) ∧
        (n ∈ seen ∨ n ∈ before) := by
  constructor
  · intro h
    induction names generalizing seen with
    | nil => cases h
    | cons m ms ih =>
      rw [firstRepeatAfter] at h
      by_cases hm : m ∈ seen
      · rw [if_pos hm] at h
        cases h
        exact ⟨[], ms, rfl, ⟨List.nodup_nil, List.forall_mem_nil _⟩, .inl hm⟩
      · -- The name goes from those that are left to those that have been seen.
        rw [if_neg hm] at h
        obtain ⟨before, after, rfl, ⟨hnodup, hnew⟩, hn⟩ := ih h
        have hread : m ∉ before := fun hmem => hnew m hmem List.mem_cons_self
        refine ⟨m :: before, after, rfl, ⟨List.nodup_cons.mpr ⟨hread, hnodup⟩, ?_⟩, ?_⟩
        · exact List.forall_mem_cons.mpr
            ⟨hm, fun k hk hseen => hnew k hk (List.mem_cons_of_mem m hseen)⟩
        · rcases hn with hseen | hread
          · rcases List.mem_cons.mp hseen with rfl | hseen
            · exact .inr List.mem_cons_self
            · exact .inl hseen
          · exact .inr (List.mem_cons_of_mem m hread)
  · rintro ⟨before, after, rfl, hnew, hn⟩
    have hfound : n ∈ before.reverse ++ seen :=
      List.mem_append.mpr (hn.symm.imp_left List.mem_reverse.mpr)
    rw [firstRepeatAfter_append, (firstRepeatAfter_eq_none_iff seen before).mpr hnew,
      Option.none_or, firstRepeatAfter, if_pos hfound]

theorem firstRepeat?_eq_some_iff_append :
    firstRepeat? names = some n ↔
      ∃ before after, names = before ++ n :: after ∧ before.Nodup ∧ n ∈ before := by
  simp [firstRepeat?, firstRepeatAfter_eq_some_iff]

/-! ## Places -/

/-- The name `n` stands at the place `j` of a list, and at an earlier one. -/
def Recurs (names : List String) (j : Nat) (n : String) : Prop :=
  names[j]? = some n ∧ ∃ i < j, names[i]? = some n

/-- The name `n` stands at the place `j` of a list and at an earlier one, and `j` is the least place
with a name of which this is true. -/
def FirstRecurs (names : List String) (j : Nat) (n : String) : Prop :=
  Recurs names j n ∧ ∀ k < j, ∀ m, ¬ Recurs names k m

/-- A name stands at one of the first places iff it is one of the first names. -/
theorem exists_lt_getElem?_iff : (∃ i < j, names[i]? = some n) ↔ n ∈ names.take j := by
  rw [List.mem_iff_getElem?]
  refine exists_congr fun i => ?_
  by_cases hi : i < j
  · rw [List.getElem?_take_of_lt hi, and_iff_right hi]
  · rw [List.getElem?_take_eq_none (Nat.le_of_not_lt hi)]
    simp [hi]

/-- No name recurs at one of the first places iff the first names are distinct. -/
theorem forall_not_recurs_iff (hj : j ≤ names.length) :
    (∀ k < j, ∀ m, ¬ Recurs names k m) ↔ (names.take j).Nodup := by
  have hlength : (names.take j).length = j := List.length_take_of_le hj
  rw [List.nodup_iff_getElem?_ne_getElem?, hlength]
  constructor
  · intro h i k hik hk heq
    have hkn : k < names.length := Nat.lt_of_lt_of_le hk hj
    rw [List.getElem?_take_of_lt hk, List.getElem?_take_of_lt (Nat.lt_trans hik hk)] at heq
    exact h k hk names[k] ⟨List.getElem?_eq_getElem hkn, i, hik,
      heq.trans (List.getElem?_eq_getElem hkn)⟩
  · rintro h k hk m ⟨hkm, i, hik, him⟩
    refine h i k hik hk ?_
    rw [List.getElem?_take_of_lt hk, List.getElem?_take_of_lt (Nat.lt_trans hik hk), hkm, him]

/-- The first place where a name recurs comes after distinct names of which it has one. -/
theorem firstRecurs_iff :
    FirstRecurs names j n ↔
      names[j]? = some n ∧ n ∈ names.take j ∧ (names.take j).Nodup := by
  rw [FirstRecurs, Recurs, exists_lt_getElem?_iff, and_assoc]
  refine and_congr_right fun hn => and_congr_right fun _ => forall_not_recurs_iff ?_
  exact Nat.le_of_lt (List.getElem?_eq_some_iff.mp hn).1

/-- **The search finds the name at the least place** whose name stands at an earlier place. -/
theorem firstRepeat?_eq_some_iff :
    firstRepeat? names = some n ↔ ∃ j, FirstRecurs names j n := by
  rw [firstRepeat?_eq_some_iff_append]
  constructor
  · rintro ⟨before, after, rfl, hnodup, hn⟩
    refine ⟨before.length, firstRecurs_iff.mpr ⟨?_, ?_, ?_⟩⟩
    · rw [List.getElem?_append_right (Nat.le_refl _), Nat.sub_self, List.getElem?_cons_zero]
    · rwa [List.take_left]
    · rwa [List.take_left]
  · rintro ⟨j, hj⟩
    obtain ⟨hn, hmem, hnodup⟩ := firstRecurs_iff.mp hj
    obtain ⟨hlt, rfl⟩ := List.getElem?_eq_some_iff.mp hn
    refine ⟨names.take j, names.drop (j + 1), ?_, hnodup, hmem⟩
    rw [← List.drop_eq_getElem_cons hlt, List.take_append_drop]

/-- The name that stands at a second place first is found, and not the one that recurs there. -/
example : firstRepeat? ["a", "b", "c", "b", "a"] = some "b" := by decide

/-! ## Families -/

/-- Where an element stands in the results of a loop: in one round, behind those of the rounds
before it. -/
theorem exists_of_flatMap_eq_append_cons {α β : Type} {g : α → List β} {l : List α} {b : β}
    {before after : List β} (h : l.flatMap g = before ++ b :: after) :
    ∃ l₁ a l₂ bs cs, l = l₁ ++ a :: l₂ ∧ g a = bs ++ b :: cs ∧ before = l₁.flatMap g ++ bs := by
  induction l generalizing before with
  | nil => simp at h
  | cons a l ih =>
    rw [List.flatMap_cons] at h
    rcases List.append_eq_append_iff.mp h with ⟨ds, rfl, hds⟩ | ⟨ds, hds, hrest⟩
    · -- The element is in a later round.
      obtain ⟨l₁, c, l₂, bs, cs, rfl, hc, rfl⟩ := ih hds
      exact ⟨a :: l₁, c, l₂, bs, cs, rfl, hc, by rw [List.flatMap_cons, List.append_assoc]⟩
    · cases ds with
      | nil =>
        -- The first round ends just before the element.
        have hnil : l.flatMap g = [] ++ b :: after := hrest.symm
        obtain ⟨l₁, c, l₂, bs, cs, rfl, hc, hbefore⟩ := ih hnil
        rw [List.append_nil] at hds
        refine ⟨a :: l₁, c, l₂, bs, cs, rfl, hc, ?_⟩
        rw [List.flatMap_cons, List.append_assoc, ← hbefore, List.append_nil, hds]
      | cons d ds =>
        obtain ⟨rfl, -⟩ := List.cons.inj hrest
        exact ⟨[], a, l, before, ds, rfl, hds, rfl⟩

/-- The variant `v` of some families is the first, in the order of the enumeration, whose class name
has occurred before: in the same family, or in one before it. -/
def FirstClash (fs : List Family) (v : Variant) : Prop :=
  ∃ before f after vs rest, fs = before ++ f :: after ∧ f.variants = vs ++ v :: rest ∧
    ((before.flatMap Family.variants ++ vs).map Variant.className).Nodup ∧
    ((∃ w ∈ vs, w.className = v.className) ∨
      ∃ g ∈ before, ∃ w ∈ g.variants, w.className = v.className)

/-- A name is that of a variant in a family or in one before it. -/
theorem mem_classNames_append_iff {fs : List Family} {vs : List Variant} :
    n ∈ (fs.flatMap Family.variants ++ vs).map Variant.className ↔
      (∃ w ∈ vs, w.className = n) ∨ ∃ g ∈ fs, ∃ w ∈ g.variants, w.className = n := by
  rw [List.map_append, List.mem_append, or_comm, List.mem_map, List.mem_map]
  simp only [List.mem_flatMap]
  refine or_congr_right ⟨?_, ?_⟩
  · rintro ⟨w, ⟨g, hg, hw⟩, hname⟩
    exact ⟨g, hg, w, hw, hname⟩
  · rintro ⟨g, hg, w, hw, hname⟩
    exact ⟨w, ⟨g, hg, hw⟩, hname⟩

/-- The class name that is found for some families is that of the first variant in a clash. -/
theorem firstRepeat?_classNames_eq_some_iff {fs : List Family} :
    firstRepeat? ((fs.flatMap Family.variants).map Variant.className) = some n ↔
      ∃ v, FirstClash fs v ∧ v.className = n := by
  rw [firstRepeat?_eq_some_iff_append]
  constructor
  · rintro ⟨names, names', hsplit, hnodup, hn⟩
    obtain ⟨us, us', hus, rfl, hrest⟩ := List.map_eq_append_iff.mp hsplit
    obtain ⟨v, ws, rfl, rfl, -⟩ := List.map_eq_cons_iff.mp hrest
    obtain ⟨before, f, after, vs, rest, rfl, hf, rfl⟩ := exists_of_flatMap_eq_append_cons hus
    exact ⟨v, ⟨before, f, after, vs, rest, rfl, hf, hnodup, mem_classNames_append_iff.mp hn⟩, rfl⟩
  · rintro ⟨v, ⟨before, f, after, vs, rest, rfl, hf, hnodup, hn⟩, rfl⟩
    refine ⟨_, (rest ++ after.flatMap Family.variants).map Variant.className, ?_, hnodup,
      mem_classNames_append_iff.mpr hn⟩
    rw [List.flatMap_append, List.flatMap_cons, hf]
    simp

/-! ## The law -/

/-- **What is reported, for names and for families.** The check passes iff the names are distinct.
Otherwise it reports, under its label, the name at the least place whose name stands at an earlier
one. The variants of some families are refused for the class name of the first one, in the order of
the enumeration, whose class name has occurred, in the same family or in one before it. -/
theorem checkUnique_reports_first (names : List String) (what : String) (fs : List Family) :
    (checkUnique names what = .ok () ↔ names.Nodup) ∧
    (∀ r, checkUnique names what = .error r ↔ ∃ j n, FirstRecurs names j n ∧ r = ⟨what, n⟩) ∧
    (∀ n, Repetition.message ⟨what, n⟩ = "Duplicate " ++ what ++ ": " ++ n) ∧
    ((∃ vs, allVariants fs = .ok vs) ↔
      ((fs.flatMap Family.variants).map Variant.className).Nodup) ∧
    ∀ r, allVariants fs = .error r ↔
      ∃ v, FirstClash fs v ∧ r = ⟨classNameLabel, v.className⟩ := by
  refine ⟨checkUnique_eq_ok_iff what, fun r => ?_, fun n => rfl, ?_, fun r => ?_⟩
  · rw [checkUnique_eq_error_iff]
    simp only [firstRepeat?_eq_some_iff]
    constructor
    · rintro ⟨n, ⟨j, hj⟩, rfl⟩
      exact ⟨j, n, hj, rfl⟩
    · rintro ⟨j, n, hj, rfl⟩
      exact ⟨n, ⟨j, hj⟩, rfl⟩
  · simp only [allVariants_eq_ok_iff]
    exact ⟨fun ⟨_, hnodup, _⟩ => hnodup, fun hnodup => ⟨_, hnodup, rfl⟩⟩
  · rw [allVariants_eq_error_iff]
    simp only [firstRepeat?_classNames_eq_some_iff]
    constructor
    · rintro ⟨_, ⟨v, hv, rfl⟩, rfl⟩
      exact ⟨v, hv, rfl⟩
    · rintro ⟨v, hv, rfl⟩
      exact ⟨_, ⟨v, hv, rfl⟩, rfl⟩

end BitReaders
