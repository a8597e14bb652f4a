import BitReaders.Proofs.Enumeration
import Mathlib.Data.List.ProdSigma

/-!
# The variants of a family and their macros

What the nested loops of a family give, apart from multiplicities.

- `Family.scheme_mem_schemes`: the schemes of a variant are offered on their axes.
- `Family.length_variants`: how many variants there are; `length_pairs_of_stored`: no pair is left
  out if every quantity is stored.
- `Family.filter_isPayload_variants`: the payload variants, one for each choice of skips,
  frequencies and pointers, in order.
- `Variant.skip_prefix_className_iff`: which class names start with `Skip`.
- `Variant.mem_macros_iff`: the macros of a variant; `hasSkips_of_mem_macros`,
  `isPayload_of_mem_macros`, `value_of_mem_macros`: what a macro says about the variant, by its
  name.
-/

namespace BitReaders

theorem Scheme.eq_none_of_name_eq {s : Scheme} (h : s.name = "NONE") : s = .none := by
  cases s <;> simp_all [Scheme.name]

/-! ## Lengths of loops -/

theorem length_flatMap_of_const {α β : Type} {g : α → List β} {n : Nat}
    (h : ∀ a, (g a).length = n) (l : List α) : (l.flatMap g).length = l.length * n := by
  simp [List.length_flatMap, h]

namespace Family

/-! ## Choices -/

/-- An ending is an allowed pair, or that of the payload variant. -/
theorem mem_endings_iff {f : Family} {e : Scheme × Scheme × Bool} :
    e ∈ f.endings ↔
      (e.2.2 = false ∧ e.1 ∈ f.counts ∧ e.2.1 ∈ f.positions ∧ e.1.allowed e.2.1 = true) ∨
      (f.payloads = true ∧ e = (.none, .none, true)) := by
  obtain ⟨c, t, b⟩ := e
  rw [endings, List.mem_append]
  refine or_congr ?_ ?_
  · simp only [pairs, List.mem_map, List.mem_flatMap, List.mem_filter]
    constructor
    · rintro ⟨-, ⟨c', hc, t', ⟨ht, hallowed⟩, rfl⟩, heq⟩
      cases heq
      exact ⟨rfl, hc, ht, hallowed⟩
    · rintro ⟨rfl, hc, ht, hallowed⟩
      exact ⟨(c, t), ⟨c, hc, t, ⟨ht, hallowed⟩, rfl⟩, rfl⟩
  · cases f.payloads <;> simp

variable {f : Family} {v : Variant}

/-- A variant with skips or without is listed if the family offers it. -/
theorem hasSkips_mem_skips (hv : v ∈ f.variants) : v.hasSkips ∈ f.skips := by
  obtain rfl : v.family = f := family_of_mem_variants hv
  exact ((mem_variants_iff v).mp hv).1

/-- Only a family with payload readers lists payload variants. -/
theorem payloads_of_isPayload (hv : v ∈ f.variants) (h : v.isPayload = true) :
    f.payloads = true := by
  obtain rfl : v.family = f := family_of_mem_variants hv
  obtain ⟨-, -, -, hending⟩ := (mem_variants_iff v).mp hv
  rcases mem_endings_iff.mp hending with ⟨hfalse, -⟩ | ⟨hpayloads, -⟩
  · have hpay : v.isPayload = false := hfalse
    rw [h] at hpay
    cases hpay
  · exact hpayloads

/-- The schemes of a variant that is no payload variant are offered on their axes. -/
theorem scheme_mem_schemes (hv : v ∈ f.variants) (h : v.isPayload = false) (a : Axis) :
    v.scheme a ∈ f.schemes a := by
  obtain rfl : v.family = f := family_of_mem_variants hv
  obtain ⟨-, hq, hp, hending⟩ := (mem_variants_iff v).mp hv
  have hpair : v.counts ∈ v.family.counts ∧ v.positions ∈ v.family.positions := by
    rcases mem_endings_iff.mp hending with ⟨-, hc, ht, -⟩ | ⟨-, heq⟩
    · exact ⟨hc, ht⟩
    · have hpay : v.isPayload = true := congrArg (·.2.2) heq
      rw [h] at hpay
      cases hpay
  cases a with
  | frequencies => exact hq
  | pointers => exact hp
  | counts => exact hpair.1
  | positions => exact hpair.2

/-! ## Numbers -/

/-- Every block has as many variants. -/
theorem length_block (f : Family) (s : Bool) (q p : Scheme) :
    (f.block s q p).length = f.pairs.length + if f.payloads then 1 else 0 := by
  rw [block, List.length_append, List.length_map]
  cases f.payloads <;> rfl

/-- **The number of variants** is a product of lengths. -/
theorem length_variants (f : Family) :
    f.variants.length = f.skips.length * (f.frequencies.length * (f.pointers.length *
      (f.pairs.length + if f.payloads then 1 else 0))) := by
  refine length_flatMap_of_const (fun s => ?_) f.skips
  refine length_flatMap_of_const (fun q => ?_) f.frequencies
  exact length_flatMap_of_const (fun p => length_block f s q p) f.pointers

/-- No pair is left out if counts are always stored. -/
theorem length_pairs_of_stored (h : Scheme.none ∉ f.counts) :
    f.pairs.length = f.counts.length * f.positions.length := by
  have hpairs : f.pairs = f.counts.flatMap fun c => f.positions.map fun t => (c, t) := by
    refine List.flatMap_congr fun c hc => ?_
    have hne : c ≠ .none := ne_of_mem_of_not_mem hc h
    rw [List.filter_eq_self.mpr fun t _ => by simp [Scheme.allowed, hne]]
  rw [hpairs]
  exact length_flatMap_of_const (fun c => List.length_map ..) f.counts

/-! ## Payload variants -/

/-- The payload variant with some choices. -/
def payloadVariant (f : Family) (t : Bool × Scheme × Scheme) : Variant :=
  ⟨f, t.1, t.2.1, t.2.2, .none, .none, true⟩

/-- A block has one payload variant. -/
theorem filter_isPayload_block (h : f.payloads = true) (s : Bool) (q p : Scheme) :
    (f.block s q p).filter (·.isPayload) = [f.payloadVariant (s, q, p)] := by
  rw [block, if_pos h, List.filter_append, List.filter_map]
  have hnone : f.pairs.filter ((·.isPayload) ∘
      fun e => (⟨f, s, q, p, e.1, e.2, false⟩ : Variant)) = [] :=
    List.filter_eq_nil_iff.mpr fun _ _ => Bool.false_ne_true
  rw [hnone]
  rfl

/-- **The payload variants** of a family that has some: one for each choice of skips, frequencies
and pointers, in their order. -/
theorem filter_isPayload_variants (h : f.payloads = true) :
    f.variants.filter (·.isPayload) =
      (f.skips ×ˢ f.frequencies ×ˢ f.pointers).map f.payloadVariant := by
  have hproduct : ∀ {α β : Type} (l : List α) (u : List β),
      l ×ˢ u = l.flatMap fun a => u.map fun b => (a, b) := fun _ _ => rfl
  rw [variants, List.filter_flatMap, hproduct, List.map_flatMap]
  refine List.flatMap_congr fun s _ => ?_
  rw [List.filter_flatMap, List.map_map, hproduct, List.map_flatMap]
  refine List.flatMap_congr fun q _ => ?_
  rw [List.filter_flatMap, List.map_map]
  simp only [filter_isPayload_block h]
  exact (List.map_eq_flatMap ..).symm

end Family

namespace Variant

/-! ## Class names -/

/-- The class names with skips are those that start with the word for them: no name of a scheme
begins as that word does. -/
theorem skip_prefix_className_iff (v : Variant) :
    "Skip".toList <+: v.className.toList ↔ v.hasSkips = true := by
  constructor
  · intro h
    cases hskips : v.hasSkips with
    | true => rfl
    | false =>
      have hname : v.className.toList =
          (NameWord.scheme v.frequencies).text.toList ++ (v.pointers.capitalized ++
            (if v.isPayload then "Payload" else v.counts.capitalized ++ v.positions.capitalized) ++
            v.family.suffix).toList := by
        simp [className, hskips, NameWord.text, String.append_assoc]
      have hfolded : NameWord.skip.folded <+: v.className.toList.map Char.toLower := h.map _
      rw [hname, List.map_append] at hfolded
      -- The first words of both are the same word: that for skips, and that of a scheme.
      obtain ⟨t, ht⟩ := hfolded
      cases (NameWord.folded_prefixFree.head_unique ht).1
  · intro h
    rw [className, if_pos h]
    simp only [String.toList_append, List.append_assoc]
    exact List.prefix_append ..

/-! ## Macros -/

theorem axisName_eq_iff {a b : Axis} : a.name = b.name ↔ a = b := by
  cases a <;> cases b <;> decide

/-- The macros of a variant: those for skips and payloads if it has them, an assertion for each
axis, and the definition of the class name. -/
theorem mem_macros_iff {v : Variant} {m : Macro} :
    m ∈ v.macros ↔ (v.hasSkips = true ∧ m = .present "SKIPS") ∨
      (∃ a : Axis, m = .assertion a.name (v.scheme a).name) ∨
      m = .define "CLASSNAME" v.className ∨ (v.isPayload = true ∧ m = .present "PAYLOADS") := by
  have haxes : ∀ a : Axis, a ∈ Axis.all := by
    intro a
    cases a <;> decide
  rw [macros]
  cases v.hasSkips <;> cases v.isPayload <;> simp [haxes, eq_comm]

/-- The names of the macros for axes are their own. -/
theorem axisName_not_mem (a : Axis) : a.name ∉ ["SKIPS", "CLASSNAME", "PAYLOADS"] := by
  cases a <;> decide

variable {v : Variant} {m : Macro}

/-- The macro for skips is set only for a variant with skips. -/
theorem hasSkips_of_mem_macros (hm : m ∈ v.macros) (h : m.name = "SKIPS") : v.hasSkips = true := by
  rcases mem_macros_iff.mp hm with ⟨hskips, -⟩ | ⟨a, rfl⟩ | rfl | ⟨-, rfl⟩
  · exact hskips
  · have haxis : a.name = "SKIPS" := h
    exact absurd (by simp [haxis]) (axisName_not_mem a)
  · exact absurd (show "CLASSNAME" = "SKIPS" from h) (by decide)
  · exact absurd (show "PAYLOADS" = "SKIPS" from h) (by decide)

/-- The macro for payloads is set only for a payload variant. -/
theorem isPayload_of_mem_macros (hm : m ∈ v.macros) (h : m.name = "PAYLOADS") :
    v.isPayload = true := by
  rcases mem_macros_iff.mp hm with ⟨-, rfl⟩ | ⟨a, rfl⟩ | rfl | ⟨hpay, -⟩
  · exact absurd (show "SKIPS" = "PAYLOADS" from h) (by decide)
  · have haxis : a.name = "PAYLOADS" := h
    exact absurd (by simp [haxis]) (axisName_not_mem a)
  · exact absurd (show "CLASSNAME" = "PAYLOADS" from h) (by decide)
  · exact hpay

/-- The macro for an axis has the name of the scheme on it. -/
theorem value_of_mem_macros (hm : m ∈ v.macros) {a : Axis} (h : m.name = a.name) :
    m.value = some (v.scheme a).name := by
  have hother : m.name ∉ ["SKIPS", "CLASSNAME", "PAYLOADS"] := h ▸ axisName_not_mem a
  rcases mem_macros_iff.mp hm with ⟨-, rfl⟩ | ⟨b, rfl⟩ | rfl | ⟨-, rfl⟩
  · exact absurd (by simp [Macro.present]) hother
  · rw [axisName_eq_iff.mp (show b.name = a.name from h)]
    rfl
  · exact absurd (by simp [Macro.define]) hother
  · exact absurd (by simp [Macro.present]) hother

end Variant

end BitReaders
