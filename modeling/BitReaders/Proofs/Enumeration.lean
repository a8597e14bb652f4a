import BitReaders.Proofs.ClassNames
import BitReaders.Proofs.Uniqueness
import Mathlib.Data.List.Count
import Mathlib.Data.List.Duplicate
import Mathlib.Data.Nat.Basic

/-!
# How often a family lists a variant

The variants of a family come from nested loops, so that their multiplicities are products.

- `count_flatMap_of_key`: multiplicities multiply where every element of a loop's body tells which
  round it is from.
- `Variant.ending`, `Family.endings`: what varies inside a block: counts, positions, and whether it
  is the payload variant. The endings are the same for every block (`block_eq_map_endings`).
- `count_variants`: the multiplicity of a variant is the product of those of its choices;
  `count_variants_eq_ite`: **how often every variant is listed**, if at all.
- `duplicate_variants_iff`, `duplicate_endings_iff`: where a repeated variant comes from.
- `nodup_map_className_iff`: the class names of a family repeat only with its variants.
- `Family.Repeats`: an axis repeats a value that some variant has.
- `allVariants_singleton_eq_error_iff`: **a family is refused exactly for a repetition that shows**
  in its variants.
-/

namespace BitReaders

/-! ## Multiplicities in a loop -/

/-- Multiplicities multiply in a loop whose body, in every round, gives elements that tell the
round. -/
theorem count_flatMap_of_key {α β : Type} [BEq α] [LawfulBEq α] [BEq β] [LawfulBEq β]
    {g : α → List β} (key : β → α) (hkey : ∀ a, ∀ b ∈ g a, key b = a) (l : List α) (b : β) :
    (l.flatMap g).count b = l.count (key b) * (g (key b)).count b := by
  induction l with
  | nil => rw [List.flatMap_nil, List.count_nil, List.count_nil, Nat.zero_mul]
  | cons a l ih =>
    rw [List.flatMap_cons, List.count_append, ih, List.count_cons, Nat.add_mul, Nat.add_comm]
    congr 1
    by_cases ha : a = key b
    · rw [ha, beq_self_eq_true, if_pos rfl, Nat.one_mul]
    · have hnot : b ∉ g a := fun hb => ha (hkey a b hb).symm
      rw [beq_false_of_ne ha, List.count_eq_zero.mpr hnot]
      exact (Nat.zero_mul _).symm

theorem duplicate_iff_one_lt_count {α : Type} [BEq α] [LawfulBEq α] {a : α} {l : List α} :
    List.Duplicate a l ↔ 1 < l.count a := by
  rw [List.duplicate_iff_sublist]
  exact List.replicate_sublist_iff (n := 2)

theorem Scheme.allowed_iff {c t : Scheme} : c.allowed t = true ↔ t = .none ∨ c ≠ .none := by
  simp [allowed]

/-- What a variant may have different from the others in its block. -/
def Variant.ending (v : Variant) : Scheme × Scheme × Bool :=
  (v.counts, v.positions, v.isPayload)

namespace Family

/-! ## Blocks -/

/-- The multiplicity of an allowed pair is the product of those of its schemes. -/
theorem count_pairs (f : Family) (c t : Scheme) :
    f.pairs.count (c, t) = if c.allowed t then f.counts.count c * f.positions.count t else 0 := by
  have hkey : ∀ c : Scheme, ∀ e ∈ (f.positions.filter c.allowed).map fun t => (c, t), e.1 = c := by
    intro c e he
    obtain ⟨t, -, rfl⟩ := List.mem_map.mp he
    rfl
  have hinj : Function.Injective fun t : Scheme => (c, t) := fun t t' h => (Prod.mk.inj h).2
  rw [pairs, count_flatMap_of_key Prod.fst hkey, List.count_map_of_injective _ _ hinj]
  by_cases h : c.allowed t = true
  · rw [List.count_filter h, if_pos h]
  · have hnot : t ∉ f.positions.filter c.allowed := fun ht => h (List.mem_filter.mp ht).2
    rw [List.count_eq_zero.mpr hnot, if_neg h, Nat.mul_zero]

/-- The endings of the variants in a block, in order. -/
def endings (f : Family) : List (Scheme × Scheme × Bool) :=
  f.pairs.map (fun e => (e.1, e.2, false)) ++ if f.payloads then [(.none, .none, true)] else []

/-- A block has one variant for every ending. -/
theorem block_eq_map_endings (f : Family) (s : Bool) (q p : Scheme) :
    f.block s q p = f.endings.map fun e => ⟨f, s, q, p, e.1, e.2.1, e.2.2⟩ := by
  rw [block, endings, List.map_append, List.map_map]
  congr 1
  cases f.payloads <;> rfl

theorem count_endings_regular (f : Family) (c t : Scheme) :
    f.endings.count (c, t, false) = f.pairs.count (c, t) := by
  have hinj : Function.Injective fun e : Scheme × Scheme => (e.1, e.2, false) := by
    rintro ⟨c, t⟩ ⟨c', t'⟩ h
    cases h
    rfl
  have hmap : (f.pairs.map fun e => (e.1, e.2, false)).count (c, t, false) =
      f.pairs.count (c, t) :=
    List.count_map_of_injective _ _ hinj (c, t)
  rw [endings, List.count_append, hmap]
  cases f.payloads <;> simp

theorem count_endings_payload (f : Family) (c t : Scheme) :
    f.endings.count (c, t, true) = if f.payloads ∧ c = .none ∧ t = .none then 1 else 0 := by
  have hnot : (c, t, true) ∉ f.pairs.map fun e => (e.1, e.2, false) := by simp
  rw [endings, List.count_append, List.count_eq_zero.mpr hnot, Nat.zero_add]
  cases f.payloads
  · simp
  · simp only [if_true, true_and, List.count_singleton, beq_iff_eq, Prod.mk.injEq, and_true]
    simp only [eq_comm]

/-- A block lists a variant that has its choices as often as the ending is listed. -/
theorem count_block (v : Variant) :
    (v.family.block v.hasSkips v.frequencies v.pointers).count v =
      v.family.endings.count v.ending := by
  have hinj : Function.Injective fun e : Scheme × Scheme × Bool =>
      (⟨v.family, v.hasSkips, v.frequencies, v.pointers, e.1, e.2.1, e.2.2⟩ : Variant) := by
    rintro ⟨c, t, b⟩ ⟨c', t', b'⟩ h
    cases h
    rfl
  rw [block_eq_map_endings]
  exact List.count_map_of_injective _ _ hinj v.ending

theorem choices_of_mem_block {f : Family} {s : Bool} {q p : Scheme} {v : Variant}
    (h : v ∈ f.block s q p) :
    v.family = f ∧ v.hasSkips = s ∧ v.frequencies = q ∧ v.pointers = p := by
  rw [block_eq_map_endings] at h
  obtain ⟨e, -, rfl⟩ := List.mem_map.mp h
  exact ⟨rfl, rfl, rfl, rfl⟩

/-! ## Variants -/

/-- A family lists only variants of its own. -/
theorem family_of_mem_variants {f : Family} {v : Variant} (h : v ∈ f.variants) :
    v.family = f := by
  obtain ⟨s, -, h⟩ := List.mem_flatMap.mp h
  obtain ⟨q, -, h⟩ := List.mem_flatMap.mp h
  obtain ⟨p, -, h⟩ := List.mem_flatMap.mp h
  exact (choices_of_mem_block h).1

/-- **The multiplicity of a variant** is the product of those of its choices. -/
theorem count_variants (v : Variant) :
    v.family.variants.count v =
      v.family.skips.count v.hasSkips * (v.family.frequencies.count v.frequencies *
        (v.family.pointers.count v.pointers * v.family.endings.count v.ending)) := by
  rw [variants, count_flatMap_of_key Variant.hasSkips, count_flatMap_of_key Variant.frequencies,
    count_flatMap_of_key Variant.pointers, count_block]
  · intro p w hw
    exact (choices_of_mem_block hw).2.2.2
  · intro q w hw
    obtain ⟨p, -, hw⟩ := List.mem_flatMap.mp hw
    exact (choices_of_mem_block hw).2.2.1
  · intro s w hw
    obtain ⟨q, -, hw⟩ := List.mem_flatMap.mp hw
    obtain ⟨p, -, hw⟩ := List.mem_flatMap.mp hw
    exact (choices_of_mem_block hw).2.1

/-- **How often every variant is listed.** A variant that is no payload variant is listed as often
as its five choices are offered, taken together, if its counts and positions go together, and else
not at all. A payload variant needs a family that has them, and has neither counts nor positions; it
is listed as often as its other three choices are offered. -/
theorem count_variants_eq_ite (f : Family) (s : Bool) (q p c t : Scheme) :
    f.variants.count ⟨f, s, q, p, c, t, false⟩ =
        (if t = .none ∨ c ≠ .none then
          f.skips.count s * f.frequencies.count q * f.pointers.count p * f.counts.count c *
            f.positions.count t
        else 0) ∧
      f.variants.count ⟨f, s, q, p, c, t, true⟩ =
        if f.payloads ∧ c = .none ∧ t = .none then
          f.skips.count s * f.frequencies.count q * f.pointers.count p
        else 0 := by
  have hcount := fun b => count_variants ⟨f, s, q, p, c, t, b⟩
  constructor
  · rw [hcount false]
    show _ * (_ * (_ * f.endings.count (c, t, false))) = _
    rw [count_endings_regular, count_pairs]
    simp only [Scheme.allowed_iff]
    split
    · simp only [Nat.mul_assoc]
    · rfl
  · rw [hcount true]
    show _ * (_ * (_ * f.endings.count (c, t, true))) = _
    rw [count_endings_payload]
    split
    · rw [Nat.mul_one, ← Nat.mul_assoc]
    · rfl

/-- A family lists a variant iff it offers each of its choices. -/
theorem mem_variants_iff (v : Variant) :
    v ∈ v.family.variants ↔ v.hasSkips ∈ v.family.skips ∧ v.frequencies ∈ v.family.frequencies ∧
      v.pointers ∈ v.family.pointers ∧ v.ending ∈ v.family.endings := by
  simp only [← List.count_pos_iff, count_variants, Nat.pos_iff_ne_zero, Nat.mul_ne_zero_iff]

/-! ## Repetitions -/

/-- A variant repeats iff its family offers all of its choices, and one of them repeatedly. -/
theorem duplicate_variants_iff (v : Variant) :
    List.Duplicate v v.family.variants ↔ v ∈ v.family.variants ∧
      (List.Duplicate v.hasSkips v.family.skips ∨
        List.Duplicate v.frequencies v.family.frequencies ∨
        List.Duplicate v.pointers v.family.pointers ∨
        List.Duplicate v.ending v.family.endings) := by
  simp only [duplicate_iff_one_lt_count, count_variants, ← List.count_pos_iff, Nat.one_lt_mul_iff,
    Nat.pos_iff_ne_zero, Nat.mul_ne_zero_iff]
  tauto

/-- An allowed pair repeats iff the family offers both of its schemes, and one of them
repeatedly. -/
theorem duplicate_pairs_iff (f : Family) (c t : Scheme) :
    List.Duplicate (c, t) f.pairs ↔ c.allowed t ∧ c ∈ f.counts ∧ t ∈ f.positions ∧
      (List.Duplicate c f.counts ∨ List.Duplicate t f.positions) := by
  rw [duplicate_iff_one_lt_count, count_pairs]
  by_cases h : c.allowed t = true
  · rw [if_pos h, Nat.one_lt_mul_iff, List.count_pos_iff, List.count_pos_iff, and_iff_right h,
      duplicate_iff_one_lt_count, duplicate_iff_one_lt_count]
  · rw [if_neg h]
    constructor
    · intro hlt
      exact absurd hlt (by decide)
    · rintro ⟨hallowed, -⟩
      exact absurd hallowed h

/-- Only an ending that is no payload repeats: that of an allowed pair that repeats. -/
theorem duplicate_endings_iff (f : Family) (e : Scheme × Scheme × Bool) :
    List.Duplicate e f.endings ↔ e.2.2 = false ∧ List.Duplicate (e.1, e.2.1) f.pairs := by
  obtain ⟨c, t, b⟩ := e
  cases b with
  | false => simp only [duplicate_iff_one_lt_count, count_endings_regular, true_and]
  | true =>
    rw [duplicate_iff_one_lt_count, count_endings_payload]
    constructor
    · intro h
      split at h <;> omega
    · rintro ⟨h, -⟩
      cases h

/-- An axis repeats a value, and some variant has it: the counts of a variant go with its
positions. -/
inductive Repeats (f : Family) : Prop where
  | skips (s : Bool) (h : List.Duplicate s f.skips)
  | frequencies (q : Scheme) (h : List.Duplicate q f.frequencies)
  | pointers (p : Scheme) (h : List.Duplicate p f.pointers)
  | counts (c t : Scheme) (h : List.Duplicate c f.counts) (ht : t ∈ f.positions)
      (allowed : c.allowed t)
  | positions (c t : Scheme) (h : List.Duplicate t f.positions) (hc : c ∈ f.counts)
      (allowed : c.allowed t)

/-- A repetition shows in the variants of a family that has variants, and nothing else repeats. -/
theorem not_nodup_variants_iff (f : Family) :
    ¬ f.variants.Nodup ↔ f.variants ≠ [] ∧ f.Repeats := by
  rw [← List.exists_duplicate_iff_not_nodup]
  constructor
  · rintro ⟨v, hv⟩
    obtain rfl : v.family = f := family_of_mem_variants hv.mem
    refine ⟨List.ne_nil_of_mem hv.mem, ?_⟩
    obtain ⟨-, hs | hq | hp | he⟩ := (duplicate_variants_iff v).mp hv
    · exact .skips _ hs
    · exact .frequencies _ hq
    · exact .pointers _ hp
    · obtain ⟨-, hpair⟩ := (duplicate_endings_iff _ _).mp he
      obtain ⟨hallowed, hc, ht, hdup | hdup⟩ := (duplicate_pairs_iff _ _ _).mp hpair
      · exact .counts _ _ hdup ht hallowed
      · exact .positions _ _ hdup hc hallowed
  · rintro ⟨hne, hrep⟩
    obtain ⟨v, hv⟩ := List.exists_mem_of_ne_nil _ hne
    obtain rfl : v.family = f := family_of_mem_variants hv
    obtain ⟨hs, hq, hp, he⟩ := (mem_variants_iff v).mp hv
    -- the variant with one other choice is listed as well, and that choice repeats
    have hpair : ∀ c t, List.Duplicate (c, t) v.family.pairs →
        ∃ w, List.Duplicate w v.family.variants := by
      intro c t hct
      have hdup := (duplicate_endings_iff v.family (c, t, false)).mpr ⟨rfl, hct⟩
      exact ⟨{ v with counts := c, positions := t, isPayload := false },
        (duplicate_variants_iff _).mpr
          ⟨(mem_variants_iff _).mpr ⟨hs, hq, hp, hdup.mem⟩, .inr (.inr (.inr hdup))⟩⟩
    cases hrep with
    | skips s h =>
      exact ⟨{ v with hasSkips := s },
        (duplicate_variants_iff _).mpr ⟨(mem_variants_iff _).mpr ⟨h.mem, hq, hp, he⟩, .inl h⟩⟩
    | frequencies q h =>
      exact ⟨{ v with frequencies := q },
        (duplicate_variants_iff _).mpr
          ⟨(mem_variants_iff _).mpr ⟨hs, h.mem, hp, he⟩, .inr (.inl h)⟩⟩
    | pointers p h =>
      exact ⟨{ v with pointers := p },
        (duplicate_variants_iff _).mpr
          ⟨(mem_variants_iff _).mpr ⟨hs, hq, h.mem, he⟩, .inr (.inr (.inl h))⟩⟩
    | counts c t h ht hallowed =>
      exact hpair c t ((duplicate_pairs_iff _ _ _).mpr ⟨hallowed, h.mem, ht, .inl h⟩)
    | positions c t h hc hallowed =>
      exact hpair c t ((duplicate_pairs_iff _ _ _).mpr ⟨hallowed, hc, h.mem, .inr h⟩)

/-! ## Class names -/

/-- A payload variant of a family has neither counts nor positions. -/
theorem counts_positions_of_isPayload {v : Variant} (hv : v ∈ v.family.variants)
    (h : v.isPayload = true) : v.counts = .none ∧ v.positions = .none := by
  have hcount := List.count_pos_iff.mpr ((mem_variants_iff v).mp hv).2.2.2
  rw [Variant.ending, h, count_endings_payload] at hcount
  split at hcount
  · rename_i hnone
    exact hnone.2
  · exact absurd hcount (Nat.lt_irrefl 0)

/-- Variants of a family with one class name are one variant. -/
theorem eq_of_className_eq {f : Family} {v w : Variant} (hv : v ∈ f.variants)
    (hw : w ∈ f.variants) (h : v.className = w.className) : v = w := by
  obtain rfl : v.family = f := family_of_mem_variants hv
  have hfam : w.family = v.family := family_of_mem_variants hw
  have hsame : v.SameChoices w :=
    Variant.sameChoices_of_toLower_eq (congrArg Family.suffix hfam.symm)
      (congrArg String.toLower h)
  have hpair : v.counts = w.counts ∧ v.positions = w.positions := by
    cases hpay : v.isPayload with
    | false => exact ⟨hsame.counts hpay, hsame.positions hpay⟩
    | true =>
      obtain ⟨hc, ht⟩ := counts_positions_of_isPayload hv hpay
      obtain ⟨hc', ht'⟩ :=
        counts_positions_of_isPayload (hfam.symm ▸ hw) (hsame.isPayload.symm.trans hpay)
      exact ⟨hc.trans hc'.symm, ht.trans ht'.symm⟩
  obtain ⟨f, s, q, p, c, t, b⟩ := v
  obtain ⟨g, s', q', p', c', t', b'⟩ := w
  obtain rfl : g = f := hfam
  obtain rfl : s = s' := hsame.hasSkips
  obtain rfl : q = q' := hsame.frequencies
  obtain rfl : p = p' := hsame.pointers
  obtain rfl : c = c' := hpair.1
  obtain rfl : t = t' := hpair.2
  obtain rfl : b = b' := hsame.isPayload
  rfl

/-- The class names of a family repeat only with its variants. -/
theorem nodup_map_className_iff (f : Family) :
    (f.variants.map Variant.className).Nodup ↔ f.variants.Nodup := by
  constructor
  · exact List.Nodup.of_map _
  · exact List.Nodup.map_on fun v hv w hw => eq_of_className_eq hv hw

end Family

/-- **A family is refused exactly for a repetition that shows.** -/
theorem allVariants_singleton_eq_error_iff (f : Family) :
    (∃ n, allVariants [f] = .error ⟨classNameLabel, n⟩) ↔ f.variants ≠ [] ∧ f.Repeats := by
  rw [exists_allVariants_eq_error_iff, List.flatMap_singleton, Family.nodup_map_className_iff,
    Family.not_nodup_variants_iff]

/-- Repeated counts do not show if no position goes with them. -/
example : ∃ vs, allVariants
    [{ Family.standard with
      frequencies := [.gamma], pointers := [.gamma]
      counts := [.none, .none, .gamma], positions := [.delta] }] = .ok vs :=
  ⟨_, rfl⟩

end BitReaders
