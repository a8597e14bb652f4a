import BitReaders.Proofs.Variants

/-!
# Where a variant stands in the enumeration

The nested loops of a family give blocks of one length, one for each choice of skips, frequencies
and pointers. So the rank of a block is read off the places of its choices, as if the blocks were
the entries of a table with three indices.

- `take_drop_flatMap_of_const`: a slice inside one round of a loop whose rounds are equally long.
- `Family.rowMajorPairs`: the allowed pairs of counts and positions, picked from the table of all
  pairs row by row. The row of absent counts is shorter than the others.
- `Family.pairCount`, `Family.blockLength`, `Family.blockStart`: how many pairs are allowed, how
  long a block is, and where it starts, in closed form.
- `Family.take_drop_variants`: the slice at the start of a block is that block.
- `Family.variants_in_blocks`: **how many variants there are, and which ones stand where**.
-/

namespace BitReaders

/-! ## Slices of loops -/

/-- A slice inside one round of a loop whose rounds are equally long. -/
theorem take_drop_flatMap_of_const {α β : Type} {g : α → List β} {n : Nat}
    (h : ∀ a, (g a).length = n) (l : List α) (i : Fin l.length) {m b : Nat} (hb : m + b ≤ n) :
    ((l.flatMap g).drop (i * n + m)).take b = ((g l[i]).drop m).take b := by
  have hsplit : l.flatMap g = (l.take i).flatMap g ++ (g l[i] ++ (l.drop (i + 1)).flatMap g) := by
    rw [← List.flatMap_cons, ← List.flatMap_append, Fin.getElem_fin, List.getElem_cons_drop,
      List.take_append_drop]
  have hbefore : ((l.take i).flatMap g).length = i * n := by
    rw [length_flatMap_of_const h, List.length_take_of_le (Nat.le_of_lt i.isLt)]
  have hround : m + b ≤ (g l[i]).length := (h l[i]).symm ▸ hb
  rw [hsplit, ← hbefore, List.drop_length_add_append, List.drop_append_of_le_length (by omega),
    List.take_append_of_le_length (by rw [List.length_drop]; omega)]

/-- What fits into one round fits into the loop. -/
theorem mul_add_le_mul {n : Nat} (i : Fin n) {m b : Nat} (h : m ≤ b) : i * b + m ≤ n * b :=
  calc i * b + m ≤ (i + 1) * b := by rw [Nat.succ_mul]; omega
    _ ≤ n * b := Nat.mul_le_mul_right b i.isLt

namespace Family

/-! ## Pairs of counts and positions -/

/-- The allowed pairs, picked from the table of all pairs row by row. -/
def rowMajorPairs (f : Family) : List (Scheme × Scheme) :=
  (f.counts ×ˢ f.positions).filter fun e => e.2 = .none ∨ e.1 ≠ .none

/-- The number of allowed pairs: all but those of absent counts and stored positions. -/
def pairCount (f : Family) : Nat :=
  f.counts.length * f.positions.length - f.counts.count .none * f.positions.countP (· ≠ .none)

theorem pairs_eq_rowMajorPairs (f : Family) : f.pairs = f.rowMajorPairs := by
  have hproduct : f.counts ×ˢ f.positions =
      f.counts.flatMap fun c => f.positions.map fun t => (c, t) := rfl
  rw [pairs, rowMajorPairs, hproduct, List.filter_flatMap]
  refine List.flatMap_congr fun c _ => ?_
  rw [List.filter_map]
  congr 1
  refine List.filter_congr fun t _ => ?_
  rw [Bool.eq_iff_iff, Scheme.allowed_iff]
  exact decide_eq_true_iff.symm

/-- A row has all positions, unless its counts are absent: then those that are stored are left
out. -/
theorem length_filter_allowed (c : Scheme) (ts : List Scheme) :
    (ts.filter c.allowed).length + (if c = .none then ts.countP (· ≠ .none) else 0) =
      ts.length := by
  have hlength := List.length_eq_countP_add_countP c.allowed (l := ts)
  rw [hlength, ← List.countP_eq_length_filter]
  congr 1
  split
  · rename_i hc
    refine List.countP_congr fun t _ => ?_
    simp [Scheme.allowed, hc]
  · rename_i hc
    refine (List.countP_eq_zero.mpr fun t _ => ?_).symm
    simp [Scheme.allowed, hc]

/-- The rows together, by induction on the counts. -/
theorem length_pairs_add (f : Family) :
    f.pairs.length + f.counts.count .none * f.positions.countP (· ≠ .none) =
      f.counts.length * f.positions.length := by
  rw [pairs]
  induction f.counts with
  | nil => simp
  | cons c cs ih =>
    have hrow := length_filter_allowed c f.positions
    rw [List.flatMap_cons, List.length_append, List.length_map, List.count_cons, List.length_cons,
      Nat.succ_mul, Nat.add_mul, ← ih, ← hrow]
    by_cases hc : c = .none <;> simp [hc] <;> omega

theorem length_pairs (f : Family) : f.pairs.length = f.pairCount := by
  have hadd := length_pairs_add f
  rw [pairCount]
  omega

/-! ## Blocks -/

/-- The number of variants in a block. -/
def blockLength (f : Family) : Nat :=
  f.pairCount + if f.payloads then 1 else 0

/-- The rank of the first variant in a block, by the places of its skips, frequencies and
pointers. -/
def blockStart (f : Family) (i j k : Nat) : Nat :=
  ((i * f.frequencies.length + j) * f.pointers.length + k) * f.blockLength

theorem length_block_eq (f : Family) (s : Bool) (q p : Scheme) :
    (f.block s q p).length = f.blockLength := by
  rw [length_block, length_pairs, blockLength]

/-- A block has the allowed pairs row by row, and the payload variant, if there is one, last. -/
theorem block_eq (f : Family) (s : Bool) (q p : Scheme) :
    f.block s q p = f.rowMajorPairs.map (fun e => ⟨f, s, q, p, e.1, e.2, false⟩) ++
      if f.payloads then [⟨f, s, q, p, .none, .none, true⟩] else [] := by
  rw [block, pairs_eq_rowMajorPairs]

/-- The slice at the start of a block is that block. -/
theorem take_drop_variants (f : Family) (i : Fin f.skips.length) (j : Fin f.frequencies.length)
    (k : Fin f.pointers.length) :
    (f.variants.drop (f.blockStart i j k)).take f.blockLength =
      f.block f.skips[i] f.frequencies[j] f.pointers[k] := by
  have hpointers := fun s q => length_flatMap_of_const (length_block_eq f s q) f.pointers
  have hfrequencies := fun s => length_flatMap_of_const (hpointers s) f.frequencies
  -- The rank is a numeral with mixed bases: each loop takes off its leading digit.
  have hstart : f.blockStart i j k =
      i * (f.frequencies.length * (f.pointers.length * f.blockLength)) +
        (j * (f.pointers.length * f.blockLength) + (k * f.blockLength + 0)) := by
    rw [blockStart, Nat.add_mul, Nat.add_mul, Nat.add_mul]
    simp only [Nat.mul_assoc, Nat.add_assoc, Nat.add_zero]
  have hk : k * f.blockLength + 0 + f.blockLength ≤ f.pointers.length * f.blockLength :=
    mul_add_le_mul k (Nat.le_refl _)
  have hj : j * (f.pointers.length * f.blockLength) + (k * f.blockLength + 0) + f.blockLength ≤
      f.frequencies.length * (f.pointers.length * f.blockLength) := by
    rw [Nat.add_assoc]
    exact mul_add_le_mul j hk
  have hblock : 0 + f.blockLength ≤ f.blockLength := by omega
  rw [hstart, variants, take_drop_flatMap_of_const hfrequencies _ i hj,
    take_drop_flatMap_of_const (hpointers _) _ j hk,
    take_drop_flatMap_of_const (length_block_eq f _ _) _ k hblock, List.drop_zero,
    List.take_of_length_le (Nat.le_of_eq (length_block_eq ..))]

/-! ## The law -/

/-- **How many variants there are, and which ones stand where.** There are as many as the choices of
skips, frequencies and pointers times the length of a block, and the slice at the rank of such a
choice is its block: the allowed pairs of counts and positions row by row, and then the payload
variant, if the family has one. -/
theorem variants_in_blocks (f : Family) :
    f.rowMajorPairs.length = f.pairCount ∧
    f.variants.length =
      f.skips.length * f.frequencies.length * f.pointers.length * f.blockLength ∧
    ∀ (i : Fin f.skips.length) (j : Fin f.frequencies.length) (k : Fin f.pointers.length),
      (f.variants.drop (f.blockStart i j k)).take f.blockLength =
        f.rowMajorPairs.map (fun e =>
            ⟨f, f.skips[i], f.frequencies[j], f.pointers[k], e.1, e.2, false⟩) ++
          if f.payloads then
            [⟨f, f.skips[i], f.frequencies[j], f.pointers[k], .none, .none, true⟩]
          else [] := by
  refine ⟨?_, ?_, fun i j k => ?_⟩
  · rw [← pairs_eq_rowMajorPairs, length_pairs]
  · rw [length_variants, length_pairs, blockLength]
    simp only [Nat.mul_assoc]
  · rw [take_drop_variants, block_eq]

/-- The standard readers have 29 allowed pairs and a payload variant in a block, the
high-performance ones 12 pairs. -/
example : Family.standard.blockLength = 29 + 1 ∧ Family.highPerformance.blockLength = 12 := by
  decide

end Family

end BitReaders
