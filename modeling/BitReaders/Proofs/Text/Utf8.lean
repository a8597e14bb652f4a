import BitReaders.Text.Utf8

/-!
# UTF-8 there and back

The octets that can be decoded are those of the encoded texts, and each is decoded to its text.

- `octets`: the octets of one character. `encodeScalar_two`, `encodeScalar_three` and
  `encodeScalar_four`: the number that octets within their bounds form is encoded by these octets.
- `Partial.Completes`: octets complete a character of which some octets have been read.
  `decodeFrom_append_of_completes`, `completes_of_decodeFrom`: the decoder reads on just so.
- `octets_of_completes`, `exists_completes`: an octet that begins a character and those that
  complete it are the octets of the character.
- `decode_encode`, `decode_eq_ok_iff`: **the round trip**, in both directions.
-/

namespace BitReaders.Utf8

/-! ## Scalar values -/

theorem toNat_ofNat {n : Nat} (h : n < 0xD800 ∨ 0xDFFF < n ∧ n < 0x110000) :
    (Char.ofNat n).toNat = n := by
  have hvalid : n.isValidChar := h
  rw [Char.ofNat, dif_pos hvalid]
  rfl

/-- The octets of one character. -/
def octets (c : Char) : List UInt8 :=
  (encodeScalar c.toNat).map UInt8.ofNat

theorem encode_cons (c : Char) (cs : List Char) : encode (c :: cs) = octets c ++ encode cs :=
  List.flatMap_cons

section Bounds

variable {a b c d : Nat}

theorem encodeScalar_two (ha : 0xC2 ≤ a ∧ a ≤ 0xDF) (hb : 0x80 ≤ b ∧ b ≤ 0xBF) :
    encodeScalar ((a - 0xC0) * 0x40 + (b - 0x80)) = [a, b] := by
  generalize hn : (a - 0xC0) * 0x40 + (b - 0x80) = n
  have h₁ : 0xC0 + n / 0x40 = a := by omega
  have h₂ : 0x80 + n % 0x40 = b := by omega
  rw [encodeScalar, if_neg (by omega), if_pos (by omega), h₁, h₂]

/-- The bounds of the second octet exclude numbers with shorter forms. -/
theorem encodeScalar_three (ha : 0xE0 ≤ a ∧ a ≤ 0xEF) (hb : 0x80 ≤ b ∧ b ≤ 0xBF)
    (hlow : a = 0xE0 → 0xA0 ≤ b) (hc : 0x80 ≤ c ∧ c ≤ 0xBF) :
    encodeScalar (((a - 0xE0) * 0x40 + (b - 0x80)) * 0x40 + (c - 0x80)) = [a, b, c] := by
  generalize hn : ((a - 0xE0) * 0x40 + (b - 0x80)) * 0x40 + (c - 0x80) = n
  have h₁ : 0xE0 + n / 0x1000 = a := by omega
  have h₂ : 0x80 + n / 0x40 % 0x40 = b := by omega
  have h₃ : 0x80 + n % 0x40 = c := by omega
  rw [encodeScalar, if_neg (by omega), if_neg (by omega), if_pos (by omega), h₁, h₂, h₃]

theorem encodeScalar_four (ha : 0xF0 ≤ a ∧ a ≤ 0xF4) (hb : 0x80 ≤ b ∧ b ≤ 0xBF)
    (hlow : a = 0xF0 → 0x90 ≤ b) (hc : 0x80 ≤ c ∧ c ≤ 0xBF) (hd : 0x80 ≤ d ∧ d ≤ 0xBF) :
    encodeScalar ((((a - 0xF0) * 0x40 + (b - 0x80)) * 0x40 + (c - 0x80)) * 0x40 + (d - 0x80)) =
      [a, b, c, d] := by
  generalize hn : (((a - 0xF0) * 0x40 + (b - 0x80)) * 0x40 + (c - 0x80)) * 0x40 + (d - 0x80) = n
  have h₁ : 0xF0 + n / 0x40000 = a := by omega
  have h₂ : 0x80 + n / 0x1000 % 0x40 = b := by omega
  have h₃ : 0x80 + n / 0x40 % 0x40 = c := by omega
  have h₄ : 0x80 + n % 0x40 = d := by omega
  rw [encodeScalar, if_neg (by omega), if_neg (by omega), if_neg (by omega), h₁, h₂, h₃, h₄]

end Bounds

/-! ## Characters in progress -/

/-- The octets complete the character `c`, of which `p` has been read. -/
inductive Partial.Completes : Partial → List UInt8 → Char → Prop where
  /-- The last octet that is owed. -/
  | last {p : Partial} {b : UInt8} (low : p.low ≤ b.toNat) (high : b.toNat ≤ p.high)
    (owed : (p.push b.toNat).owed = 0) : Completes p [b] (Char.ofNat (p.push b.toNat).number)
  /-- An octet after which others are owed. -/
  | next {p : Partial} {b : UInt8} {bs : List UInt8} {c : Char} (low : p.low ≤ b.toNat)
    (high : b.toNat ≤ p.high) (owed : (p.push b.toNat).owed ≠ 0)
    (rest : Completes (p.push b.toNat) bs c) : Completes p (b :: bs) c

/-- A decoder in the middle of a character succeeds if the character is completed and the octets
after it are decoded. -/
theorem decodeFrom_append_of_completes {p : Partial} {tail : List UInt8} {c : Char}
    (h : p.Completes tail c) (position : Nat) (bs : List UInt8) :
    decodeFrom position (some p) (tail ++ bs) =
      (decodeFrom (position + tail.length) none bs).map (c :: ·) := by
  induction h generalizing position with
  | last low high owed =>
    rw [List.singleton_append, decodeFrom, if_pos ⟨low, high⟩]
    simp only [owed, if_pos, List.length_singleton]
  | next low high owed _ ih =>
    rw [List.cons_append, decodeFrom, if_pos ⟨low, high⟩]
    simp only [owed, if_false]
    rw [ih, List.length_cons, Nat.add_right_comm, Nat.add_assoc]

/-- A decoder in the middle of a character succeeds only so. -/
theorem completes_of_decodeFrom {bs : List UInt8} {cs : List Char} {p : Partial} {position : Nat}
    (h : decodeFrom position (some p) bs = .ok cs) :
    ∃ tail rest c cs', bs = tail ++ rest ∧ p.Completes tail c ∧ cs = c :: cs' ∧
      ∃ position', decodeFrom position' none rest = .ok cs' := by
  induction bs generalizing p position with
  | nil => cases h
  | cons b bs ih =>
    rw [decodeFrom] at h
    split at h
    · rename_i hb
      simp only at h
      split at h
      · rename_i howed
        cases hrest : decodeFrom (position + 1) none bs with
        | error f =>
          rw [hrest] at h
          cases h
        | ok cs' =>
          rw [hrest] at h
          cases h
          exact ⟨[b], bs, _, cs', rfl, .last hb.1 hb.2 howed, rfl, _, hrest⟩
      · rename_i howed
        obtain ⟨tail, rest, c, cs', rfl, hc, hcs, hrest⟩ := ih h
        exact ⟨b :: tail, rest, c, cs', rfl, .next hb.1 hb.2 howed hc, hcs, hrest⟩
    · cases h

namespace Partial.Completes

variable {p : Partial} {tail : List UInt8} {c : Char}

/-- Where one octet is owed, it is all there is. -/
theorem inv_last (hc : p.Completes tail c) (h : p.owed = 1) :
    ∃ b : UInt8, tail = [b] ∧ (p.low ≤ b.toNat ∧ b.toNat ≤ p.high) ∧
      c = Char.ofNat (p.push b.toNat).number := by
  cases hc with
  | last low high => exact ⟨_, rfl, ⟨low, high⟩, rfl⟩
  | next _ _ owed => exact absurd (show p.owed - 1 = 0 by omega) owed

/-- Where several octets are owed, the first is within the bounds and the others follow. -/
theorem inv_next (hc : p.Completes tail c) (h : 2 ≤ p.owed) :
    ∃ (b : UInt8) (bs : List UInt8), tail = b :: bs ∧ (p.low ≤ b.toNat ∧ b.toNat ≤ p.high) ∧
      (p.push b.toNat).Completes bs c := by
  cases hc with
  | last _ _ owed => exact absurd owed (show p.owed - 1 ≠ 0 by omega)
  | next low high _ rest => exact ⟨_, _, rfl, ⟨low, high⟩, rest⟩

/-- The last octet completes the character with the number that is reached. -/
theorem of_last {b : UInt8} (hb : p.low ≤ b.toNat ∧ b.toNat ≤ p.high)
    (owed : (p.push b.toNat).owed = 0) (number : (p.push b.toNat).number = c.toNat) :
    p.Completes [b] c := by
  have hc : Char.ofNat (p.push b.toNat).number = c := by rw [number, Char.ofNat_toNat]
  exact hc ▸ .last hb.1 hb.2 owed

end Partial.Completes

/-! ## One character -/

/-- The octets are those of the character with the number that they form. -/
theorem octets_ofNat {n : Nat} {bs : List UInt8} (hn : n < 0xD800 ∨ 0xDFFF < n ∧ n < 0x110000)
    (h : encodeScalar n = bs.map UInt8.toNat) : octets (Char.ofNat n) = bs := by
  rw [octets, toNat_ofNat hn, h, List.map_map]
  refine (List.map_congr_left fun b _ => ?_).trans (List.map_id bs)
  exact UInt8.ofNat_toNat

/-- A first octet and the octets that complete its character are the octets of the character. -/
theorem octets_of_completes {position : Nat} {a : UInt8} {tail : List UInt8} {c : Char}
    {p : Partial} (hp : Partial.begin? position a.toNat = some p) (h : p.Completes tail c) :
    octets c = a :: tail := by
  unfold Partial.begin? at hp
  split at hp
  · rename_i ha
    cases hp
    obtain ⟨b, rfl, hb, hc⟩ := h.inv_last rfl
    simp only [Partial.push] at hb hc
    rw [hc]
    exact octets_ofNat (by omega) (encodeScalar_two ha hb)
  · split at hp
    · rename_i ha
      cases hp
      obtain ⟨b, bs, rfl, hb, h⟩ := h.inv_next (Nat.le_refl 2)
      obtain ⟨d, rfl, hd, hc⟩ := h.inv_last rfl
      simp only [Partial.push] at hb hd hc
      rw [hc]
      -- After 0xE0 and after 0xED the second octet has bounds of its own: no number has a shorter
      -- form, and none is a surrogate.
      split at hb <;> split at hb <;>
        exact octets_ofNat (by omega)
          (encodeScalar_three ha (by omega) (by omega) hd)
    · split at hp
      · rename_i ha
        cases hp
        obtain ⟨b, bs, rfl, hb, h⟩ := h.inv_next (Nat.le_succ 2)
        obtain ⟨d, ds, rfl, hd, h⟩ := h.inv_next (Nat.le_refl 2)
        obtain ⟨e, rfl, he, hc⟩ := h.inv_last rfl
        simp only [Partial.push] at hb hd he hc
        rw [hc]
        -- Likewise after 0xF0 and after 0xF4: no number is beyond the last character.
        split at hb <;> split at hb <;>
          exact octets_ofNat (by omega)
            (encodeScalar_four ha (by omega) (by omega) hd he)
      · cases hp

section Begin

variable {position a : Nat}

theorem begin?_two (h : 0xC2 ≤ a ∧ a ≤ 0xDF) :
    Partial.begin? position a = some ⟨position, a, 1, 1, 0x80, 0xBF, a - 0xC0⟩ := by
  rw [Partial.begin?, if_pos h]

theorem begin?_three (h : 0xE0 ≤ a ∧ a ≤ 0xEF) :
    Partial.begin? position a =
      some ⟨position, a, 1, 2, if a = 0xE0 then 0xA0 else 0x80, if a = 0xED then 0x9F else 0xBF,
        a - 0xE0⟩ := by
  rw [Partial.begin?, if_neg (by omega), if_pos h]

theorem begin?_four (h : 0xF0 ≤ a ∧ a ≤ 0xF4) :
    Partial.begin? position a =
      some ⟨position, a, 1, 3, if a = 0xF0 then 0x90 else 0x80, if a = 0xF4 then 0x8F else 0xBF,
        a - 0xF0⟩ := by
  rw [Partial.begin?, if_neg (by omega), if_neg (by omega), if_pos h]

end Begin

/-- An octet with a given value. -/
theorem exists_toNat_eq {n : Nat} (h : n < 0x100) : ∃ b : UInt8, UInt8.ofNat n = b ∧ b.toNat = n :=
  ⟨_, rfl, UInt8.toNat_ofNat_of_lt h⟩

/-- An octet with a given value that may continue a character. -/
theorem exists_continuation (m : Nat) :
    ∃ b : UInt8, UInt8.ofNat (0x80 + m % 0x40) = b ∧ b.toNat = 0x80 + m % 0x40 ∧
      (0x80 ≤ b.toNat ∧ b.toNat ≤ 0xBF) := by
  obtain ⟨b, hb, hbn⟩ := exists_toNat_eq (show 0x80 + m % 0x40 < 0x100 by omega)
  exact ⟨b, hb, hbn, by omega⟩

/-- The first octet of a character that is not in ASCII begins it, and the others complete it. -/
theorem exists_completes (position : Nat) {c : Char} (h : 0x80 ≤ c.toNat) :
    ∃ a tail p, octets c = a :: tail ∧ 0x80 ≤ a.toNat ∧
      Partial.begin? position a.toNat = some p ∧ p.Completes tail c := by
  have hvalid : c.toNat < 0xD800 ∨ 0xDFFF < c.toNat ∧ c.toNat < 0x110000 := c.valid
  generalize hn : c.toNat = n at *
  -- The octets are found from the last one back.
  obtain ⟨b, hb, hbn, hbounds⟩ := exists_continuation n
  by_cases h₂ : n < 0x800
  · obtain ⟨a, ha, han⟩ := exists_toNat_eq (show 0xC0 + n / 0x40 < 0x100 by omega)
    refine ⟨a, [b], _, ?_, by omega, begin?_two (by omega), .of_last hbounds rfl ?_⟩
    · rw [octets, hn, encodeScalar, if_neg (by omega), if_pos h₂, ← ha, ← hb]
      rfl
    · show (a.toNat - 0xC0) * 0x40 + (b.toNat - 0x80) = c.toNat
      omega
  obtain ⟨d, hd, hdn, hdbounds⟩ := exists_continuation (n / 0x40)
  by_cases h₃ : n < 0x10000
  · obtain ⟨a, ha, han⟩ := exists_toNat_eq (show 0xE0 + n / 0x1000 < 0x100 by omega)
    refine ⟨a, [d, b], _, ?_, by omega, begin?_three (by omega), .next ?_ ?_ (Nat.succ_ne_zero 0)
      (.of_last hbounds rfl ?_)⟩
    · rw [octets, hn, encodeScalar, if_neg (by omega), if_neg h₂, if_pos h₃, ← ha, ← hb, ← hd]
      rfl
    · show (if a.toNat = 0xE0 then 0xA0 else 0x80) ≤ d.toNat
      split <;> omega
    · show d.toNat ≤ if a.toNat = 0xED then 0x9F else 0xBF
      split <;> omega
    · show ((a.toNat - 0xE0) * 0x40 + (d.toNat - 0x80)) * 0x40 + (b.toNat - 0x80) = c.toNat
      omega
  · obtain ⟨e, he, hen, hebounds⟩ := exists_continuation (n / 0x1000)
    obtain ⟨a, ha, han⟩ := exists_toNat_eq (show 0xF0 + n / 0x40000 < 0x100 by omega)
    refine ⟨a, [e, d, b], _, ?_, by omega, begin?_four (by omega), .next ?_ ?_ (Nat.succ_ne_zero 1)
      (.next hdbounds.1 hdbounds.2 (Nat.succ_ne_zero 0) (.of_last hbounds rfl ?_))⟩
    · rw [octets, hn, encodeScalar, if_neg (by omega), if_neg h₂, if_neg h₃, ← ha, ← hb, ← hd, ← he]
      rfl
    · show (if a.toNat = 0xF0 then 0x90 else 0x80) ≤ e.toNat
      split <;> omega
    · show e.toNat ≤ if a.toNat = 0xF4 then 0x8F else 0xBF
      split <;> omega
    · show (((a.toNat - 0xF0) * 0x40 + (e.toNat - 0x80)) * 0x40 + (d.toNat - 0x80)) * 0x40 +
        (b.toNat - 0x80) = c.toNat
      omega

/-! ## The round trip -/

theorem octets_of_lt {c : Char} (h : c.toNat < 0x80) : octets c = [UInt8.ofNat c.toNat] := by
  rw [octets, encodeScalar, if_pos h]
  rfl

/-- The octets of a character are decoded to it, whatever follows. -/
theorem decodeFrom_octets (position : Nat) (c : Char) (bs : List UInt8) :
    ∃ position', decodeFrom position none (octets c ++ bs) =
      (decodeFrom position' none bs).map (c :: ·) := by
  by_cases h : c.toNat < 0x80
  · have hoctet : (UInt8.ofNat c.toNat).toNat = c.toNat :=
      UInt8.toNat_ofNat_of_lt (show c.toNat < 0x100 by omega)
    refine ⟨position + 1, ?_⟩
    rw [octets_of_lt h, List.singleton_append, decodeFrom, hoctet, if_pos h, Char.ofNat_toNat]
  · obtain ⟨a, tail, p, hoctets, ha, hp, htail⟩ := exists_completes position (Nat.le_of_not_lt h)
    refine ⟨position + 1 + tail.length, ?_⟩
    rw [hoctets, List.cons_append, decodeFrom, if_neg (Nat.not_lt.mpr ha), hp]
    exact decodeFrom_append_of_completes htail (position + 1) bs

theorem decodeFrom_encode (position : Nat) (cs : List Char) :
    decodeFrom position none (encode cs) = .ok cs := by
  induction cs generalizing position with
  | nil => rfl
  | cons c cs ih =>
    obtain ⟨position', hc⟩ := decodeFrom_octets position c (encode cs)
    rw [encode_cons, hc, ih]
    rfl

/-- Octets that are decoded are those of the text. By recursion on the octets: each character takes
at least one of them. -/
theorem eq_encode_of_decodeFrom {bs : List UInt8} {cs : List Char} {position : Nat}
    (h : decodeFrom position none bs = .ok cs) : bs = encode cs := by
  match bs with
  | [] =>
    cases h
    rfl
  | a :: bs =>
    rw [decodeFrom] at h
    split at h
    · rename_i ha
      cases hrest : decodeFrom (position + 1) none bs with
      | error f =>
        rw [hrest] at h
        cases h
      | ok cs' =>
        rw [hrest] at h
        cases h
        have hnat : (Char.ofNat a.toNat).toNat = a.toNat := toNat_ofNat (by omega)
        rw [encode_cons, octets_of_lt (by rwa [hnat]), hnat, UInt8.ofNat_toNat,
          ← eq_encode_of_decodeFrom hrest]
        rfl
    · split at h
      · rename_i p hp
        obtain ⟨tail, rest, c, cs', rfl, hc, rfl, position', hrest⟩ := completes_of_decodeFrom h
        rw [encode_cons, octets_of_completes hp hc, ← eq_encode_of_decodeFrom hrest]
        rfl
      · cases h
  termination_by bs.length

/-- **A text is decoded from its octets.** -/
theorem decode_encode (cs : List Char) : decode (encode cs) = .ok cs :=
  decodeFrom_encode 0 cs

/-- **Octets are decoded to a text** just if they are its octets. -/
theorem decode_eq_ok_iff {bs : List UInt8} {cs : List Char} :
    decode bs = .ok cs ↔ bs = encode cs :=
  ⟨eq_encode_of_decodeFrom, fun h => h ▸ decode_encode cs⟩

end BitReaders.Utf8
