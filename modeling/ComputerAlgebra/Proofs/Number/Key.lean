import ComputerAlgebra.Expr.Key
import ComputerAlgebra.Proofs.Scope.FloatFree
import ComputerAlgebra.Proofs.Text.Scanning

/-!
Exact numbers by their texts in keys. The text of a number reads back as the number.
-/

namespace ComputerAlgebra

namespace NumberText

def readNat (cs : List Char) : Nat × List Char :=
  (Nat.ofDigitChars 10 (cs.takeWhile Char.isDigit) 0, cs.dropWhile Char.isDigit)

def readInt : List Char → Int × List Char
  | '-' :: cs => (-(readNat cs).1, (readNat cs).2)
  | cs => ((readNat cs).1, (readNat cs).2)

def readPart : List Char → RealNumber × List Char
  | '\'' :: cs => (.nan, cs.drop 4)
  | 'm' :: cs => (.infinity (cs[4]? = some '-'), cs.drop 10)
  | 'F' :: cs =>
    let (n, rest) := readInt (cs.drop 8)
    let (d, rest) := readNat (rest.drop 2)
    (.rational (n / d), rest.drop 1)
  | cs => (.rational (readInt cs).1, (readInt cs).2)

def readReal : List Char → RealNumber
  | 'n' :: _ => .nan
  | '+' :: _ => .infinity false
  | '-' :: 'i' :: _ => .infinity true
  | '-' :: cs => .rational (-(Token.fraction cs))
  | cs => .rational (Token.fraction cs)

def readComplex (cs : List Char) : Number :=
  let (re, rest) := readPart (cs.drop 1)
  .complex re (readPart (rest.drop 2)).1

variable {xs : List Char}

theorem readNat_digits (n : Nat) (stop : xs.head?.any Char.isDigit = false) :
    readNat (Nat.toDigits 10 n ++ xs) = (n, xs) := by
  have ends : xs.takeWhile Char.isDigit = [] ∧ xs.dropWhile Char.isDigit = xs := by
    cases xs with
    | nil => exact ⟨rfl, rfl⟩
    | cons c xs =>
      have other : c.isDigit = false := by simpa using stop
      simp [other]
  rw [readNat, List.takeWhile_append_of_pos Token.isDigit_of_mem,
    List.dropWhile_append_of_pos Token.isDigit_of_mem, ends.1, ends.2, List.append_nil,
    Nat.ofDigitChars_toDigits (by decide) (by decide)]

/-- The digits of a natural number do not start with a sign or a letter. -/
private theorem digits_start (n : Nat) : ∃ c cs, Nat.toDigits 10 n = c :: cs ∧ c.isDigit = true := by
  cases digits : Nat.toDigits 10 n with
  | nil => exact absurd digits Nat.toDigits_ne_nil
  | cons c cs => exact ⟨c, cs, rfl, Token.isDigit_of_mem c (by rw [digits]; simp)⟩

private theorem nat_repr (n : Nat) : n.repr.toList = Nat.toDigits 10 n :=
  (congrArg String.toList Nat.repr_eq_ofList_toDigits).trans String.toList_ofList

private theorem negSucc_repr (n : Nat) : (Int.negSucc n).repr.toList = '-' :: Nat.toDigits 10 (n + 1) := by
  rw [← nat_repr]
  exact String.toList_append

private theorem repr_start (n : Int) : ∃ c cs, n.repr.toList = c :: cs ∧ (c = '-' ∨ c.isDigit = true) := by
  cases n with
  | ofNat n =>
    obtain ⟨c, cs, start, digit⟩ := digits_start n
    exact ⟨c, cs, (nat_repr n).trans start, .inr digit⟩
  | negSucc n => exact ⟨'-', _, negSucc_repr n, .inl rfl⟩

theorem readInt_repr (n : Int) (stop : xs.head?.any Char.isDigit = false) :
    readInt (n.repr.toList ++ xs) = (n, xs) := by
  cases n with
  | ofNat n =>
    rw [show (Int.ofNat n).repr.toList = Nat.toDigits 10 n from nat_repr n, readInt, readNat_digits n stop]
    · rfl
    · obtain ⟨c, cs, start, digit⟩ := digits_start n
      rw [start]
      rintro rest ⟨⟩
      exact absurd digit (by decide)
  | negSucc n =>
    rw [negSucc_repr, List.cons_append, readInt, readNat_digits _ stop]
    rfl

/-- A text that starts with a sign or a digit is read as an integer. -/
private theorem readPart_int {cs : List Char} (start : ∃ c rest, cs = c :: rest ∧ (c = '-' ∨ c.isDigit = true)) :
    readPart cs = (.rational (readInt cs).1, (readInt cs).2) := by
  obtain ⟨c, rest, rfl, sign | digit⟩ := start
  · subst sign
    rfl
  · rw [readPart] <;> rintro other ⟨⟩ <;> exact absurd digit (by decide)

theorem readPart_partText {x : RealNumber} (exact : x.Exact) (u : FloatUnit)
    (stop : xs.head?.any Char.isDigit = false) : readPart ((x.partText u).toList ++ xs) = (x, xs) := by
  cases x with
  | float => cases exact
  | infinity s => cases s <;> simp [RealNumber.partText, readPart]
  | nan => simp [RealNumber.partText, readPart]
  | rational q =>
    by_cases whole : q.den = 1
    · have text : ((RealNumber.rational q).partText u).toList = q.num.repr.toList := by
        rw [RealNumber.partText, if_pos whole]
        rfl
      obtain ⟨c, cs, start, first⟩ := repr_start q.num
      rw [text, readPart_int ⟨c, cs ++ xs, by rw [start]; rfl, first⟩, readInt_repr q.num stop,
        Rat.coe_int_num_of_den_eq_one whole]
    · have text : ((RealNumber.rational q).partText u).toList = 'F' :: ("raction(".toList ++
          (q.num.repr.toList ++ (',' :: ' ' :: (Nat.toDigits 10 q.den ++ [')'])))) := by
        rw [RealNumber.partText, if_neg whole]
        simp
        rfl
      have below : readNat (Nat.toDigits 10 q.den ++ ')' :: xs) = (q.den, ')' :: xs) :=
        readNat_digits q.den rfl
      have above : readInt (q.num.repr.toList ++ ',' :: ' ' :: (Nat.toDigits 10 q.den ++ ')' :: xs)) =
          (q.num, ',' :: ' ' :: (Nat.toDigits 10 q.den ++ ')' :: xs)) := readInt_repr q.num rfl
      simp [text, readPart, above, below, Rat.num_div_den]

theorem readComplex_keyText {re im : RealNumber} (real : re.Exact) (imaginary : im.Exact) (u : FloatUnit) :
    readComplex ((Number.complex re im).keyText u).toList = .complex re im := by
  have text : ((Number.complex re im).keyText u).toList =
      '(' :: ((re.partText u).toList ++ (',' :: ' ' :: ((im.partText u).toList ++ [')']))) := by
    simp [Number.keyText]
    rfl
  have first : readPart ((re.partText u).toList ++ ',' :: ' ' :: ((im.partText u).toList ++ [')'])) =
      (re, ',' :: ' ' :: ((im.partText u).toList ++ [')'])) := readPart_partText real u rfl
  have second : readPart ((im.partText u).toList ++ [')']) = (im, [')']) := readPart_partText imaginary u rfl
  simp [text, readComplex, first, second]

theorem readReal_keyText {x : RealNumber} (exact : x.Exact) (u : FloatUnit) :
    readReal (x.keyText u).toList = x := by
  cases x with
  | float => cases exact
  | infinity s => cases s <;> simp [RealNumber.keyText, readReal]
  | nan => simp [RealNumber.keyText, readReal]
  | rational q =>
    have start {p : Rat} (nonneg : 0 ≤ p) :
        ∃ c cs, (Config.fractionText p).toList = c :: cs ∧ c.isDigit = true := by
      obtain ⟨c, cs, digits, digit⟩ := digits_start p.num.natAbs
      exact ⟨c, _, by rw [Token.fractionText_toList nonneg, digits]; rfl, digit⟩
    rw [RealNumber.keyText]
    by_cases negative : q < 0
    · obtain ⟨c, cs, text, digit⟩ := start (p := -q) (by linarith)
      have value := Token.fraction_fractionText (q := -q) (by linarith)
      rw [Token.fractionText_of_neg negative, readReal, value, neg_neg]
      rw [text]
      rintro rest ⟨⟩
      exact absurd digit (by decide)
    · have nonneg : 0 ≤ q := not_lt.mp negative
      obtain ⟨c, cs, text, digit⟩ := start nonneg
      rw [readReal, Token.fraction_fractionText nonneg]
      all_goals
        rw [text]
        rintro rest ⟨⟩
        exact absurd digit (by decide)

end NumberText

/-- Two exact numbers of one sort have the same key only if they are equal. -/
theorem Number.keyText_injective {z w : Number} (left : z.Exact) (right : w.Exact) (u : FloatUnit)
    (sort : z.kindName = w.kindName) (same : z.keyText u = w.keyText u) : z = w := by
  have complex (r : RealNumber) : r.kindName ≠ "Complex" := by
    cases r <;> simp only [RealNumber.kindName] <;> (try split) <;> decide
  cases z with
  | real x =>
    cases w with
    | real y =>
      have same' : x.keyText u = y.keyText u := same
      rw [← NumberText.readReal_keyText (x := x) left u, ← NumberText.readReal_keyText (x := y) right u, same']
    | complex => exact absurd sort (complex x)
  | complex re im =>
    cases w with
    | real y => exact absurd sort.symm (complex y)
    | complex re' im' =>
      have read : NumberText.readComplex ((Number.complex re im).keyText u).toList = .complex re im :=
        NumberText.readComplex_keyText (re_exact left) (im_exact left) u
      have read' : NumberText.readComplex ((Number.complex re' im').keyText u).toList = .complex re' im' :=
        NumberText.readComplex_keyText (re_exact right) (im_exact right) u
      rw [← read, same, read']

end ComputerAlgebra
