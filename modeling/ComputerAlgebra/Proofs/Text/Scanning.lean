import ComputerAlgebra.Expr.Text
import Mathlib.Algebra.Order.Field.Rat
import Mathlib.Tactic.Ring

/-!
The pieces of the text of an expression. Blanks only separate; parentheses and minus signs stand for
themselves, and what is left is words: names, numbers and the signs of the other operators. A fraction is
one word, since nothing stands around its bar. Texts that meet at the end of a word are scanned apart, and
the word of a fraction reads back as the fraction.
-/

namespace ComputerAlgebra

inductive Token where
  | word (text : List Char)
  | minus | opening | closing
deriving DecidableEq

namespace Token

def isWordChar (c : Char) : Bool := c ≠ ' ' && c ≠ '(' && c ≠ ')' && c ≠ '-'

/-- Puts a character of a word in front; it may join the word that follows. -/
def attach (c : Char) (joins : Bool) : List Token → List Token
  | .word w :: tokens => if joins then .word (c :: w) :: tokens else .word [c] :: .word w :: tokens
  | tokens => .word [c] :: tokens

def scan : List Char → List Token
  | [] => []
  | c :: rest =>
    if c = ' ' then scan rest
    else if c = '(' then .opening :: scan rest
    else if c = ')' then .closing :: scan rest
    else if c = '-' then .minus :: scan rest
    else attach c (rest.head?.any isWordChar) (scan rest)

@[simp] theorem scan_nil : scan [] = [] := rfl

@[simp] theorem scan_blank (rest : List Char) : scan (' ' :: rest) = scan rest := by simp [scan]

@[simp] theorem scan_opening (rest : List Char) : scan ('(' :: rest) = .opening :: scan rest := by
  simp [scan]

@[simp] theorem scan_closing (rest : List Char) : scan (')' :: rest) = .closing :: scan rest := by
  simp [scan]

@[simp] theorem scan_minus (rest : List Char) : scan ('-' :: rest) = .minus :: scan rest := by
  simp [scan]

theorem scan_wordChar {c : Char} (word : isWordChar c = true) (rest : List Char) :
    scan (c :: rest) = attach c (rest.head?.any isWordChar) (scan rest) := by
  obtain ⟨⟨⟨blank, opening⟩, closing⟩, minus⟩ :
      ((c ≠ ' ' ∧ c ≠ '(') ∧ c ≠ ')') ∧ c ≠ '-' := by
    simpa [isWordChar] using word
  simp [scan, blank, opening, closing, minus]

@[simp] theorem attach_apart (c : Char) (tokens : List Token) :
    attach c false tokens = .word [c] :: tokens := by
  rcases tokens with _ | ⟨_ | _ | _ | _, tokens⟩ <;> rfl

/-- A text that starts with a character of a word starts with a word. -/
theorem scan_starts {cs : List Char} (start : cs.head?.any isWordChar = true) :
    ∃ w tokens, scan cs = .word w :: tokens := by
  cases cs with
  | nil => simp at start
  | cons c rest =>
    rw [scan_wordChar (by simpa using start)]
    cases rest.head?.any isWordChar with
    | false => exact ⟨[c], scan rest, attach_apart c _⟩
    | true => rcases scan rest with _ | ⟨_ | _ | _ | _, tokens⟩ <;> exact ⟨_, _, rfl⟩

/-- No word goes on into a text that starts with none of its characters. -/
theorem scan_append (xs : List Char) {ys : List Char} (apart : ys.head?.any isWordChar = false) :
    scan (xs ++ ys) = scan xs ++ scan ys := by
  induction xs with
  | nil => rfl
  | cons c xs ih =>
    have joined : (xs ++ ys).head?.any isWordChar = xs.head?.any isWordChar := by
      cases xs with
      | nil => simpa using apart
      | cons => rfl
    by_cases blank : c = ' '
    · simp [blank, ih]
    by_cases opening : c = '('
    · simp [opening, ih]
    by_cases closing : c = ')'
    · simp [closing, ih]
    by_cases minus : c = '-'
    · simp [minus, ih]
    have word : isWordChar c = true := by simp [isWordChar, blank, opening, closing, minus]
    rw [List.cons_append, scan_wordChar word, scan_wordChar word, ih, joined]
    cases joins : xs.head?.any isWordChar with
    | false => simp
    | true =>
      obtain ⟨w, tokens, starts⟩ := scan_starts joins
      simp [starts, attach]

theorem scan_word {w : List Char} (nonempty : w ≠ []) (word : ∀ c ∈ w, isWordChar c = true) :
    scan w = [.word w] := by
  induction w with
  | nil => exact absurd rfl nonempty
  | cons c rest ih =>
    rw [scan_wordChar (word c (by simp))]
    cases rest with
    | nil => rfl
    | cons d rest =>
      rw [ih (by simp) fun x member => word x (by simp [member])]
      simp [attach, word d (by simp)]

/-! Numbers -/

def isNumeral (w : List Char) : Bool := w.head?.any Char.isDigit

/-- The fraction that a word of digits, with a bar among them or without, stands for. -/
def fraction (w : List Char) : Rat :=
  Nat.ofDigitChars 10 (w.takeWhile Char.isDigit) 0 /
    match w.dropWhile Char.isDigit with
    | _ :: below => (Nat.ofDigitChars 10 below 0 : Rat)
    | [] => 1

theorem isDigit_of_mem {n : Nat} : ∀ c ∈ Nat.toDigits 10 n, c.isDigit = true :=
  fun _ member => Nat.isDigit_of_mem_toDigits (by decide) (by decide) member

theorem isWordChar_of_isDigit {c : Char} (digit : c.isDigit = true) : isWordChar c = true := by
  simp only [isWordChar, Bool.and_eq_true, decide_eq_true_eq]
  refine ⟨⟨⟨?_, ?_⟩, ?_⟩, ?_⟩ <;> rintro rfl <;> exact absurd digit (by decide)

/-- The digits of the numerator, and behind a bar those of the denominator unless that is one. -/
theorem fractionText_toList {q : Rat} (nonneg : 0 ≤ q) :
    (Config.fractionText q).toList =
      Nat.toDigits 10 q.num.natAbs ++ if q.den = 1 then [] else '/' :: Nat.toDigits 10 q.den := by
  obtain ⟨n, whole⟩ := Int.eq_ofNat_of_zero_le (Rat.num_nonneg.mpr nonneg)
  have numerator : q.num.repr.toList = Nat.toDigits 10 q.num.natAbs := by
    rw [whole]
    exact (congrArg String.toList Nat.repr_eq_ofList_toDigits).trans String.toList_ofList
  by_cases integer : q.den = 1
  · simp [Config.fractionText, integer, numerator]
  · simp [Config.fractionText, integer, numerator, Nat.repr_eq_ofList_toDigits]
    rfl

theorem fractionText_of_neg {q : Rat} (negative : q < 0) :
    (Config.fractionText q).toList = '-' :: (Config.fractionText (-q)).toList := by
  obtain ⟨n, whole⟩ := Int.eq_negSucc_of_lt_zero (Rat.num_neg.mpr negative)
  have numerator : q.num.repr.toList = '-' :: (-q.num).repr.toList := by
    rw [whole, Int.neg_negSucc]
    exact String.toList_append
  by_cases integer : q.den = 1
  · simp [Config.fractionText, integer, numerator]
  · simp [Config.fractionText, integer, numerator]

theorem scan_fractionText {q : Rat} (nonneg : 0 ≤ q) :
    scan (Config.fractionText q).toList = [.word (Config.fractionText q).toList] := by
  rw [fractionText_toList nonneg]
  refine scan_word (by simp [Nat.toDigits_ne_nil]) fun c member => ?_
  rcases List.mem_append.mp member with above | below
  · exact isWordChar_of_isDigit (isDigit_of_mem c above)
  · split at below
    · cases below
    · rcases List.mem_cons.mp below with rfl | below
      · decide
      · exact isWordChar_of_isDigit (isDigit_of_mem c below)

theorem isNumeral_fractionText {q : Rat} (nonneg : 0 ≤ q) :
    isNumeral (Config.fractionText q).toList = true := by
  rw [fractionText_toList nonneg, isNumeral]
  cases digits : Nat.toDigits 10 q.num.natAbs with
  | nil => exact absurd digits Nat.toDigits_ne_nil
  | cons c rest =>
    have first : c.isDigit = true := isDigit_of_mem c (by rw [digits]; simp)
    simpa using first

theorem fraction_fractionText {q : Rat} (nonneg : 0 ≤ q) :
    fraction (Config.fractionText q).toList = q := by
  have numerator : (q.num.natAbs : Rat) = q.num := by
    rw [← Int.cast_natCast, Int.natAbs_of_nonneg (Rat.num_nonneg.mpr nonneg)]
  have all : ∀ c ∈ Nat.toDigits 10 q.num.natAbs, c.isDigit = true := isDigit_of_mem
  rw [fractionText_toList nonneg, fraction]
  by_cases integer : q.den = 1
  · rw [if_pos integer, List.takeWhile_append_of_pos all, List.dropWhile_append_of_pos all,
      List.takeWhile_nil, List.dropWhile_nil, List.append_nil, Nat.ofDigitChars_toDigits (by decide) (by decide), numerator,
      div_one, Rat.coe_int_num_of_den_eq_one integer]
  · rw [if_neg integer, List.takeWhile_append_of_pos all, List.dropWhile_append_of_pos all]
    have bar : Char.isDigit '/' = false := by decide
    simp only [List.takeWhile_cons, List.dropWhile_cons, bar, Bool.false_eq_true, if_false, List.append_nil]
    rw [Nat.ofDigitChars_toDigits (by decide) (by decide),
      Nat.ofDigitChars_toDigits (by decide) (by decide), numerator, Rat.num_div_den]

end Token
end ComputerAlgebra
