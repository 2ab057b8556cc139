import ComputerAlgebra.Proofs.Binary64.Shortest
import ComputerAlgebra.Text.Decimal
import Mathlib.Algebra.Order.Field.Power
import Mathlib.Data.Rat.Lemmas
import Mathlib.Tactic.FieldSimp
import Mathlib.Tactic.Linarith
import Mathlib.Tactic.NormNum
import Mathlib.Tactic.Ring

/-!
The text of a double is a decimal with the digits that were found for it. Between 10⁻⁴ and 10¹⁶ it has a point
between digits, and it reads as the digits and their power of ten; elsewhere it has an exponent.
-/

namespace ComputerAlgebra

namespace Text

abbrev runValue (cs : List Char) : Nat := Nat.ofDigitChars 10 cs 0

def Digits (cs : List Char) : Prop := ∀ c ∈ cs, c.isDigit = true

theorem Digits.append {cs ds : List Char} (left : Digits cs) (right : Digits ds) : Digits (cs ++ ds) :=
  fun c member => (List.mem_append.mp member).elim (left c) (right c)

theorem Digits.zeros (n : Nat) : Digits (List.replicate n '0') := fun c member => by
  rw [List.eq_of_mem_replicate member]
  decide

theorem digitValue?_digit {c : Char} (digit : c.isDigit = true) :
    digitValue? c = some (c.toNat - '0'.toNat) := by
  obtain ⟨low, high⟩ := Char.isDigit_iff_toNat.mp digit
  have first : '0'.toNat = 48 := by decide
  have last : '9'.toNat = 57 := by decide
  rw [digitValue?, digitZeros, List.find?_cons_of_pos]
  · rfl
  · simp
    omega

theorem digitRun?_digits {cs : List Char} (digits : Digits cs) :
    digitRun? cs = some (cs.map fun c => c.toNat - '0'.toNat) := by
  fun_induction digitRun? cs with
  | case1 => rfl
  | case2 c => rw [digitValue?_digit (digits c (by simp))]; rfl
  | case3 c d rest v vs value run ih =>
    exact absurd (digits '_' (by simp)) (by decide)
  | case4 c d rest missing ih => exact absurd (digits '_' (by simp)) (by decide)
  | case5 c rest _ _ v vs run value ih =>
    rw [digitValue?_digit (digits c (by simp))] at value
    rw [ih fun d member => digits d (by simp [member])] at run
    cases value
    cases run
    rfl
  | case6 c rest _ _ missing ih =>
    have run := ih fun d member => digits d (by simp [member])
    exact absurd run (missing _ _ (digitValue?_digit (digits c (by simp))))

theorem digitsValue_digits (cs : List Char) :
    digitsValue (cs.map fun c => c.toNat - '0'.toNat) = runValue cs := by
  rw [digitsValue, List.foldl_map]
  rfl

/-- A run of digits goes on up to the first other character. -/
theorem spanDigits_digits {cs rest : List Char} (digits : Digits cs)
    (ends : ∀ c ∈ rest.head?, c ≠ '_' ∧ digitValue? c = none) : spanDigits (cs ++ rest) = (cs, rest) := by
  have inside : ∀ c ∈ cs, (c = '_' || (digitValue? c).isSome) = true := fun c member => by
    rw [digitValue?_digit (digits c member)]
    simp
  rw [spanDigits, List.span_eq_takeWhile_dropWhile, List.takeWhile_append_of_pos inside,
    List.dropWhile_append_of_pos inside]
  cases rest with
  | nil => simp
  | cons c rest =>
    obtain ⟨other, none⟩ := ends c rfl
    simp [other, none]

theorem strip_of_ends {cs : List Char} (first : ∀ c ∈ cs.head?, isBlank c = false)
    (last : ∀ c ∈ cs.getLast?, isBlank c = false) : strip cs = cs := by
  have kept {ds : List Char} (bound : ∀ c ∈ ds.head?, isBlank c = false) : ds.dropWhile isBlank = ds := by
    cases ds with
    | nil => rfl
    | cons d ds => rw [List.dropWhile_cons_of_neg]; simp [bound d rfl]
  rw [strip, kept first, kept (by rwa [List.head?_reverse]), List.reverse_reverse]

theorem isBlank_digit {c : Char} (digit : c.isDigit = true) : isBlank c = false := by
  obtain ⟨low, high⟩ := Char.isDigit_iff_toNat.mp digit
  have first : '0'.toNat = 48 := by decide
  have last : '9'.toNat = 57 := by decide
  simp [isBlank]
  omega

theorem ofDecimal_places (negative : Bool) (n places : Nat) :
    WrittenQuotient.ofDecimal ⟨negative, n, -places⟩ = ⟨negative, n, tenTo places⟩ := by
  have above : (-(places : Int)).toNat = 0 := by omega
  rw [WrittenQuotient.ofDecimal, above, neg_neg, Int.toNat_natCast]
  exact congrArg (WrittenQuotient.mk negative · (tenTo places)) (mul_one n)

theorem takeSign_decimal (negative : Bool) {whole fraction : List Char} (digits : Digits whole)
    (digits' : Digits fraction) (before : whole ≠ []) (after : fraction ≠ []) :
    takeSign (strip ((if negative then ['-'] else []) ++ whole ++ '.' :: fraction)) =
      (negative, whole ++ '.' :: fraction) := by
  obtain ⟨d, ds, rfl⟩ := List.exists_cons_of_ne_nil before
  have digit := digits d (by simp)
  have plain : d ≠ '-' ∧ d ≠ '+' := by
    constructor <;> rintro rfl <;> cases digit
  rw [strip_of_ends]
  · cases negative
    · simp [takeSign, plain]
    · rfl
  · cases negative
    · simp [isBlank_digit digit]
    · simp
      decide
  · obtain ⟨c, cs, rfl⟩ : ∃ c cs, fraction = cs ++ [c] := ⟨_, _, (List.dropLast_append_getLast after).symm⟩
    rw [← List.cons_append, ← List.append_assoc, List.getLast?_concat]
    intro c' member
    cases member
    exact isBlank_digit (digits' c (by simp))

/-- A decimal with digits on both sides of its point. -/
theorem read?_decimal (negative : Bool) {whole fraction : List Char} (digits : Digits whole)
    (digits' : Digits fraction) (before : whole ≠ []) (after : fraction ≠ []) :
    WrittenQuotient.read? (String.ofList ((if negative then ['-'] else []) ++ whole ++ '.' :: fraction)) =
      some ⟨negative, runValue (whole ++ fraction), tenTo fraction.length⟩ := by
  have point : ∀ c ∈ ('.' :: fraction).head?, c ≠ '_' ∧ digitValue? c = none := by
    intro c member
    cases member
    decide
  have span := spanDigits_digits digits point
  have span' := @spanDigits_digits fraction [] digits' (by simp)
  rw [List.append_nil] at span'
  have sign := takeSign_decimal negative digits digits' before after
  have value := digitsValue_digits (whole ++ fraction)
  rw [List.map_append] at value
  have unsigned : WrittenDecimal.readUnsigned? negative (whole ++ '.' :: fraction) =
      some ⟨negative, runValue (whole ++ fraction), -fraction.length⟩ := by
    simp only [WrittenDecimal.readUnsigned?, span, span', digitRun?_digits digits, digitRun?_digits digits',
      Option.bind_eq_bind, Option.bind_some, WrittenDecimal.readExponent?, WrittenDecimal.ofDigits, value]
    simp [before]
  simp only [WrittenQuotient.read?, String.toList_ofList, sign, span, unsigned]
  exact congrArg some (ofDecimal_places _ _ _)

theorem runValue_append (cs ds : List Char) :
    runValue (cs ++ ds) = 10 ^ ds.length * runValue cs + runValue ds := by
  rw [runValue, Nat.ofDigitChars_append, Nat.ofDigitChars_eq_ofDigitChars_zero]

theorem runValue_zeros (n : Nat) : runValue (List.replicate n '0') = 0 := by
  rw [runValue, Nat.ofDigitChars_replicate_zero, mul_zero]

end Text

namespace Binary64
open Text

/-- A decimal between the positional limits is written with digits on both sides of a point. -/
theorem layout_positional {kept : List Char} {position : Int} (digits : Digits kept) (some : kept ≠ [])
    (low : -4 < position) (high : position ≤ 16) :
    ∃ whole fraction, layout kept position = String.ofList (whole ++ '.' :: fraction) ∧
      (Digits whole ∧ whole ≠ []) ∧ (Digits fraction ∧ fraction ≠ []) ∧
      (runValue (whole ++ fraction) : ℚ) / 10 ^ fraction.length =
        runValue kept * 10 ^ (position - kept.length) := by
  have scaled {a b : Nat} {z : Int} {k : Nat} (power : z + k = b) :
      ((10 ^ b * a : Nat) : ℚ) / 10 ^ k = a * 10 ^ z := by
    rw [div_eq_iff (by positivity), mul_assoc, ← zpow_natCast, ← zpow_add₀ (by norm_num), power, zpow_natCast]
    push_cast
    ring
  rw [layout, if_pos ⟨low, high⟩]
  split
  · next below =>
    refine ⟨['0'], List.replicate (-position).toNat '0' ++ kept, rfl, ⟨Digits.zeros 1, by simp⟩,
      ⟨(Digits.zeros _).append digits, by simp [some]⟩, ?_⟩
    have value : runValue (['0'] ++ (List.replicate (-position).toNat '0' ++ kept)) =
        10 ^ 0 * runValue kept := by
      rw [← List.append_assoc, runValue_append, List.singleton_append, ← List.replicate_succ, runValue_zeros]
      ring
    rw [value]
    refine scaled ?_
    rw [List.length_append, List.length_replicate]
    push_cast
    omega
  · next above =>
    dsimp only
    rcases Nat.lt_or_ge position.toNat kept.length with inside | beyond
    · have whole : (kept.take position.toNat).length = position.toNat := List.length_take_of_le inside.le
      have rest : (kept.drop position.toNat).isEmpty = false := by
        rw [List.isEmpty_eq_false_iff, ← List.length_pos_iff, List.length_drop]
        omega
      rw [whole, Nat.sub_self, List.replicate_zero, List.append_nil, rest]
      refine ⟨_, _, rfl, ⟨fun c member => digits c (List.mem_of_mem_take member), ?_⟩,
        ⟨fun c member => digits c (List.mem_of_mem_drop member), ?_⟩, ?_⟩
      · rw [← List.length_pos_iff, whole]
        omega
      · rwa [← List.isEmpty_eq_false_iff]
      · have moved := scaled (a := runValue kept) (b := 0) (z := position - kept.length)
          (k := kept.length - position.toNat) (by omega)
        rw [pow_zero, one_mul] at moved
        rwa [if_neg (by simp), List.take_append_drop, List.length_drop]
    · have whole : kept.take position.toNat = kept := List.take_of_length_le beyond
      have rest : kept.drop position.toNat = [] := List.drop_of_length_le beyond
      rw [whole, rest]
      refine ⟨_, ['0'], rfl, ⟨digits.append (.zeros _), by simp [some]⟩, ⟨Digits.zeros 1, by simp⟩, ?_⟩
      have value : runValue (kept ++ List.replicate (position.toNat - kept.length) '0' ++ ['0']) =
          10 ^ (position.toNat - kept.length + 1) * runValue kept := by
        rw [List.append_assoc, ← List.replicate_succ', runValue_append, runValue_zeros, List.length_replicate,
          add_zero]
      rw [value]
      refine scaled ?_
      rw [List.length_singleton]
      omega

theorem layout_scientific {kept : List Char} {position : Int} (outside : ¬ (-4 < position ∧ position ≤ 16)) :
    'e' ∈ (layout kept position).toList := by
  rw [layout, if_neg outside]
  dsimp only
  rw [String.toList_ofList]
  simp

/-- What is left of the digits of a number when the zeros at its end are dropped. -/
theorem keptDigits_spec {n : Nat} (positive : 0 < n) :
    Digits (keptDigits n) ∧ keptDigits n ≠ [] ∧
      ∃ z, Nat.toDigits 10 n = keptDigits n ++ List.replicate z '0' := by
  have whole : Nat.toDigits 10 n =
      keptDigits n ++ ((Nat.toDigits 10 n).reverse.takeWhile (· = '0')).reverse := by
    rw [keptDigits, ← List.reverse_append, List.takeWhile_append_dropWhile, List.reverse_reverse]
  have zeros : ((Nat.toDigits 10 n).reverse.takeWhile (· = '0')).reverse =
      List.replicate ((Nat.toDigits 10 n).reverse.takeWhile (· = '0')).length '0' := by
    rw [← List.length_reverse]
    refine List.eq_replicate_of_mem fun c member => ?_
    have zero := List.mem_takeWhile_imp (List.mem_reverse.mp member)
    simpa using zero
  rw [zeros] at whole
  refine ⟨fun c member => ?_, fun none => ?_, _, whole⟩
  · refine Nat.isDigit_of_mem_toDigits (b := 10) (n := n) (by decide) le_rfl ?_
    rw [whole]
    exact List.mem_append_left _ member
  · -- Zeros alone would make the number zero.
    have value := @Nat.ofDigitChars_toDigits 10 n (by decide) le_rfl
    rw [whole, none, List.nil_append, Nat.ofDigitChars_replicate_zero, mul_zero] at value
    omega

/-- The point stands where the first digit has the place that the size of the number gives it. -/
theorem toDigits_bounds {n : Nat} (positive : 0 < n) (power : Int) :
    (10 : ℚ) ^ (power + (Nat.toDigits 10 n).length - 1) ≤ n * 10 ^ power ∧
      (n * 10 ^ power : ℚ) < 10 ^ (power + (Nat.toDigits 10 n).length) := by
  have some : 0 < (Nat.toDigits 10 n).length := Nat.length_toDigits_pos
  have unit : (0 : ℚ) < 10 ^ power := by positivity
  have high : n < 10 ^ (Nat.toDigits 10 n).length := (Nat.length_toDigits_le_iff (by decide) some).mp le_rfl
  have low : 10 ^ ((Nat.toDigits 10 n).length - 1) ≤ n := by
    rcases Nat.eq_or_lt_of_le some with one | more
    · rw [← one]
      exact positive
    · by_contra small
      have shorter := (Nat.length_toDigits_le_iff (b := 10) (by decide) (by omega)).mpr (not_le.mp small)
      omega
  generalize (Nat.toDigits 10 n).length = k at *
  constructor
  · rw [show power + k - 1 = (k - 1 : Nat) + power by omega, zpow_add₀ (by norm_num), zpow_natCast]
    exact mul_le_mul_of_nonneg_right (by exact_mod_cast low) unit.le
  · rw [add_comm, zpow_add₀ (by norm_num), zpow_natCast]
    exact mul_lt_mul_of_pos_right (by exact_mod_cast high) unit

/-- The zeros that are dropped are left to the place of the point. -/
theorem toDigits_value {n z : Nat} {kept : List Char}
    (whole : Nat.toDigits 10 n = kept ++ List.replicate z '0') (power : Int) :
    (n * 10 ^ power : ℚ) = runValue kept * 10 ^ (power + (Nat.toDigits 10 n).length - kept.length) := by
  have value := @Nat.ofDigitChars_toDigits 10 n (by decide) le_rfl
  rw [whole, ← runValue, runValue_append, runValue_zeros, add_zero, List.length_replicate] at value
  rw [whole, ← value, List.length_append, List.length_replicate]
  push_cast
  rw [mul_comm ((10 : ℚ) ^ z), mul_assoc, ← zpow_natCast, ← zpow_add₀ (by norm_num)]
  congr 2
  ring

section Render
variable {m n : Nat} {e power : Int} (nonzero : m ≠ 0)
  (found : shortest m e = (keptDigits n, power + (Nat.toDigits 10 n).length))
include nonzero found

theorem render_layout (negative : Bool) : (finite negative m e).render.toList =
    (if negative then ['-'] else []) ++ (layout (keptDigits n) (power + (Nat.toDigits 10 n).length)).toList := by
  rw [render, if_neg nonzero, found]
  dsimp only
  cases negative
  · rfl
  · exact String.toList_append

/-- A double from 10⁻⁴ on and below 10¹⁶ is written without an exponent, and its text reads as the decimal
that was found for it. -/
theorem render_positional (positive : 0 < n) (low : 1 / 10 ^ 4 ≤ (n * 10 ^ power : ℚ))
    (high : (n * 10 ^ power : ℚ) < 10 ^ 16) (negative : Bool) :
    'e' ∉ (finite negative m e).render.toList ∧
      ∃ w, WrittenQuotient.read? (finite negative m e).render = some w ∧
        w.toRat = if negative then -(n * 10 ^ power : ℚ) else n * 10 ^ power := by
  obtain ⟨digits, some, z, whole⟩ := keptDigits_spec positive
  obtain ⟨first, last⟩ := toDigits_bounds positive power
  have rendered := render_layout nonzero found negative
  have above : -4 < power + (Nat.toDigits 10 n).length := by
    have order : (10 : ℚ) ^ (-4 : Int) < 10 ^ (power + (Nat.toDigits 10 n).length) := by
      refine lt_of_le_of_lt ?_ last
      norm_num at low ⊢
      exact low
    exact (zpow_lt_zpow_iff_right₀ (by norm_num)).mp order
  have below : power + (Nat.toDigits 10 n).length - 1 < 16 := by
    have order : (10 : ℚ) ^ (power + (Nat.toDigits 10 n).length - 1) < 10 ^ (16 : Int) := by
      refine first.trans_lt ?_
      norm_num at high ⊢
      exact high
    exact (zpow_lt_zpow_iff_right₀ (by norm_num)).mp order
  obtain ⟨before, after, text, ⟨digits', some'⟩, ⟨digits'', some''⟩, value⟩ :=
    layout_positional digits some above (by omega)
  rw [text, String.toList_ofList, ← List.append_assoc] at rendered
  constructor
  · rw [rendered]
    have inside {cs : List Char} (digits : Digits cs) : 'e' ∉ cs := fun member =>
      absurd (digits 'e' member) (by decide)
    cases negative <;> simp [inside digits', inside digits'']
  · have same : (finite negative m e).render =
        String.ofList ((if negative then ['-'] else []) ++ before ++ '.' :: after) := by
      rw [← String.ofList_toList (s := (finite negative m e).render), rendered]
    rw [same, read?_decimal negative digits' digits'' some' some'']
    refine ⟨_, rfl, ?_⟩
    have number : (n * 10 ^ power : ℚ) = runValue (before ++ after) / tenTo after.length := by
      change _ = (runValue (before ++ after) : ℚ) / (10 ^ after.length : Nat)
      rw [Nat.cast_pow, Nat.cast_ofNat, value, toDigits_value whole]
    rw [number, WrittenQuotient.toRat, WrittenQuotient.toInt, Rat.mkRat_eq_div]
    cases negative
    · simp
    · simp [neg_div]

theorem render_scientific (positive : 0 < n) (high : (n * 10 ^ power : ℚ) < 1 / 10 ^ 4) (negative : Bool) :
    'e' ∈ (finite negative m e).render.toList := by
  have first := (toDigits_bounds positive power).1
  rw [render_layout nonzero found]
  refine List.mem_append_right _ (layout_scientific fun inside => ?_)
  have order : (10 : ℚ) ^ (power + (Nat.toDigits 10 n).length - 1) < 10 ^ (-4 : Int) := by
    refine first.trans_lt ?_
    norm_num at high ⊢
    exact high
  have below := (zpow_lt_zpow_iff_right₀ (by norm_num)).mp order
  omega

end Render

end Binary64
end ComputerAlgebra
