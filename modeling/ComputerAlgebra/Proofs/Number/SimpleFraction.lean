import ComputerAlgebra.Number.Literal
import ComputerAlgebra.Proofs.BigFloat.Nearest
import ComputerAlgebra.Proofs.Computation
import ComputerAlgebra.Proofs.Fraction.Nearby
import ComputerAlgebra.Proofs.Number.Recognition

/-!
Simple fractions are recognised. Under the default settings a float is exchanged for a fraction that is
near it, if the fraction has few and small partial quotients: a whole number is the nearest one, any
other fraction keeps away from the whole numbers and is found by the search.
-/

namespace ComputerAlgebra

open BigFloat (Short absDyadic magnitude magnitude_bounds nearestInt nearestInt_near roundDyadic round_error
  round_short short_distance)
open Fraction (Expands order_lt toRat_absDyadic)

-- The digits of the settings are compared as they are written, never computed.
attribute [local irreducible] Config.bits

def Config.defaultTolerance : Dyadic := BigFloat.ofRat Config.default.bits (1 / tenTo 16)

def Config.defaultSearch : Fraction.Search :=
  ⟨Config.default.bits, .finite Config.defaultTolerance, .finite (tenTo 8 : Int)⟩

theorem Config.default_bits : Config.default.bits = 336 := by decide +kernel

theorem tenTo_eq (n : Nat) : tenTo n = 10 ^ n := rfl

theorem Config.short_defaultTolerance : Short Config.default.bits Config.defaultTolerance :=
  (BigFloat.short_roundQuotient (Config.default.bits : BigFloat.Rounding) _
    (1 / tenTo 16 : ℚ).den_pos).shiftRight _

theorem Config.default_error (q : ℚ) :
    |(BigFloat.ofRat Config.default.bits q).toRat - q| ≤ 3 * |q| / 2 ^ 200 := by
  refine (BigFloat.ofRat_error q).trans ?_
  gcongr
  · norm_num
  · rw [default_bits]
    norm_num

theorem Config.defaultSearch_usual : Config.defaultSearch.Usual Config.defaultTolerance := by
  have value : (1 : ℚ) / tenTo 16 = 1 / 10 ^ 16 := by rw [tenTo_eq]; norm_num
  have error := Config.default_error (1 / tenTo 16)
  change |Config.defaultTolerance.toRat - _| ≤ _ at error
  have noise : 3 * |(1 : ℚ) / 10 ^ 16| / 2 ^ 200 ≤ 1 / 10 ^ 20 := by norm_num
  rw [value] at error
  obtain ⟨below, above⟩ := abs_le.mp (error.trans noise)
  refine ⟨?_, rfl, ?_, ?_, rfl⟩
  · change 320 ≤ Config.default.bits
    rw [Config.default_bits]
    norm_num
  · linarith
  · linarith

namespace RealNumber
variable {v : Dyadic} {q : ℚ} {m : Int}

open Config (defaultSearch defaultTolerance defaultSearch_usual short_defaultTolerance default_reads
  default_bits)

/-- How near a float has to be to a fraction, and how simple the fraction, so that the float is recognised
as the fraction: an error of the float grows with the square of the denominator. -/
structure Near (part : Int) (k : Nat) (v : Dyadic) (q : ℚ) : Prop where
  expands : Expands part k q
  moderate : q.den ≤ 10 ^ 30
  close : |v.toRat - q| * q.den ^ 2 ≤ 99 / 10 ^ 18

theorem Near.distance {part : Int} {k : Nat} (near : Near part k v q) : |v.toRat - q| ≤ 99 / 10 ^ 18 := by
  have denominator : (1 : ℚ) ≤ q.den ^ 2 := one_le_pow₀ (by exact_mod_cast q.den_pos)
  exact (le_mul_of_one_le_right (abs_nonneg _) denominator).trans near.close

theorem magnitude_lt (size : |v.toRat| < 2 ^ 200) : magnitude v < (Config.default.bits : Int) - 32 := by
  by_cases zero : v = 0
  · subst zero
    rw [default_bits]
    decide
  have low := (magnitude_bounds zero).1.trans_lt size
  rw [← zpow_natCast, zpow_lt_zpow_iff_right₀ one_lt_two] at low
  rw [default_bits]
  omega

theorem ofDyadic_large {c : Config} (nonzero : v ≠ 0) (large : (c.bits : Int) - 32 ≤ magnitude v) :
    ofDyadic c v = .ok (.float v) := by
  unfold ofDyadic
  rw [if_neg nonzero, if_pos large]
  rfl

/-- A float with digits after the point is compared with the nearest whole number, and searched. -/
theorem ofDyadic_searched (nonzero : v ≠ 0) (shown : magnitude v < (Config.default.bits : Int) - 32) :
    ofDyadic .default v =
      if absDyadic (roundDyadic Config.default.bits (v - (nearestInt v : Dyadic))) < defaultTolerance then
        .ok (.rational (nearestInt v))
      else (recover? .default defaultTolerance v).map fun found => found.elim (.float v) .rational := by
  have read : tolerance .default = pure defaultTolerance := tolerance_reads default_reads
  unfold ofDyadic
  rw [if_neg nonzero, if_neg (not_le.mpr shown), read, pure_bind]
  dsimp only
  split
  · rfl
  · cases recover? .default defaultTolerance v with
    | error f => rfl
    | ok found => cases found <;> rfl

/-- What is larger than the largest partial quotient is not searched. -/
theorem recover?_eq : recover? .default defaultTolerance v =
    if 10 ^ 8 < |(roundDyadic Config.default.bits v).toRat| then .ok none else defaultSearch.run 15 v := by
  have part : Config.default.partBound = pure (.finite (tenTo 8 : Int)) := default_reads.part
  have depth : Config.default.searchDepth = pure 15 := default_reads.depth
  have excessive : (BigFloat.finite (tenTo 8 : Int)).order
      (.finite (absDyadic (roundDyadic Config.default.bits v))) = .lt ↔
        10 ^ 8 < |(roundDyadic Config.default.bits v).toRat| := by
    rw [order_lt, toRat_absDyadic, Dyadic.toRat_intCast, tenTo_eq]
    norm_num
  unfold recover?
  rw [part, pure_bind]
  dsimp only
  split
  · next large =>
    rw [if_pos (excessive.mp (by simpa using large))]
    rfl
  · next small =>
    rw [if_neg fun large => small (by simpa using excessive.mpr large), depth, pure_bind]
    rfl

theorem rounding_unit (x : Dyadic) : |(roundDyadic Config.default.bits x).toRat - x.toRat| ≤ |x.toRat| / 10 ^ 96 :=
  (round_error x).trans (defaultSearch_usual.unit _)

/-- A float whose distance to a whole number is rounded to less than the tolerance is that number. -/
theorem ofDyadic_whole (shown : magnitude v < (Config.default.bits : Int) - 32) (near : |v.toRat - m| < 1 / 2)
    (small : |(roundDyadic Config.default.bits (v - (m : Dyadic))).toRat| < defaultTolerance.toRat) :
    ofDyadic .default v = .ok (.rational m) := by
  by_cases zero : v = 0
  · subst zero
    rw [Dyadic.toRat_zero, zero_sub, abs_neg] at near
    have below : |(m : ℚ)| < 1 := near.trans (by norm_num)
    have same : m = 0 := Int.abs_lt_one_iff.mp (by exact_mod_cast below)
    rw [same]
    rfl
  · rw [ofDyadic_searched zero shown, BigFloat.nearestInt_eq near, if_pos]
    rwa [← Dyadic.toRat_lt_toRat_iff, toRat_absDyadic]

section Digits
variable (digits : Short Config.default.bits v) (shown : magnitude v < (Config.default.bits : Int) - 32)
include digits shown

/-- The distance of a float of the working precision to the nearest whole number is exact. -/
theorem ofDyadic_close (near : |v.toRat - m| < defaultTolerance.toRat) :
    ofDyadic .default v = .ok (.rational m) := by
  have high := defaultSearch_usual.high
  have half : |v.toRat - m| < 1 / 2 := by linarith
  have kept : roundDyadic Config.default.bits (v - (m : Dyadic)) = v - (m : Dyadic) := by
    rw [← BigFloat.nearestInt_eq half]
    exact round_short _ Config.default.bits_pos (short_distance digits)
  refine ofDyadic_whole shown half ?_
  rwa [kept, Dyadic.toRat_sub, Dyadic.toRat_intCast]

/-- A float of the working precision that is at least the tolerance away from the whole numbers stays a
float, or becomes a fraction between the same whole numbers. -/
theorem ofDyadic_far (far : ∀ m : Int, defaultTolerance.toRat ≤ |v.toRat - m|) :
    ofDyadic .default v = .ok (.float v) ∨
      ∃ q, ofDyadic .default v = .ok (.rational q) ∧ ⌊v.toRat⌋ < q ∧ q < ⌊v.toRat⌋ + 1 := by
  have nonzero : v ≠ 0 := by
    rintro rfl
    have zero := far 0
    rw [Dyadic.toRat_zero, Int.cast_zero, sub_zero, abs_zero] at zero
    linarith [defaultSearch_usual.low]
  have apart : ¬ absDyadic (roundDyadic Config.default.bits (v - (nearestInt v : Dyadic))) < defaultTolerance := by
    rw [round_short _ Config.default.bits_pos (short_distance digits), ← Dyadic.toRat_lt_toRat_iff,
      toRat_absDyadic, Dyadic.toRat_sub, Dyadic.toRat_intCast, not_lt]
    exact far _
  obtain ⟨r, answer⟩ := Config.default_usable.answers v
  rw [ofDyadic_searched nonzero shown, if_neg apart] at answer ⊢
  cases searched : recover? .default defaultTolerance v with
  | error f => rw [searched] at answer; cases answer
  | ok found =>
    cases found with
    | none => exact .inl rfl
    | some q =>
      refine .inr ⟨q, rfl, ?_⟩
      rw [recover?_eq] at searched
      split at searched
      · cases searched
      · exact defaultSearch_usual.run_broken short_defaultTolerance far searched

end Digits

/-- A float near a whole number is that number, whatever its digits. -/
theorem ofDyadic_near_whole (near : |v.toRat - m| ≤ 99 / 10 ^ 18) (size : |m| ≤ 10 ^ 9) :
    ofDyadic .default v = .ok (.rational m) := by
  have bound : |(m : ℚ)| ≤ 10 ^ 9 := by exact_mod_cast size
  have moderate : |v.toRat| < 2 ^ 200 := by
    have triangle := abs_sub_abs_le_abs_sub v.toRat m
    have power : (10 : ℚ) ^ 9 + 1 < 2 ^ 200 := by norm_num
    linarith
  refine ofDyadic_whole (magnitude_lt moderate) (near.trans_lt (by norm_num)) ?_
  have error := rounding_unit (v - (m : Dyadic))
  rw [Dyadic.toRat_sub, Dyadic.toRat_intCast] at error
  have noise : |v.toRat - m| / 10 ^ 96 ≤ 99 / 10 ^ 18 / 10 ^ 96 := by gcongr
  have low := defaultSearch_usual.low
  have triangle := abs_sub_abs_le_abs_sub (roundDyadic Config.default.bits (v - (m : Dyadic))).toRat (v.toRat - m)
  linarith

/-- A fraction that is not whole keeps away from the whole numbers below and above it. -/
theorem Near.gap (near : Near (10 ^ 8 - 1) 15 v q) (whole : Int.fract q ≠ 0) :
    1 / (10 ^ 8 + 1) ≤ Int.fract q ∧ 1 / (10 ^ 8 + 1) ≤ 1 - Int.fract q := by
  have low := near.expands.fract_low whole
  have high := near.expands.fract_high whole
  push_cast at low high
  have positive := Fraction.fract_pos whole
  constructor
  · rw [div_le_iff₀ (by norm_num)]
    linarith
  · rw [div_le_iff₀ (by norm_num)]
    linarith

/-- So does a float near it. -/
theorem Near.broken (near : Near (10 ^ 8 - 1) 15 v q) (whole : Int.fract q ≠ 0) (m : Int) :
    1 / (10 ^ 8 + 2) ≤ |v.toRat - m| := by
  obtain ⟨low, high⟩ := near.gap whole
  have split_off := Int.floor_add_fract q
  have distance := abs_le.mp near.distance
  have unit : (1 : ℚ) / (10 ^ 8 + 2) + 99 / 10 ^ 18 ≤ 1 / (10 ^ 8 + 1) := by norm_num
  rw [le_abs']
  rcases le_or_gt m ⌊q⌋ with below | above
  · have integer : (m : ℚ) ≤ ⌊q⌋ := by exact_mod_cast below
    exact .inr (by linarith)
  · have integer : (⌊q⌋ : ℚ) + 1 ≤ m := by exact_mod_cast above
    exact .inl (by linarith)

/-- A float near a simple fraction is recognised as the fraction. -/
theorem ofDyadic_near (near : Near (10 ^ 8 - 1) 15 v q) : ofDyadic .default v = .ok (.rational q) := by
  have first : |⌊q⌋| ≤ 10 ^ 8 - 1 := near.expands.1
  by_cases whole : Int.fract q = 0
  · have same : ((⌊q⌋ : Int) : ℚ) = q := by
      have split_off := Int.floor_add_fract q
      rwa [whole, add_zero] at split_off
    have distance := near.distance
    rw [← same] at distance ⊢
    exact ofDyadic_near_whole distance (first.trans (by norm_num))
  have apart := near.broken whole
  have nonzero : v ≠ 0 := by
    rintro rfl
    have zero := apart 0
    rw [Dyadic.toRat_zero, Int.cast_zero, sub_zero, abs_zero] at zero
    norm_num at zero
  -- Its size is below the largest partial quotient, since the next whole number is not larger.
  have size : |v.toRat| ≤ 10 ^ 8 - 1 / 10 ^ 9 := by
    have distance := abs_le.mp near.distance
    obtain ⟨low, high⟩ := abs_le.mp first
    have bottom : -(10 ^ 8 - 1 : ℚ) ≤ ⌊q⌋ := by exact_mod_cast low
    have top : (⌊q⌋ : ℚ) ≤ 10 ^ 8 - 1 := by exact_mod_cast high
    have split_off := Int.floor_add_fract q
    have positive := Fraction.fract_pos whole
    have gap := (near.gap whole).2
    have unit : (1 : ℚ) / 10 ^ 9 + 99 / 10 ^ 18 ≤ 1 / (10 ^ 8 + 1) := by norm_num
    exact abs_le.mpr ⟨by linarith, by linarith⟩
  have moderate : |v.toRat| < 2 ^ 200 := size.trans_lt (by norm_num)
  have far : ¬ absDyadic (roundDyadic Config.default.bits (v - (nearestInt v : Dyadic))) < defaultTolerance := by
    rw [← Dyadic.toRat_lt_toRat_iff, toRat_absDyadic, not_lt]
    have error := rounding_unit (v - (nearestInt v : Dyadic))
    rw [Dyadic.toRat_sub, Dyadic.toRat_intCast, abs_sub_comm] at error
    have half := nearestInt_near v
    have noise : |v.toRat - nearestInt v| / 10 ^ 96 ≤ 1 / 2 / 10 ^ 96 := by gcongr
    have high := defaultSearch_usual.high
    have triangle := abs_sub_abs_le_abs_sub (v.toRat - nearestInt v)
      (roundDyadic Config.default.bits (v - (nearestInt v : Dyadic))).toRat
    have least := apart (nearestInt v)
    have budget : (10001 : ℚ) / 10 ^ 20 + 1 / 2 / 10 ^ 96 ≤ 1 / (10 ^ 8 + 2) := by norm_num
    linarith
  have rounded : |(roundDyadic Config.default.bits v).toRat| ≤ 10 ^ 8 := by
    have triangle := abs_sub_abs_le_abs_sub (roundDyadic Config.default.bits v).toRat v.toRat
    have noise : |v.toRat| / 10 ^ 96 ≤ 10 ^ 8 / 10 ^ 96 := by
      gcongr
      linarith
    have budget : (10 : ℚ) ^ 8 / 10 ^ 96 ≤ 1 / 10 ^ 9 := by norm_num
    linarith [rounding_unit v]
  rw [ofDyadic_searched nonzero (magnitude_lt moderate), if_neg far, recover?_eq, if_neg (not_lt.mpr rounded)]
  have found := defaultSearch_usual.run_near 15 near.expands near.moderate near.close (by norm_num)
  change defaultSearch.run 15 v = _ at found
  rw [found]
  rfl

end RealNumber

theorem Number.ofLiteral_float {v : Dyadic} {r : RealNumber} (found : RealNumber.ofDyadic .default v = .ok r)
    (u : FloatUnit) :
    Number.ofLiteral .default (.float (.finite v)) u = .ok (.real r) (.ofConfig .default) := by
  have settled := Computation.settle_eq Config.default_reads.precise u
  have computed : RealNumber.ofLiteral .default (.float (.finite v)) u = .ok r (.ofConfig .default) := by
    refine (Computation.bind_ok settled).trans ?_
    change (liftM (RealNumber.ofDyadic .default v) : Computation RealNumber) _ = _
    rw [found]
    rfl
  exact Computation.bind_ok computed

section Simple
variable {a : Int} {q : Nat} (positive : 1 ≤ q) (small : q ≤ 1000)
include positive

theorem den_simple (lowest : a.natAbs.Coprime q) : ((a : ℚ) / q).den = q := by
  have lowest' : a.natAbs.Coprime (q : Int).natAbs := lowest
  have den := Rat.den_div_eq_of_coprime (show (0 : Int) < q by omega) lowest'
  exact_mod_cast den

theorem floor_simple (size : |a| ≤ 10 ^ 7 * q) : |⌊(a : ℚ) / q⌋| ≤ 10 ^ 7 := by
  have unit : (0 : ℚ) < q := by exact_mod_cast positive
  obtain ⟨below, above⟩ := abs_le.mp size
  have low : -(10 : ℚ) ^ 7 ≤ a / q := by
    rw [le_div_iff₀ unit, neg_mul]
    exact_mod_cast below
  have high : (a : ℚ) / q ≤ 10 ^ 7 := by
    rw [div_le_iff₀ unit]
    exact_mod_cast above
  have least : -10 ^ 7 ≤ ⌊(a : ℚ) / q⌋ := Int.le_floor.mpr (by exact_mod_cast low)
  have greatest : ⌊(a : ℚ) / q⌋ ≤ 10 ^ 7 := by
    exact_mod_cast (Int.floor_le _).trans high
  exact abs_le.mpr ⟨least, greatest⟩

include small

/-- A denominator of at most 1000 is below the seventeenth Fibonacci number, so the expansion has at most
fifteen partial quotients. -/
theorem expands_simple (lowest : a.natAbs.Coprime q) (size : |a| ≤ 10 ^ 7 * q) :
    Expands (10 ^ 8 - 1) 15 ((a : ℚ) / q) := by
  have denominator := den_simple positive lowest
  refine .of_den 14 ((floor_simple positive size).trans (by norm_num)) ?_ ?_
  · rw [denominator]
    omega
  · rw [denominator]
    have fib : Nat.fib (14 + 3) = 1597 := by decide
    omega

end Simple

/-- Within 2⁻²⁰⁰ of a fraction in lowest terms, with a denominator of at most 1000 and a size of at most ten
million, every float becomes the fraction under the default settings: an integer where the denominator
is one. -/
theorem Number.simple_fraction_recovered {a : Int} {q : Nat} (positive : 1 ≤ q) (small : q ≤ 1000)
    (lowest : a.natAbs.Coprime q) (size : |a| ≤ 10 ^ 7 * q) {v : Dyadic}
    (near : |v.toRat - a / q| ≤ 1 / 2 ^ 200) :
    Succeeds (Number.ofLiteral .default (.float (.finite v))) fun z =>
      z = .ofRat (a / q) ∧ (q = 1 → z.integer? = some a) := by
  have denominator := den_simple positive lowest
  have recognised : RealNumber.ofDyadic .default v = .ok (.rational (a / q)) := by
    refine RealNumber.ofDyadic_near ⟨expands_simple positive small lowest size, ?_, ?_⟩
    · rw [denominator]
      omega
    · rw [denominator]
      have square : (q : ℚ) ^ 2 ≤ 1000 ^ 2 := by
        gcongr
        exact_mod_cast small
      calc |v.toRat - a / q| * (q : ℚ) ^ 2 ≤ 1 / 2 ^ 200 * 1000 ^ 2 := by gcongr
        _ ≤ 99 / 10 ^ 18 := by norm_num
  refine fun u => ⟨_, _, Number.ofLiteral_float recognised u, rfl, fun whole => ?_⟩
  subst whole
  change (if ((a : ℚ) / (1 : Nat)).den = 1 then some ((a : ℚ) / (1 : Nat)).num else none) = some a
  rw [if_pos denominator, Nat.cast_one, div_one, Rat.num_intCast]

/-- A third is recovered from its nearest float. -/
theorem Number.simple_fraction_recovered_third :
    |(BigFloat.ofRat Config.default.bits ((1 : Int) / (3 : Nat))).toRat - (1 : Int) / (3 : Nat)| ≤ 1 / 2 ^ 200 ∧
    Succeeds (Number.ofLiteral .default
        (.float (.finite (BigFloat.ofRat Config.default.bits ((1 : Int) / (3 : Nat))))))
      fun z => z = .ofRat ((1 : Int) / (3 : Nat)) ∧ (3 = 1 → z.integer? = some 1) := by
  have near : |(BigFloat.ofRat Config.default.bits ((1 : Int) / (3 : Nat))).toRat - (1 : Int) / (3 : Nat)| ≤
      1 / 2 ^ 200 := by
    refine (Config.default_error _).trans (le_of_eq ?_)
    norm_num [abs_of_pos]
  exact ⟨near, simple_fraction_recovered (by norm_num) (by norm_num) (by decide) (by norm_num) near⟩

end ComputerAlgebra
