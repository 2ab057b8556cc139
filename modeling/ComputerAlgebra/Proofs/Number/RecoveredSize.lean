import ComputerAlgebra.Number.Literal
import ComputerAlgebra.Proofs.Computation
import ComputerAlgebra.Proofs.Fraction.Size
import ComputerAlgebra.Proofs.Number.Recognition

/-!
How large the parts of a recognised fraction can be. The settings bound each partial quotient, by the largest
one or by the reciprocal of the tolerance; the parts of the fraction stay below the continuant of that bound,
which is not the largest partial quotient itself.
-/

namespace ComputerAlgebra
open BigFloat
open Fraction (Search continuant wholePart order_lt of_bind_ok)

/-- Settings that pass their checks ask for fifteen digits at least. -/
theorem Config.fifteen_le_digits {c : Config} (precise : c.precisionFault? = none) : 15 ≤ c.digits := by
  have enough : c.precision.below? 15 = some false := by
    have sound := c.sound
    unfold Settings.fault? Settings.check Settings.isBelow at sound
    cases below : c.precision.below? 15 with
    | none =>
      rw [below] at sound
      cases sound
    | some b =>
      cases b with
      | false => rfl
      | true =>
        rw [below] at sound
        cases sound
  have floored {x : Dyadic} (least : (BigFloat.finite x).order (.finite (15 : Int)) ≠ .lt) :
      15 ≤ (floorDyadic x).toNat := by
    rw [Ne, order_lt, not_lt, Dyadic.toRat_intCast] at least
    have floor : (15 : Int) ≤ ⌊x.toRat⌋ := Int.le_floor.mpr least
    rw [Fraction.floorDyadic_eq]
    omega
  unfold Config.digits
  unfold Config.precisionFault? at precise
  generalize c.precision = setting at enough precise
  cases setting with
  | int n =>
    have least : ¬ n < 15 := by simpa [Literal.below?, Literal.int?] using enough
    refine floored ?_
    rw [Ne, order_lt, Dyadic.toRat_intCast, Dyadic.toRat_intCast]
    exact_mod_cast least
  | bool b => cases b <;> simp [Literal.below?, Literal.int?] at enough
  | fraction q =>
    have least : ¬ q < 15 := by simpa [Literal.below?, Literal.int?] using enough
    have floor : (15 : Int) ≤ q.num / q.den := by
      rw [← Rat.floor_intCast_div_natCast, Rat.num_div_den]
      exact Int.le_floor.mpr (not_lt.mp least)
    change 15 ≤ (q.num / q.den).toNat
    omega
  | double x =>
    have least : x.toBigFloat.order (.finite (15 : Int)) ≠ .lt := by
      simpa [Literal.below?, Literal.int?, Literal.float?] using enough
    cases x with
    | finite s n k => exact floored least
    | infinity s => cases precise
    | nan => cases precise
  | float x =>
    have least : x.order (.finite (15 : Int)) ≠ .lt := by
      simpa [Literal.below?, Literal.int?, Literal.float?] using enough
    cases x with
    | finite x => exact floored least
    | infinity s => cases precise
    | nan => cases precise
  | none | complexDouble | text | complexFloat | list =>
    simp [Literal.below?, Literal.int?, Literal.float?] at enough

theorem Config.fifty_three_le_bits {c : Config} (precise : c.precisionFault? = none) : 53 ≤ c.bits := by
  have digits := Config.fifteen_le_digits precise
  have low : (53 : Int) ≤
      Direction.nearest.quotient ((c.digits + 1 : Nat) * 33219280948873626) (tenTo 16) := by
    apply Direction.le_quotient .nearest (by decide)
    have power : tenTo 16 = 10000000000000000 := by decide
    rw [power]
    push_cast
    omega
  simp only [Direction.quotient] at low
  rw [Config.bits, Config.bitsOf]
  omega

-- The digits of the settings are compared as they are written, never computed.
attribute [local irreducible] Config.bits

namespace RealNumber
variable {c : Config} {t : Rat} {part : BigFloat} {depth : Int} {v : Dyadic} {q : Rat}

/-- A fraction that is not whole was found by the search. -/
theorem ofDyadic_broken (reads : c.Reads t part depth) (found : ofDyadic c v = .ok (.rational q))
    (broken : q.den ≠ 1) :
    part ≠ .nan ∧ Search.run ⟨c.bits, .finite (BigFloat.ofRat c.bits t), part⟩ depth v = .ok (some q) := by
  have first : tolerance c = pure (BigFloat.ofRat c.bits t) := tolerance_reads reads
  have bound : c.partBound = pure part := reads.part
  have steps : c.searchDepth = pure depth := reads.depth
  unfold ofDyadic at found
  split at found
  · cases found
    exact absurd rfl broken
  split at found
  · cases found
  rw [first, pure_bind] at found
  dsimp only at found
  split at found
  · cases found
    exact absurd (Rat.den_intCast _) broken
  obtain ⟨answer, searched, kept⟩ := of_bind_ok found
  cases answer with
  | none => cases kept
  | some r =>
    cases kept
    rw [recover?, bound, pure_bind] at searched
    dsimp only at searched
    split at searched
    · cases searched
    next small =>
    rw [steps, pure_bind] at searched
    exact ⟨fun undefined => small (by simp [undefined]), searched⟩

/-- The bound that the settings put on each partial quotient after the first. -/
theorem limits {m : Nat} (reads : c.Reads t part depth) (positive : 0 < t) (number : part ≠ .nan)
    (limit : part.order (.finite (m : Int)) ≠ .gt ∨ 1 / t ≤ m ∧ m ≤ 2 ^ 50) :
    Search.Limits ⟨c.bits, .finite (BigFloat.ofRat c.bits t), part⟩ (BigFloat.ofRat c.bits t) m := by
  rcases limit with kept | ⟨coarse, short⟩
  · refine .part fun y above => ?_
    cases part with
    | finite p =>
      rw [Ne, Fraction.order_gt, not_lt, Dyadic.toRat_intCast] at kept
      rw [order_lt]
      exact kept.trans_lt (by exact_mod_cast above)
    | infinity s =>
      cases s
      · exact absurd rfl kept
      · rfl
    | nan => exact absurd rfl number
  · refine .tolerance (short.trans_lt (by norm_num)) ?_
    change 1 + 1 / (2 : ℚ) ^ c.bits < (m + 1) * (BigFloat.ofRat c.bits t).toRat
    have error := @BigFloat.ofRat_error c.bits t
    have unit : (1 : ℚ) / 2 ^ c.bits ≤ 1 / 2 ^ 53 :=
      one_div_le_one_div_of_le (by norm_num)
        (pow_le_pow_right₀ one_le_two (Config.fifty_three_le_bits reads.precise))
    have nonneg : (0 : ℚ) ≤ 1 / 2 ^ c.bits := by positivity
    rw [div_eq_mul_one_div, abs_of_pos positive] at error
    generalize (1 : ℚ) / 2 ^ c.bits = e at error unit nonneg
    have below := (abs_le.mp error).1
    rw [div_le_iff₀ positive] at coarse
    have most : (m : ℚ) ≤ 2 ^ 50 := by exact_mod_cast short
    have one_le : 1 / 2 ^ 50 ≤ t := by
      rw [div_le_iff₀ (by positivity)]
      nlinarith
    calc 1 + e < (1 + 1 / 2 ^ 50) * (1 - 3 * e) := by nlinarith
      _ ≤ (m + 1) * t * (1 - 3 * e) := by
          refine mul_le_mul_of_nonneg_right ?_ (by linarith)
          linarith
      _ = (m + 1) * (t - 3 * t * e) := by ring
      _ ≤ (m + 1) * (BigFloat.ofRat c.bits t).toRat := by
          refine mul_le_mul_of_nonneg_left ?_ (by positivity)
          linarith

end RealNumber

/-- A fraction that a float becomes, and that is not whole, has parts up to the continuant of the bound on its
partial quotients, for as many reciprocals as the settings take. Where the largest partial quotient is not
below that continuant, it bounds the parts. -/
theorem Number.recovered_parts_bounded {c : Config} {t : Rat} {part : BigFloat} {depth : Int}
    (reads : c.Reads t part depth) (positive : 0 < t) {m : Nat} (least : 1 ≤ m)
    (limit : part.order (.finite (m : Int)) ≠ .gt ∨ 1 / t ≤ m ∧ m ≤ 2 ^ 50) {v : Dyadic} {q : Rat}
    {u w : FloatUnit} (found : Number.ofLiteral c (.float (.finite v)) u = .ok (.ofRat q) w)
    (broken : q.den ≠ 1) :
    let numerator : Int := (|floorDyadic (wholePart v)| + 1) * continuant m depth.toNat
    (|q.num| ≤ numerator ∧ q.den ≤ continuant m depth.toNat) ∧
      (part.order (.finite numerator) ≠ .lt →
        part.order (.finite (|q.num| : Int)) ≠ .lt ∧ part.order (.finite (q.den : Int)) ≠ .lt) := by
  intro numerator
  obtain ⟨r, v', read, kept⟩ := Computation.of_bind_ok found
  cases kept
  obtain ⟨-, v'', -, recognised⟩ := Computation.of_bind_ok read
  have recognised' : RealNumber.ofDyadic c v = .ok (.rational q) := by
    change (liftM (RealNumber.ofDyadic c v) : Computation RealNumber) v'' = _ at recognised
    cases answer : RealNumber.ofDyadic c v with
    | error f =>
      rw [answer] at recognised
      cases recognised
    | ok r =>
      rw [answer] at recognised
      cases recognised
      rfl
  obtain ⟨number, searched⟩ := RealNumber.ofDyadic_broken reads recognised' broken
  have sign := (BigFloat.ofRat_sign c.bits_pos positive.ne').2.mp positive
  obtain ⟨den, num⟩ := Search.run_limited ⟨c.bits_pos, rfl, sign⟩
    (RealNumber.limits reads positive number limit) least searched
  refine ⟨⟨num, den⟩, fun fits => ?_⟩
  have smaller : (q.den : Int) ≤ numerator := by
    have one : (1 : Int) ≤ |floorDyadic (wholePart v)| + 1 := by
      have nonneg := abs_nonneg (floorDyadic (wholePart v))
      omega
    calc (q.den : Int) ≤ continuant m depth.toNat := by exact_mod_cast den
      _ ≤ numerator := le_mul_of_one_le_left (by positivity) one
  have bounds {n : Int} (below : n ≤ numerator) : part.order (.finite n) ≠ .lt := by
    cases part with
    | finite p =>
      rw [Ne, order_lt, not_lt, Dyadic.toRat_intCast] at fits ⊢
      exact (Int.cast_le.mpr below).trans fits
    | infinity s =>
      cases s
      · nofun
      · exact absurd rfl fits
    | nan => nofun
  exact ⟨bounds num, bounds smaller⟩

/-- Under a tolerance of one hundredth and with three reciprocals at most, the parts are up to 1000200. -/
theorem Number.recovered_parts_bounded_third :
    let c : Config :=
      { zeroTolerance := .fraction (1 / 100), rationalSearchDepth := .int 3, sound := by decide +kernel }
    let third := BigFloat.ofRat c.bits (1 / 3)
    let most := BigFloat.finite (tenTo 8 : Int)
    let numerator : Int := (|floorDyadic (wholePart third)| + 1) * continuant 100 (3 : Int).toNat
    c.Reads (1 / 100) most 3 ∧
      Number.ofLiteral c (.float (.finite third)) ⟨15⟩ = .ok (.ofRat (1 / 3)) ⟨100⟩ ∧
      numerator = 1000200 ∧ most.order (.finite numerator) ≠ .lt ∧
      most.order (.finite (|(1 / 3 : Rat).num| : Int)) ≠ .lt ∧
      most.order (.finite ((1 / 3 : Rat).den : Int)) ≠ .lt := by
  intro c third most numerator
  have reads : c.Reads (1 / 100) most 3 :=
    ⟨by decide +kernel, by decide +kernel, by decide +kernel, by decide +kernel⟩
  have found : Number.ofLiteral c (.float (.finite third)) ⟨15⟩ = .ok (.ofRat (1 / 3)) ⟨100⟩ := by
    decide +kernel
  have size : numerator = 1000200 := by decide +kernel
  have fits : most.order (.finite numerator) ≠ .lt := by
    rw [size]
    decide +kernel
  have bounded := recovered_parts_bounded reads (by norm_num) (m := 100) (by norm_num)
    (.inr ⟨by norm_num, by norm_num⟩) found (by decide +kernel)
  exact ⟨reads, found, size, fits, bounded.2 fits⟩

/-- Four partial quotients below a hundred million make parts above it. -/
theorem Number.recovered_parts_large :
    let nines : Rat := 987654321 / 1000000000
    Number.ofLiteral .default (.float (.finite (BigFloat.ofRat 203 nines))) ⟨100⟩ =
        .ok (.ofRat nines) ⟨100⟩ ∧
      nines.den ≠ 1 ∧ (tenTo 8 : Int) < |nines.num| ∧ tenTo 8 < nines.den := by
  decide +kernel

end ComputerAlgebra
