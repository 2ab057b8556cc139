import ComputerAlgebra.Binary64.Text
import ComputerAlgebra.Fault
import ComputerAlgebra.Text.Decimal

/-!
The fraction closest to a value among those with a bounded denominator, and the fraction that a
double was meant to denote.
-/

namespace ComputerAlgebra.Fraction

/-- Two consecutive convergents `p/q` of a continued fraction, the later one second. -/
structure Convergents where
  p₀ : Int
  q₀ : Nat
  p₁ : Int
  q₁ : Nat

/-- Runs the continued fraction of `n / d` until the next denominator would exceed `bound`, and
gives the last two convergents with what is left of the quotient. -/
def convergents (bound : Nat) (n : Int) (d : Nat) (c : Convergents) : Convergents :=
  if _h : d = 0 then c
  else
    let a := n / d
    let q₂ := c.q₀ + a.toNat * c.q₁
    if bound < q₂ then c
    else convergents bound d (n % d).toNat ⟨c.p₁, c.q₁, c.p₀ + a * c.p₁, q₂⟩
termination_by d
decreasing_by
  have := Int.emod_lt_of_pos n (by omega : (0 : Int) < d)
  have := Int.emod_nonneg n (by omega : (d : Int) ≠ 0)
  omega

/-- The fraction closest to `q` whose denominator is at most `bound`. Of two equally close ones the
convergent is taken. -/
def closest (bound : Nat) (q : Rat) : Rat :=
  if q.den ≤ bound then q
  else
    let c := convergents bound q.num q.den ⟨0, 1, 1, 0⟩
    let k := (bound - c.q₀) / c.q₁
    let between := mkRat (c.p₀ + k * c.p₁) (c.q₀ + k * c.q₁)
    let convergent := mkRat c.p₁ c.q₁
    if (convergent - q).abs ≤ (between - q).abs then convergent else between

/-- The fraction that a double was meant to denote: a whole number is itself, a short decimal is
read as it is written, and anything else gives the closest fraction with a denominator of at most
`bound`. -/
def ofDouble (bound : Int) (x : Binary64) : Except Fault Rat :=
  match x.toRat? with
  | none => .error (if x = .nan then .integerOfNaN else .overflow)
  | some q =>
    if q.den = 1 then .ok q
    else
      let limited : Except Fault Rat :=
        if bound < 1 then .error .denominatorBound else .ok (closest bound.toNat q)
      let text := x.render
      if text.contains 'e' then limited
      else
        match Text.WrittenQuotient.read? text with
        | some written =>
          if written.toRat.den ≤ bound then .ok written.toRat else limited
        | none => limited

def defaultBound : Int := tenTo 12

end ComputerAlgebra.Fraction
