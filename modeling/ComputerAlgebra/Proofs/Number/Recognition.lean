import ComputerAlgebra.Number.Basic
import ComputerAlgebra.Proofs.Fraction.Recovery

/-!
Recognition of floats. What a float is recognised as is not a float of zero, since zero is the
fraction. The one failure that settings which can be read leave is a division by zero in the search
for a fraction, and it does not happen when a positive tolerance and the largest partial quotient
are of moderate size together, nor when no fraction can be found at all.
-/

namespace ComputerAlgebra

open BigFloat (ofRat_sign)

theorem Config.bitsOf_pos (digits : Nat) : 0 < Config.bitsOf digits := by
  have low : (1 : Int) ≤
      Direction.nearest.quotient ((digits + 1 : Nat) * 33219280948873626) (tenTo 16) := by
    apply Direction.le_quotient .nearest (by decide)
    have power : tenTo 16 = 10000000000000000 := by decide
    rw [power]
    push_cast
    omega
  simp only [Direction.quotient] at low
  rw [Config.bitsOf]
  omega

theorem Config.bits_pos (c : Config) : 0 < c.bits := Config.bitsOf_pos c.digits

/-- Settings that floats can be used with, but for a division by zero where a float is recognised. -/
structure Config.Readable (c : Config) : Prop where
  precise : c.precisionFault? = none
  tolerance : ∃ t, RealNumber.tolerance c = .ok t
  recognition : ∀ x f, RealNumber.ofDyadic c x = .error f → f = .divisionByZero

/-- Settings under which every float is recognised or kept. -/
structure Config.Usable (c : Config) : Prop extends c.Readable where
  answers : ∀ x, ∃ r, RealNumber.ofDyadic c x = .ok r

structure Config.Reads (c : Config) (tolerance : Rat) (part : BigFloat) (depth : Int) : Prop where
  precise : c.precisionFault? = none
  tolerance : c.zeroBound = .ok tolerance
  part : c.partBound = .ok part
  depth : c.searchDepth = .ok depth

/-- Values under which no recognition divides by zero: nothing is searched, or there is no fraction
to be found, or a positive tolerance and the largest partial quotient are of moderate size
together. -/
inductive DivisionFree (tolerance : Rat) (part : BigFloat) (depth : Int) : Prop
  | unsearched (negative : depth < 0)
  | partless (small : part = .nan ∨ part.order (.finite 1) = .lt)
  | bounded (p : Dyadic) (finite : part = .finite p) (positive : 0 < tolerance)
    (moderate : tolerance * p.toRat ≤ 2 ^ 46)

theorem DivisionFree.run_answers {q : Rat} {part : BigFloat} {depth : Int} {bits : Nat} {x : Dyadic}
    (free : DivisionFree q part depth) (wide : 0 < bits) (number : part ≠ .nan) (nonzero : x ≠ 0) :
    ∃ found, Fraction.Search.run ⟨bits, .finite (BigFloat.ofRat bits q), part⟩ depth x =
      .ok found := by
  cases free with
  | unsearched negative =>
    refine ⟨none, ?_⟩
    rw [Fraction.Search.run, Int.toNat_of_nonpos (by omega)]
    rfl
  | partless small =>
    refine Fraction.Search.run_partless wide (fun y above => ?_) nonzero depth
    have below := small.resolve_left number
    cases part with
    | finite p =>
      rw [Fraction.order_lt, show (1 : Dyadic).toRat = 1 by decide] at below
      exact (Fraction.order_lt p y).mpr (below.trans_le above)
    | infinity s =>
      cases s
      · cases below
      · rfl
    | nan => exact absurd rfl number
  | bounded p finite positive moderate =>
    have sign := (ofRat_sign wide positive.ne').2.mp positive
    refine Fraction.Search.run_answers ⟨wide, rfl, sign, fun y large within => ?_⟩ depth x
    have size := BigFloat.ofRat_le wide q
    rw [abs_of_pos positive, abs_of_pos sign] at size
    rw [finite, Ne, Fraction.order_lt, not_lt] at within
    have last : 0 ≤ y.toRat := le_trans (by norm_num) large
    calc (BigFloat.ofRat bits q).toRat * y.toRat ≤ 4 * q * p.toRat :=
          mul_le_mul size within last (by linarith)
      _ ≤ 2 ^ 48 := by linarith

namespace RealNumber

def Regular : RealNumber → Prop
  | .float x => x ≠ 0
  | _ => True

variable {c : Config}

/-- What a float is recognised as is not a float of zero. -/
theorem ofDyadic_regular {x : Dyadic} {r : RealNumber} (found : ofDyadic c x = .ok r) :
    r.Regular := by
  unfold ofDyadic at found
  split at found
  · cases found
    trivial
  next nonzero =>
  split at found
  · cases found
    exact nonzero
  obtain ⟨t, -, found⟩ := Fraction.of_bind_ok found
  dsimp only at found
  split at found
  · cases found
    trivial
  obtain ⟨answer, -, found⟩ := Fraction.of_bind_ok found
  cases answer <;> cases found
  · exact nonzero
  · trivial

section Reads
variable {q : Rat} {part : BigFloat} {depth : Int} (reads : c.Reads q part depth)
include reads

theorem tolerance_reads : tolerance c = .ok (BigFloat.ofRat c.bits q) := by
  rw [tolerance, reads.tolerance]
  rfl

theorem ofDyadic_failed {x : Dyadic} {f : Fault} (failed : ofDyadic c x = .error f) :
    x ≠ 0 ∧ part ≠ .nan ∧
      Fraction.Search.run ⟨c.bits, .finite (BigFloat.ofRat c.bits q), part⟩ depth x = .error f := by
  unfold ofDyadic at failed
  split at failed
  · cases failed
  next nonzero =>
  refine ⟨nonzero, ?_⟩
  split at failed
  · cases failed
  have first : tolerance c = pure (BigFloat.ofRat c.bits q) := tolerance_reads reads
  rw [first, pure_bind] at failed
  dsimp only at failed
  split at failed
  · cases failed
  rcases Fraction.of_bind_error failed with search | ⟨answer, -, kept⟩
  · have bound : c.partBound = pure part := reads.part
    rw [recover?, bound, pure_bind] at search
    dsimp only at search
    split at search
    · cases search
    · next searched =>
      have steps : c.searchDepth = pure depth := reads.depth
      rw [steps, pure_bind] at search
      exact ⟨fun undefined => searched (by simp [undefined]), search⟩
  · cases answer <;> cases kept

end Reads
end RealNumber

namespace Config.Reads
variable {c : Config} {q : Rat} {part : BigFloat} {depth : Int} (reads : c.Reads q part depth)
include reads

theorem readable : c.Readable where
  precise := reads.precise
  tolerance := ⟨_, RealNumber.tolerance_reads reads⟩
  recognition _ _ failed := Fraction.Search.run_failed (RealNumber.ofDyadic_failed reads failed).2.2

theorem usable (free : DivisionFree q part depth) : c.Usable where
  toReadable := reads.readable
  answers x := by
    cases recognised : RealNumber.ofDyadic c x with
    | ok r => exact ⟨r, rfl⟩
    | error f =>
      obtain ⟨nonzero, number, failed⟩ := RealNumber.ofDyadic_failed reads recognised
      obtain ⟨found, searched⟩ := free.run_answers c.bits_pos number nonzero
      rw [searched] at failed
      cases failed

end Config.Reads

theorem Config.default_reads : Config.default.Reads (1 / tenTo 16) (.finite (tenTo 8 : Int)) 15 where
  precise := by decide +kernel
  tolerance := by decide +kernel
  part := by decide +kernel
  depth := by decide +kernel

theorem Config.default_divisionFree :
    DivisionFree (1 / tenTo 16) (.finite (tenTo 8 : Int)) 15 := by
  refine .bounded (tenTo 8 : Int) rfl (by decide +kernel) ?_
  rw [Dyadic.toRat_intCast]
  decide +kernel

theorem Config.default_usable : Config.default.Usable := default_reads.usable default_divisionFree

end ComputerAlgebra
