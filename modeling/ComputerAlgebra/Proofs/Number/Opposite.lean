import ComputerAlgebra.Proofs.Number.Canonical
import ComputerAlgebra.Proofs.Number.SimpleFraction

/-!
Recognition and opposites. Under the default settings a float and its opposite are zero together, too
large to be recognised together, and near a whole number together. The search for any other fraction is
not symmetric, since it goes by whole parts: the opposite of a fraction may have one partial quotient
more. So a float and its opposite are recognised alike where the fraction keeps that much away from the
bounds of the search, but not at the bounds.
-/

namespace ComputerAlgebra

open BigFloat (Short magnitude round_short)

-- The digits of the settings are compared as they are written, never computed.
attribute [local irreducible] Config.bits

namespace RealNumber
variable {v : Dyadic} {q : ℚ} {m : Int} {part : Int} {k : Nat}

open Config (defaultTolerance)

theorem Near.mono {part' : Int} {l : Nat} (near : Near part k v q) (longer : k ≤ l) (larger : part ≤ part') :
    Near part' l v q :=
  ⟨near.expands.mono longer larger, near.moderate, near.close⟩

/-- The opposites are as near, and the fraction is hardly less simple. -/
theorem Near.neg (near : Near part k v q) : Near (part + 1) (k + 1) (-v) (-q) := by
  refine ⟨near.expands.neg, near.moderate, ?_⟩
  rw [Dyadic.toRat_neg, neg_sub_neg, abs_sub_comm]
  exact near.close

theorem den_ne_one (between : m < q ∧ q < m + 1) : q.den ≠ 1 := by
  intro whole
  have integer : (q.num : ℚ) = q := Rat.den_eq_one_iff q |>.mp whole
  rw [← integer] at between
  have low : m < q.num := by exact_mod_cast between.1
  have high : q.num < m + 1 := by exact_mod_cast between.2
  omega

/-- What a float is recognised as lies within the bounds of the search with something to spare, if it is a
fraction at all that is not whole. -/
def Spared (v : Dyadic) : Prop :=
  ∀ q, ofDyadic .default v = .ok (.rational q) → q.den ≠ 1 → Near (10 ^ 8 - 2) 14 v q

/-- Near a simple fraction both a float and its opposite are recognised. -/
theorem ofDyadic_near_opposite (near : Near (10 ^ 8 - 2) 14 v q) :
    ofDyadic .default v = .ok (.rational q) ∧ ofDyadic .default (-v) = .ok (.rational (-q)) :=
  ⟨ofDyadic_near (near.mono (by norm_num) (by norm_num)), ofDyadic_near near.neg⟩

theorem Near.spared (near : Near (10 ^ 8 - 2) 14 v q) : Spared v := by
  intro r found _
  rw [(ofDyadic_near_opposite near).1] at found
  cases found
  exact near

theorem ofDyadic_opposite (digits : Short Config.default.bits v) (spared : Spared v) (spared' : Spared (-v)) :
    ofDyadic .default (-v) = (ofDyadic .default v).map (opposite Config.default.bits) := by
  have involution : -(-v) = v := by
    rw [← Dyadic.toRat_inj, Dyadic.toRat_neg, Dyadic.toRat_neg, neg_neg]
  have kept : opposite Config.default.bits (.float v) = .float (-v) :=
    congrArg RealNumber.float (round_short _ Config.default.bits_pos digits.neg)
  by_cases zero : v = 0
  · subst zero
    rfl
  have nonzero : -v ≠ 0 := fun zero' => zero (by rw [← involution, zero']; rfl)
  rcases lt_or_ge (magnitude v) ((Config.default.bits : Int) - 32) with shown | large
  swap
  · rw [ofDyadic_large zero large, ofDyadic_large nonzero (by rwa [magnitude_neg]), ← kept]
    rfl
  have shown' : magnitude (-v) < (Config.default.bits : Int) - 32 := by rwa [magnitude_neg]
  have mirrored (m : Int) : |(-v).toRat - (-m : Int)| = |v.toRat - m| := by
    rw [Dyadic.toRat_neg, Int.cast_neg, neg_sub_neg, abs_sub_comm]
  by_cases whole : ∃ m : Int, |v.toRat - m| < defaultTolerance.toRat
  · obtain ⟨m, near⟩ := whole
    rw [ofDyadic_close digits shown near,
      ofDyadic_close digits.neg shown' ((mirrored m).trans_lt near), Int.cast_neg]
    rfl
  have far (m : Int) : defaultTolerance.toRat ≤ |v.toRat - m| := not_lt.mp fun near => whole ⟨m, near⟩
  have far' (m : Int) : defaultTolerance.toRat ≤ |(-v).toRat - m| := by
    rw [← neg_neg m, mirrored]
    exact far _
  rcases ofDyadic_far digits shown far with left | ⟨q, left, between⟩
  · rcases ofDyadic_far digits.neg shown' far' with right | ⟨q, right, between⟩
    · rw [left, right, ← kept]
      rfl
    · -- What is found for the opposite would be found for the float itself.
      have back := (ofDyadic_near_opposite (spared' q right (den_ne_one between))).2
      rw [involution, left] at back
      cases back
  · rw [left, (ofDyadic_near_opposite (spared q left (den_ne_one between))).2]
    rfl

end RealNumber

namespace Number

/-- Under the default settings the opposite of a float of the working precision becomes the opposite of
what the float becomes, so both are recognised or neither is, if the fractions that they become, where
they become fractions that are not whole, keep within the bounds of the search. Both are recognised where
there is such a fraction. -/
theorem opposite_recognised {v : Dyadic} (digits : Short Config.default.bits v)
    (spared : RealNumber.Spared v) (spared' : RealNumber.Spared (-v)) :
    (ofLiteral .default (.float (.finite (-v))) =
      (do Number.neg .default (← ofLiteral .default (.float (.finite v))))) ∧
    ∀ q, RealNumber.Near (10 ^ 8 - 2) 14 v q →
      Succeeds (ofLiteral .default (.float (.finite v))) (· = .ofRat q) ∧
        Succeeds (ofLiteral .default (.float (.finite (-v)))) (· = .ofRat (-q)) := by
  refine ⟨?_, fun q near => ?_⟩
  · obtain ⟨r, recognised⟩ := Config.default_usable.answers v
    have mirrored := RealNumber.ofDyadic_opposite digits spared spared'
    rw [recognised] at mirrored
    have negated : r.neg (.ofConfig .default) = .ok (r.opposite Config.default.bits) (.ofConfig .default) := by
      refine (Computation.bind_ok (Computation.unitBits_eq _)).trans ?_
      rw [FloatUnit.bits_ofConfig]
      rfl
    funext u
    rw [ofLiteral_float mirrored, Computation.bind_ok (ofLiteral_float recognised u)]
    change _ = (r.neg >>= fun x => pure (Number.real x)) (FloatUnit.ofConfig .default)
    rw [Computation.bind_ok negated]
    rfl
  · obtain ⟨found, found'⟩ := RealNumber.ofDyadic_near_opposite near
    exact ⟨fun u => ⟨_, _, ofLiteral_float found u, rfl⟩, fun u => ⟨_, _, ofLiteral_float found' u, rfl⟩⟩

/-- The opposite of the float that is nearest to one third is recognised, as the float is. -/
theorem opposite_recognised_third :
    let third := BigFloat.ofRat Config.default.bits (1 / 3)
    (Short Config.default.bits third ∧ RealNumber.Spared third ∧ RealNumber.Spared (-third)) ∧
      (ofLiteral .default (.float (.finite (-third))) =
        (do Number.neg .default (← ofLiteral .default (.float (.finite third))))) ∧
      Succeeds (ofLiteral .default (.float (.finite third))) (· = .ofRat (1 / 3)) ∧
      Succeeds (ofLiteral .default (.float (.finite (-third)))) (· = .ofRat (-(1 / 3))) := by
  intro third
  have digits : Short Config.default.bits third :=
    (BigFloat.short_roundQuotient (Config.default.bits : BigFloat.Rounding) _
      (1 / 3 : ℚ).den_pos).shiftRight _
  have near : RealNumber.Near (10 ^ 8 - 3) 13 third (1 / 3) := by
    have den : (1 / 3 : ℚ).den = 3 := by norm_num
    refine ⟨.of_den 12 ?_ ?_ ?_, ?_, ?_⟩
    · norm_num
    · rw [den]
      norm_num
    · rw [den]
      decide
    · rw [den]
      norm_num
    · rw [den]
      calc |third.toRat - 1 / 3| * (3 : Nat) ^ 2 ≤ 3 * |1 / 3| / 2 ^ 200 * 9 :=
            mul_le_mul (Config.default_error (1 / 3)) (by norm_num) (by positivity) (by positivity)
        _ ≤ 99 / 10 ^ 18 := by norm_num [abs_of_pos]
  have near' : RealNumber.Near (10 ^ 8 - 2) 14 third (1 / 3) := near.mono (by norm_num) (by norm_num)
  obtain ⟨same, recognised⟩ := opposite_recognised digits near'.spared near.neg.spared
  exact ⟨⟨digits, near'.spared, near.neg.spared⟩, same, recognised _ near'⟩

/-- A float hardly above 1597 / 2584, a quotient of two Fibonacci numbers, which has as many partial
quotients as the search takes. -/
def nearGolden : Dyadic :=
  .ofIntWithPrec 7945139494370301764831311026219308595132997464616471077326997 203

/-- The float stays a float, while its opposite becomes a fraction. -/
theorem nearGolden_opposite : Short Config.default.bits nearGolden ∧
    ofLiteral .default (.float (.finite (-nearGolden))) ≠
      (do Number.neg .default (← ofLiteral .default (.float (.finite nearGolden)))) := by
  have digits : Short Config.default.bits nearGolden := by
    refine ⟨_, _, ?_, rfl⟩
    decide +kernel
  have kept : RealNumber.ofDyadic .default nearGolden = .ok (.float nearGolden) := by decide +kernel
  have found : RealNumber.ofDyadic .default (-nearGolden) = .ok (.rational (-1597 / 2584)) := by
    decide +kernel
  refine ⟨digits, fun same => ?_⟩
  have outcome := congrFun same ⟨15⟩
  rw [ofLiteral_float found, Computation.bind_ok (ofLiteral_float kept _)] at outcome
  injection outcome with number
  cases number

end Number
end ComputerAlgebra
