import ComputerAlgebra.ComplexFloat.Gamma
import ComputerAlgebra.Proofs.BigFloat.Digits

/-!
The digits of complex floating-point results: whatever the arguments are, both parts of a result have
at most as many binary digits as were asked for.
-/

namespace ComputerAlgebra

namespace BigFloat

theorem fits_pow? (r : Rounding) {x t y : BigFloat} (found : x.pow? r t = some y) : Fits r.bits y := by
  unfold BigFloat.pow? at found
  dsimp only at found
  split at found
  · split at found
    · cases found
    split at found
    · exact fits_powInt? r found
    split at found
    · split at found
      · cases found
        exact fits_sqrt _ _
      split at found
      · exact fits_div? r found
      · exact fits_powInt? r found
    · cases found
      exact fits_exp _ _
  · cases found
    exact fits_exp _ _

end BigFloat

namespace ComplexFloat
open BigFloat (Rounding isZero shift opposite exactMul)

def Fits (bits : Nat) (z : ComplexFloat) : Prop := z.re.Fits bits ∧ z.im.Fits bits

def FitsIfAny (bits : Nat) (z : Option ComplexFloat) : Prop := ∀ w, z = some w → w.Fits bits

variable {bits : Nat} {z w : ComplexFloat} {x y : BigFloat}

theorem fits_ofReal (fits : x.Fits bits) : (ofReal x).Fits bits := ⟨fits, BigFloat.short_zero bits⟩

theorem fits_imaginary (fits : x.Fits bits) : Fits bits ⟨.zero, x⟩ := ⟨BigFloat.short_zero bits, fits⟩

namespace FitsIfAny

theorem some (fits : z.Fits bits) : FitsIfAny bits (some z) := by
  rintro _ ⟨rfl⟩
  exact fits

theorem none : FitsIfAny bits none := nofun

theorem bind {α : Type} {o : Option α} {f : α → Option ComplexFloat}
    (next : ∀ a, o = .some a → FitsIfAny bits (f a)) : FitsIfAny bits (o >>= f) := by
  cases o with
  | none => exact none
  | some a => exact next a rfl

theorem ite {p : Prop} [Decidable p] {a b : Option ComplexFloat} (yes : p → FitsIfAny bits a)
    (no : ¬ p → FitsIfAny bits b) : FitsIfAny bits (if p then a else b) := by
  split
  · next holds => exact yes holds
  · next fails => exact no fails

theorem map_ofReal {o : Option BigFloat} (fits : ∀ x, o = .some x → x.Fits bits) :
    FitsIfAny bits (o.map ofReal) := by
  intro w found
  obtain ⟨x, given, rfl⟩ := Option.map_eq_some_iff.mp found
  exact fits_ofReal (fits x given)

end FitsIfAny

section Functions
variable (r : Rounding)

theorem fits_scale (x : BigFloat) (z : ComplexFloat) : (scale r x z).Fits r.bits :=
  ⟨BigFloat.fits_mul _ _ _, BigFloat.fits_mul _ _ _⟩

theorem fits_round (z : ComplexFloat) : (round r z).Fits r.bits := fits_scale r _ z

theorem fits_exp (z : ComplexFloat) : (exp r z).Fits r.bits := by
  unfold exp
  split
  · exact BigFloat.fits_cosSin r z.im
  split
  · exact fits_ofReal (BigFloat.fits_exp r z.re)
  · exact ⟨BigFloat.fits_mul _ _ _, BigFloat.fits_mul _ _ _⟩

theorem fits_log (z : ComplexFloat) : (log r z).Fits r.bits := by
  refine ⟨?_, BigFloat.fits_angle r z.im z.re⟩
  change (logAbs r z).Fits r.bits
  unfold logAbs
  split
  · trivial
  · trivial
  · trivial
  · trivial
  · split
    · exact BigFloat.fits_log r _
    split
    · exact BigFloat.fits_log r _
    · exact (BigFloat.fits_log r _).shift (-1)

theorem fits_inv? (z : ComplexFloat) : FitsIfAny r.bits (inv? r z) := by
  unfold inv?
  refine .bind fun re first => .bind fun im second => ?_
  exact .some ⟨BigFloat.fits_div? r first, (BigFloat.fits_div? r second).opposite⟩

theorem fits_powPositive (z : ComplexFloat) (n : Nat) : (powPositive r z n).Fits r.bits := by
  unfold powPositive
  split
  · exact fits_round r z
  split
  · exact ⟨BigFloat.fits_sub r _ _, (BigFloat.fits_mul r _ _).shift 1⟩
  dsimp only
  split
  · exact ⟨BigFloat.short_round r _, BigFloat.short_round r _⟩
  · exact fits_exp r _

theorem fits_powInt? (z : ComplexFloat) (n : Int) : FitsIfAny r.bits (powInt? r z n) := by
  have axis {x v : BigFloat} (found : BigFloat.powInt? r x n = some v) : v.Fits r.bits :=
    BigFloat.fits_powInt? r found
  unfold powInt?
  refine .ite (fun _ => .bind fun v found => .some (fits_ofReal (axis found))) fun _ => ?_
  refine .ite (fun _ => .bind fun v found => ?_) fun _ => ?_
  · have fits := axis found
    split
    · exact .some (fits_ofReal fits)
    · exact .some (fits_imaginary fits)
    · exact .some (fits_ofReal fits.opposite)
    · exact .some (fits_imaginary fits.opposite)
  refine .ite (fun _ => .some (fits_ofReal (BigFloat.short_one _))) fun _ => ?_
  refine .ite (fun _ => fits_inv? r z) fun _ => ?_
  exact .ite (fun _ => fits_inv? r _) fun _ => .some (fits_powPositive r z _)

theorem fits_pow? (z w : ComplexFloat) : FitsIfAny r.bits (pow? r z w) := by
  unfold pow?
  refine .ite (fun _ => ?_) fun _ => .some (fits_exp r _)
  unfold powReal?
  dsimp only
  split
  · refine .ite (fun _ => .none) fun _ => .ite (fun _ => fits_powInt? r z _) fun _ => ?_
    exact .ite (fun _ => .bind fun root _ => fits_powInt? r root _) fun _ => .some (fits_exp r _)
  · exact .some (fits_exp r _)

theorem fits_sin (z : ComplexFloat) : (sin r z).Fits r.bits := by
  unfold sin
  split
  · exact fits_ofReal (BigFloat.fits_cosSin r z.re).2
  split
  · exact fits_imaginary (BigFloat.fits_coshSinh r z.im).2
  · exact ⟨BigFloat.fits_mul r _ _, BigFloat.fits_mul r _ _⟩

theorem fits_cos (z : ComplexFloat) : (cos r z).Fits r.bits := by
  unfold cos
  split
  · exact fits_ofReal (BigFloat.fits_cosSin r z.re).1
  split
  · exact fits_ofReal (BigFloat.fits_coshSinh r z.im).1
  · exact ⟨BigFloat.fits_mul r _ _, (BigFloat.fits_mul r _ _).opposite⟩

theorem fits_arctan (z : ComplexFloat) : (arctan r z).Fits r.bits := by
  unfold arctan
  split
  · exact fits_ofReal (BigFloat.fits_arctan r z.re)
  dsimp only
  have re (x y : BigFloat) : (opposite (shift (x.sub r y) (-1))).Fits r.bits :=
    ((BigFloat.fits_sub r x y).shift (-1)).opposite
  split
  · exact fits_ofReal (re _ _)
  · exact ⟨re _ _, (BigFloat.fits_sub r _ _).shift (-1)⟩

theorem fits_settle (x : BigFloat) : (settle r x).Fits r.bits := by
  unfold settle
  split
  · exact BigFloat.short_round r _
  · exact BigFloat.short_zero _

theorem fits_arcosh (x : BigFloat) : (arcosh r x).Fits r.bits := BigFloat.fits_log r _

theorem fits_arc? (cosine : Bool) (z : ComplexFloat) : FitsIfAny r.bits (arc? r cosine z) := by
  unfold arc?
  extract_lets straight right size beyond work
  have pi : BigFloat.Short r.bits straight := BigFloat.short_pi r
  have half : BigFloat.Short r.bits right := pi.shiftRight 1
  have hyperbolic : size.Fits r.bits := fits_arcosh r z.re.abs
  -- On the real line beyond one, every part is zero, a multiple of π/2 or an inverse hyperbolic cosine.
  have outside : FitsIfAny r.bits (beyond ()) := by
    refine .some ?_
    split
    · exact fits_imaginary hyperbolic
    · exact ⟨pi, hyperbolic.opposite⟩
    · exact ⟨half, hyperbolic.opposite⟩
    · exact ⟨half.neg, hyperbolic⟩
  refine .ite (fun _ => ?_) fun _ => ?_
  · split
    · exact .some (fits_ofReal trivial)
    · refine .ite (fun _ => ?_) fun _ => outside
      cases cosine
      · exact .some (fits_ofReal (BigFloat.fits_arcsin r _))
      · exact .some (fits_ofReal (BigFloat.fits_arccos r _))
    · exact outside
  · refine .bind fun f _ => .bind fun re _ => .bind fun im _ => ?_
    exact .some ⟨fits_settle r _, fits_settle r _⟩

end Functions

theorem fits_gammaFinite? (bits : Nat) (x y : Dyadic) : FitsIfAny bits (gammaFinite? bits x y) := by
  have scaled (value : ComplexFloat) : FitsIfAny bits (some (scale bits (.finite 1) value)) :=
    .some (fits_scale bits _ value)
  unfold gammaFinite?
  dsimp only
  refine .ite (fun _ => .bind fun value _ => scaled value) fun _ => ?_
  exact .bind fun mirrored _ => .bind fun denominator _ => .bind fun value _ => scaled value

theorem fits_gamma? (bits : Nat) (z : ComplexFloat) : FitsIfAny bits (gamma? bits z) := by
  unfold gamma?
  split
  · refine .ite (fun _ => .none) fun _ => .ite (fun _ => .none) fun _ => ?_
    exact fits_gammaFinite? bits _ _
  · next y infinite finite =>
    refine .ite (fun zero => .some ⟨?_, ?_⟩) fun _ => .some (fits_ofReal trivial)
    · rw [infinite]
      trivial
    · rw [finite, zero]
      exact BigFloat.short_zero bits
  · exact .some (fits_ofReal trivial)

end ComplexFloat
end ComputerAlgebra
