import ComputerAlgebra.Proofs.Limit.CutOff
import ComputerAlgebra.Proofs.Polynomial.NormalForm
import ComputerAlgebra.Proofs.Polynomial.Passes
import ComputerAlgebra.Proofs.Simplification.History
import ComputerAlgebra.Proofs.Simplification.Sorting

/-!
Simplification decides which polynomial expressions are zero. What the passes leave of an expression that is zero
everywhere is zero everywhere, its polynomial form is the empty one, and no expression with the values of zero has
a score as low as zero itself. Under a codomain with all fractions the first round therefore ends with zero, unless
the polynomial form has more terms than the settings allow, and zero stays zero in all later rounds.
-/

namespace ComputerAlgebra

def Config.unbounded (c : Config) : Config :=
  { c with maxExpansionTerms := .float (.infinity false), sound := c.sound }

namespace Polynomial

variable {c : Config} {e : Expr}

section Unbounded

/-- Without a bound on terms a polynomial expression has a polynomial form. -/
theorem multiplyOut_unbounded (free : c.expansionBound = .ok none) (polynomial : e.IsPolynomial) :
    ∃ p, multiplyOut c e = pure p := by
  induction polynomial with
  | num q => exact ⟨constant q, rfl⟩
  | @var x plain => exact ⟨_, multiplyOut_var c plain⟩
  | sum _ _ iha ihb =>
    obtain ⟨p, left⟩ := iha
    obtain ⟨q, right⟩ := ihb
    exact ⟨add p q, by rw [multiplyOut, left, right]; rfl⟩
  | minus _ _ iha ihb =>
    obtain ⟨p, left⟩ := iha
    obtain ⟨q, right⟩ := ihb
    exact ⟨add p (scale (-1) q), by rw [multiplyOut, left, right]; rfl⟩
  | mul _ _ iha ihb =>
    obtain ⟨p, left⟩ := iha
    obtain ⟨q, right⟩ := ihb
    exact ⟨collect (products p q), by rw [multiplyOut, left, right, free]; rfl⟩
  | @div a _ q nonzero ih =>
    obtain ⟨p, dividend⟩ := ih
    exact ⟨scale q⁻¹ p, by rw [multiplyOut_div c a nonzero, dividend]; rfl⟩
  | @pow a _ n ih =>
    obtain ⟨p, base⟩ := ih
    obtain ⟨r, power, -⟩ : ∃ r, pow? none p n = some r ∧ True :=
      pow?_exists trivial (fun {p q} _ _ => ⟨collect (products p q), rfl, trivial⟩) trivial n
    rw [multiplyOut_pow, base, free]
    simp only [pure_bind]
    split
    · exact ⟨constant 1, rfl⟩
    · refine ⟨r, ?_⟩
      change OptionT.mk (pure (pow? none p n)) = _
      rw [power]
      rfl

end Unbounded

/-- An expression has a polynomial form, but one with more terms than the settings allow. -/
def GivesUp (c : Config) (e : Expr) (u : FloatUnit) : Prop :=
  (∃ w, ofExpr? c e u = .ok none w) ∧ ∃ p w, ofExpr? c.unbounded e u = .ok (some p) w

/-- The only reason for a polynomial expression to have no polynomial form is the bound on terms. -/
theorem givesUp_of_none (polynomial : e.IsPolynomial) {u w : FloatUnit} (none : ofExpr? c e u = .ok none w) :
    GivesUp c e u := by
  have shallow : e.checkDepth c = .ok () := by
    cases depth : e.checkDepth c with
    | ok => rfl
    | error f =>
      rw [ofExpr?, depth] at none
      cases none
  obtain ⟨p, form⟩ := multiplyOut_unbounded (c := c.unbounded) rfl polynomial
  refine ⟨⟨w, none⟩, p, u, ?_⟩
  rw [ofExpr?, show e.checkDepth c.unbounded = .ok () from shallow, form]
  rfl

end Polynomial

namespace Expr

open ComputerAlgebra.Polynomial (FormOf GivesUp)

variable {c : Config} {e r : Expr} {u w : FloatUnit}

/-- A polynomial expression that is zero everywhere. -/
structure Vanishing (e : Expr) : Prop where
  polynomial : IsPolynomial e
  formal : e.formal = 0

theorem vanishing_zero : Vanishing 0 := ⟨.num 0, map_zero _⟩

/-- Polynomial expressions with the same values have the same formal polynomial. -/
theorem formal_eq_of_follows (first : IsPolynomial e) (second : IsPolynomial r)
    (follows : ∀ ρ, Follows ρ e r) : r.formal = e.formal := by
  refine MvPolynomial.funext fun f => ?_
  have value {t : Expr} (polynomial : IsPolynomial t) : valueAt? (fun x => some (f x)) t
      = some (MvPolynomial.eval f t.formal) := valueAt?_formal polynomial (by simp)
  have found := (follows _).value _ (value first)
  rw [value second] at found
  exact Option.some.inj found

/-- What has the values of zero under all fractions is zero as a formal polynomial. -/
theorem vanishing_of_values (polynomial : IsPolynomial e)
    (zero : ∀ s : List (String × Rat), (∀ x ∈ e.names, x ∈ s.map Prod.fst) → EvaluatesAt c s e 0) :
    Vanishing e := by
  refine ⟨polynomial, MvPolynomial.funext fun f => ?_⟩
  have covered : ∀ x ∈ e.names, x ∈ (listed f e.names).map Prod.fst := by simp [listed]
  have found := (zero _ covered).eq_eval polynomial covered rfl
  have same : ∀ x ∈ e.names, (Assignment.ofList (listed f e.names) x).getD 0 = f x := by
    intro x named
    rw [lookup_listed named, Option.getD_some]
  rw [eval_formal_congr polynomial same] at found
  rw [map_zero]
  exact (Number.ofRat_injective found).symm

namespace Vanishing

theorem leaf (vanishing : Vanishing e) (leaf : e.children = []) : e = 0 := by
  obtain ⟨polynomial, zero⟩ := vanishing
  cases polynomial with
  | num q =>
    rw [formal_num, MvPolynomial.C_eq_zero] at zero
    rw [zero]
    rfl
  | var => exact absurd zero (MvPolynomial.X_ne_zero _)
  | sum | minus | mul | div | pow => cases leaf

/-- No expression with the values of zero is as simple as zero. -/
theorem eq_zero_of_score (vanishing : Vanishing e) (low : e.score ≤ (0 : Expr).score) : e = 0 := by
  cases e with
  | binary op a b =>
    have zero : (0 : Expr).score = 4 := rfl
    rw [zero, score_eq] at low
    have parts : a.score + b.score ≤ 4 := by simpa [children] using (Nat.le_add_left _ _).trans low
    have first := four_le_score a
    have second := four_le_score b
    omega
  | num | var => exact vanishing.leaf rfl
  | bool | unary | lam | app | provided | piecewise | interval => cases vanishing.polynomial

end Vanishing

/-- A computation is stopped by a tree that is too deep, or by a bound on terms that is no number. -/
def Stopped (c : Config) (f : Fault) : Prop := TooDeep c f ∨ c.expansionBound = .error f

theorem checkDepth_stopped (e : Expr) :
    Permitted (Stopped c) (liftM (e.checkDepth c) : Computation Unit) fun _ => True :=
  (checkDepth_tooDeep e).weaken fun _ => .inl

section Steps

/-- The polynomial form of an expression that is zero everywhere is written as zero. -/
theorem collapse?_vanishing (vanishing : Vanishing e) :
    Permitted (Stopped c) (collapse? c e) fun r => ∀ t, r = some t → t = 0 := by
  have form := Polynomial.multiplyOut_formOf c vanishing.polynomial
  obtain ⟨outcome, run, refused⟩ := Polynomial.multiplyOut_floatless c vanishing.polynomial
  unfold Polynomial.Answers at form
  rw [run] at form
  unfold collapse? Polynomial.ofExpr?
  rw [run, bind_assoc]
  refine (checkDepth_stopped e).bind fun _ _ => ?_
  cases outcome with
  | error f => exact fun u => .inr ⟨f, u, rfl, .inr (refused f rfl)⟩
  | ok answer =>
    cases answer with
    | none => exact .of_succeeds (.pure nofun)
    | some p =>
      refine fun u => .inl ⟨some (p.toExpr u), u, rfl, ?_⟩
      rintro _ ⟨rfl⟩
      have written : FormOf 0 [] := Polynomial.Canonical.formOf ⟨by simp, by simp, by simp⟩ (map_zero _).symm
      rw [(form u (some p) u rfl p rfl).toExpr_eq written (vanishing.formal.trans (map_zero _).symm) u u]
      simp [Polynomial.toExpr, Polynomial.keyedTerms]

/-- Without a polynomial form there are too many terms. -/
theorem givesUp_of_collapse (vanishing : Vanishing e) (collapsed : collapse? c e u = .ok none w) :
    GivesUp c e u := by
  obtain ⟨r, v, form, rest⟩ := Computation.of_bind_ok collapsed
  cases r with
  | none => exact Polynomial.givesUp_of_none vanishing.polynomial form
  | some p => cases rest

variable (all : c.codomain.HoldsFractions)
include all

theorem innerSimplified_folded (foldable : Foldable e) : Permitted (Stopped c) (innerSimplified c e) (Folded e) := by
  unfold innerSimplified
  refine (checkDepth_stopped e).bind fun _ _ => ?_
  exact .of_succeeds (simplifyWithin_folded all _ foldable)

theorem innerSimplified_vanishing (vanishing : Vanishing e) :
    Permitted (Stopped c) (innerSimplified c e) Vanishing := by
  refine Permitted.mono (innerSimplified_folded all vanishing.polynomial.foldable) fun r folded => ?_
  exact ⟨folded.polynomial, (formal_eq_of_follows vanishing.polynomial folded.polynomial folded.follows).trans
    vanishing.formal⟩

theorem pass_stopped (pass : Pass) (foldable : Foldable e) : Permitted (Stopped c) (pass.run c e) (StaysFoldable e) :=
  (pass_staysFoldable all pass foldable).weaken fun _ => .inl

/-- A pass, with the reduction after it, leaves an expression that is zero everywhere. -/
theorem pass_vanishing (pass : Pass) (vanishing : Vanishing e) :
    Permitted (Stopped c) (pass.run c e >>= innerSimplified c) Vanishing := by
  refine Permitted.bind (pass_stopped all pass vanishing.polynomial.foldable) fun t stays => ?_
  have foldable := stays.foldable vanishing.polynomial.foldable
  refine Permitted.mono (innerSimplified_folded all foldable) fun r folded => ?_
  refine ⟨folded.polynomial, ?_⟩
  rw [formal_eq_of_follows vanishing.polynomial folded.polynomial
    fun ρ => (stays.follows ρ).trans (folded.follows ρ)]
  exact vanishing.formal

theorem zero_rules : RoundRules (.permitted (Stopped c)) c (· = 0) where
  shallow _ := checkDepth_stopped _
  pass pass {e} zero := by
    subst zero
    exact Permitted.mono (pass_stopped all pass vanishing_zero.polynomial.foldable)
      fun r stays => (stays.follows origin).literal 0 rfl
  reduce {e} zero := by
    subst zero
    exact Permitted.mono (innerSimplified_folded all vanishing_zero.polynomial.foldable)
      fun r folded => (folded.follows origin).literal 0 rfl
  collapse {e} zero := by
    subst zero
    exact collapse?_vanishing vanishing_zero

theorem runPasses_vanishing (vanishing : Vanishing e) :
    Permitted (Stopped c) (runPasses c Pass.all e) fun rs => ∀ r ∈ rs, Vanishing r :=
  runPasses_keeps (J := .permitted (Stopped c)) (fun pass _ _ => pass_vanishing all pass) vanishing

theorem candidates_vanishing (vanishing : Vanishing e) :
    Permitted (Stopped c) (candidates c e) fun rs => ∀ r ∈ rs, Vanishing r := by
  unfold candidates
  refine Permitted.bind (runPasses_vanishing all vanishing) fun passed kept => ?_
  refine (collapse?_vanishing (getLastD_keeps vanishing kept)).bind fun collapsed zero => ?_
  cases collapsed with
  | none => exact .of_succeeds (.pure kept)
  | some t =>
    obtain rfl := zero t rfl
    refine (innerSimplified_vanishing all vanishing_zero).bind fun r reduced => .of_succeeds (.pure ?_)
    rw [List.forall_mem_append]
    exact ⟨kept, by simpa using reduced⟩

/-- Zero is among them, unless the polynomial form has too many terms. -/
theorem zero_mem_candidates (vanishing : Vanishing e) {rs : List Expr} (returned : candidates c e u = .ok rs w)
    (within : ∀ passed v, runPasses c Pass.all e u = .ok passed v → ¬ GivesUp c (passed.getLastD e) v) :
    0 ∈ rs := by
  obtain ⟨passed, v, ran, rest⟩ := Computation.of_bind_ok returned
  have last := getLastD_keeps vanishing ((runPasses_vanishing all vanishing).returns u passed v ran)
  obtain ⟨collapsed, v', form, rest⟩ := Computation.of_bind_ok rest
  cases collapsed with
  | none => exact absurd (givesUp_of_collapse last form) (within passed v ran)
  | some t =>
    obtain rfl := (collapse?_vanishing last).returns v _ v' form t rfl
    obtain ⟨r, v'', reduced, rest⟩ := Computation.of_bind_ok rest
    obtain rfl := Permitted.returns ((zero_rules all).reduce rfl) v' r v'' reduced
    cases rest
    simp

/-- One round ends with zero, and so do the rounds after it. -/
theorem rounds_vanishing (n : Nat) (vanishing : Vanishing e)
    (within : ∀ passed v, runPasses c Pass.all e u = .ok passed v → ¬ GivesUp c (passed.getLastD e) v) :
    (∃ w, rounds c (n + 1) e u = .ok 0 w) ∨ ∃ f w, rounds c (n + 1) e u = .error f w ∧ Stopped c f := by
  rcases candidates_vanishing all vanishing u with ⟨rs, v, tried, kept⟩ | ⟨f, v, failed, stopped⟩
  · have member := zero_mem_candidates all vanishing tried within
    have best : simplest e rs = 0 :=
      (simplest_keeps vanishing kept).eq_zero_of_score (simplest_score_le (List.mem_cons_of_mem e member))
    rw [rounds, Computation.bind_ok tried, best]
    have rest := (zero_rules all).rounds n rfl v
    split
    · next same => exact .inl ⟨v, by rw [← same]; rfl⟩
    · rcases rest with ⟨r, w, ran, rfl⟩ | failed
      · exact .inl ⟨w, ran⟩
      · exact .inr failed
  · exact .inr ⟨f, v, Computation.bind_error failed, stopped⟩

end Steps

/-- The expression whose polynomial form the first round of simplification takes. -/
def multiplied (c : Config) (e : Expr) : Computation Expr := do
  let first ← e.innerSimplified c
  return (← runPasses c Pass.all first).getLastD first

section Main
variable (all : c.codomain.HoldsFractions)
include all

theorem settledOrBest_vanishing (vanishing : Vanishing e) {level : Int} (regular : level ≠ 0)
    (within : ∀ t w, multiplied c e u = .ok t w → ¬ GivesUp c t w) :
    (∃ settled w, settledOrBest c level e u = .ok (0, settled) w) ∨
      ∃ f w, settledOrBest c level e u = .error f w ∧ Stopped c f := by
  unfold settledOrBest
  split
  · next leaf =>
    rw [vanishing.leaf (List.isEmpty_iff.mp leaf)]
    exact .inl ⟨true, u, rfl⟩
  rcases innerSimplified_vanishing all vanishing u with ⟨first, v, reduced, kept⟩ | ⟨f, v, failed, stopped⟩
  · rw [Computation.bind_ok reduced]
    split
    · next leaf =>
      rw [kept.leaf (List.isEmpty_iff.mp leaf)]
      exact .inl ⟨true, v, rfl⟩
    obtain ⟨n, count⟩ := Nat.exists_eq_succ_of_ne_zero (Int.natAbs_ne_zero.mpr regular)
    rw [count]
    have inside : ∀ passed w, runPasses c Pass.all first v = .ok passed w → ¬ GivesUp c (passed.getLastD first) w := by
      intro passed w ran
      refine within _ w ?_
      rw [multiplied, Computation.bind_ok reduced, Computation.bind_ok ran]
      rfl
    rcases rounds_vanishing all n kept inside with ⟨w, best⟩ | ⟨f, w, failed, stopped⟩
    · exact .inl ⟨false, w, by rw [Computation.bind_ok best]; rfl⟩
    · exact .inr ⟨f, w, Computation.bind_error failed, stopped⟩
  · exact .inr ⟨f, v, Computation.bind_error failed, stopped⟩

/-- A polynomial expression that evaluates to zero under every assignment of fractions is simplified to zero at
every level but zero. It may be refused for a tree that is too deep or for a bound on terms that is no number, and
it may stay unsettled if the polynomial form that the first round takes has more terms than the settings allow. -/
theorem vanishing_simplified (polynomial : IsPolynomial e)
    (zero : ∀ s : List (String × Rat), (∀ x ∈ e.names, x ∈ s.map Prod.fst) → EvaluatesAt c s e 0)
    {level : Int} (regular : level ≠ 0) (within : ∀ t w, multiplied c e u = .ok t w → ¬ GivesUp c t w) :
    (∃ w, e.simplify c level u = .ok 0 w) ∨
      ∃ f w, e.simplify c level u = .error f w ∧ (TooDeep c f ∨ c.expansionBound = .error f) := by
  have vanishing := vanishing_of_values polynomial zero
  rw [simplify]
  have guarded := checkDepth_stopped (c := c) e u
  cases depth : e.checkDepth c with
  | error f =>
    rw [depth] at guarded
    rcases guarded with ⟨_, v, shallow, _⟩ | ⟨f, v, failed, stopped⟩
    · cases shallow
    · cases failed
      exact .inr ⟨f, u, rfl, stopped⟩
  | ok =>
    change (∃ w, (settledOrBest c level e >>= _) u = .ok 0 w) ∨
      ∃ f w, (settledOrBest c level e >>= _) u = .error f w ∧ Stopped c f
    rcases settledOrBest_vanishing all vanishing regular within with ⟨settled, v, best⟩ | ⟨f, v, failed, stopped⟩
    · rw [Computation.bind_ok best]
      -- Zero is not expanded to anything else.
      have rest : Permitted (Stopped c) (do
          if settled || level ≤ 0 then return 0
          let expanded ← expand c 0
          if expanded = 0 then return 0
          return simplest 0 [← simplifyCompact c level expanded]) (· = 0) := by
        split
        · exact .of_succeeds (.pure rfl)
        · refine Permitted.bind ((zero_rules all).expand rfl) fun expanded same => ?_
          rw [if_pos same]
          exact .of_succeeds (.pure rfl)
      rcases rest v with ⟨r, w, ran, rfl⟩ | failed
      · exact .inl ⟨w, ran⟩
      · exact .inr failed
    · exact .inr ⟨f, v, Computation.bind_error failed, stopped⟩

end Main

section Instances

/-- A run that finds the expression that is multiplied out, and a polynomial form of it, shows that the first
round does not give up. -/
private theorem within_of_run {t : Expr} (run : multiplied c e u = .ok t w)
    (form : (Polynomial.ofExpr? c t w matches .ok (some _) _) = true) :
    ∀ t w, multiplied c e u = .ok t w → ¬ GivesUp c t w := by
  rintro t' w' returned ⟨⟨v, none⟩, -⟩
  rw [run] at returned
  cases returned
  rw [none] at form
  cases form

/-- The expression `x^2 + x y - y x - x x` is simplified to zero at every level but zero. -/
theorem vanishing_simplified_products :
    ∃ (c : Config) (e : Expr), c = Config.default.limited Config.default.unlimited ∧
      e = .binary .minus (.binary .minus (.binary .sum (.binary .pow (.var "x") (.num (.ofInt 2)))
        (.binary .mul (.var "x") (.var "y"))) (.binary .mul (.var "y") (.var "x"))) (.binary .mul (.var "x") (.var "x")) ∧
      IsPolynomial e ∧ (∀ s : List (String × Rat), (∀ x ∈ e.names, x ∈ s.map Prod.fst) → EvaluatesAt c s e 0) ∧
      (∀ t w, multiplied c e ⟨0⟩ = .ok t w → ¬ GivesUp c t w) ∧
      ∀ level : Int, level ≠ 0 → ∃ w, e.simplify c level ⟨0⟩ = .ok 0 w := by
  let c := Config.default.limited Config.default.unlimited
  let x : Expr := .var "x"
  let y : Expr := .var "y"
  let square : Expr := .binary .pow x (.num (.ofInt 2))
  let e : Expr := .binary .minus (.binary .minus (.binary .sum square (.binary .mul x y)) (.binary .mul y x))
    (.binary .mul x x)
  have first : IsPolynomial x := .var (by decide)
  have second : IsPolynomial y := .var (by decide)
  have polynomial : IsPolynomial e :=
    .minus (.minus (.sum (.pow first 2) (.mul first second)) (.mul second first)) (.mul first first)
  have formal : e.formal = 0 := by
    change formal square + MvPolynomial.X "x" * MvPolynomial.X "y" - MvPolynomial.X "y" * MvPolynomial.X "x"
      - MvPolynomial.X "x" * MvPolynomial.X "x" = 0
    rw [show formal square = MvPolynomial.X "x" ^ 2 from formal_pow 2]
    ring
  have zero : ∀ s : List (String × Rat), (∀ x ∈ e.names, x ∈ s.map Prod.fst) → EvaluatesAt c s e 0 := by
    intro s covered
    have evaluates := evaluatesAt_eval (c := c) polynomial rfl Domain.holdsFractions_complex covered
    rwa [formal, map_zero] at evaluates
  have within : ∀ t w, multiplied c e ⟨0⟩ = .ok t w → ¬ GivesUp c t w := by
    have run : multiplied c e ⟨0⟩ = .ok (.binary .minus square square) ⟨0⟩ := by
      rw [multiplied, runPasses_eq_within]
      decide +kernel
    exact within_of_run run (by decide +kernel)
  refine ⟨c, e, rfl, rfl, polynomial, zero, within, fun level regular => ?_⟩
  rcases vanishing_simplified Domain.holdsFractions_complex polynomial zero regular within
    with settled | ⟨f, w, -, ⟨depth, deeper, -⟩ | unreadable⟩
  · exact settled
  · cases deeper.symm.trans (Config.isTooDeep_unlimited _ depth)
  · cases unreadable

theorem Attains.lambdaFree {ρ : Assignment} {v : Rat} (attained : Attains c ρ e v) : LambdaFree e := by
  induction attained with
  | number q => exact lambdaFree_literal (.inl ⟨_, rfl⟩)
  | var => exact throughout_iff.mpr ⟨by simp, by simp [children]⟩
  | operation _ _ _ _ left right => exact lambdaFree_head rfl (by simpa [children] using ⟨left, right⟩)

private theorem lookup_numbers {s : List (String × Rat)} {x : String} {q : Rat} (found : s.lookup x = some q) :
    (s.map fun p => (p.1, Expr.num (.ofRat p.2))).lookup x = some (.num (.ofRat q)) := by
  induction s with
  | nil => cases found
  | cons p s ih =>
    rw [List.map_cons, List.lookup_cons]
    rw [List.lookup_cons] at found
    cases same : x == p.1 with
    | true =>
      simp only [same] at found
      cases found
      rfl
    | false =>
      simp only [same] at found
      exact ih found

/-- Where the value of every operation lies in the codomain, a rational expression evaluates to its value. -/
theorem evaluatesAt_of_attains {s : List (String × Rat)} {v : Rat} (shallow : e.checkDepth c = .ok ())
    (attained : Attains c (Assignment.ofList s) e v) : EvaluatesAt c s e (.ofRat v) := by
  let values := s.map fun p => (p.1, Expr.num (.ofRat p.2))
  have literals : ∀ p ∈ values, IsLiteral p.2 := by
    intro p member
    obtain ⟨p, -, rfl⟩ := List.mem_map.mp member
    exact .inl ⟨_, rfl⟩
  have assigned : e.assign s = .ok (e.fill fun x => values.lookup x) := by
    rw [← substituteAll_fill literals attained.lambdaFree, substituteAll, List.foldlM_map]
    rfl
  have evaluated : evaluate c (e.fill fun x => values.lookup x) = pure (.num (.ofRat v)) :=
    evaluateWithin_attained (fun x q found => lookup_numbers found) 999 attained
  refine ⟨_, assigned, fun u => ?_⟩
  rw [evaled_eq ((checkDepth_congr (assign_depth assigned)).trans shallow), evaluated]
  rfl

/-- Over the integers the product of the constant divisors is NaN, and the quotient of zero by it stays. -/
theorem constant_divisors_unsettled :
    ∃ e r : Expr, e = .binary .div (.binary .div (.binary .minus (.var "x") (.var "x")) (.num (.ofRat (1 / 2))))
        (.num (.ofRat (2 / 3))) ∧
      r = .binary .div 0 (.binary .mul (.num (.ofRat (1 / 2))) (.num (.ofRat (2 / 3)))) ∧ IsPolynomial e ∧
      (∀ s : List (String × Rat), (∀ x ∈ e.names, x ∈ s.map Prod.fst) → EvaluatesAt integers s e 0) ∧
      (∀ t w, multiplied integers e ⟨0⟩ = .ok t w → ¬ GivesUp integers t w) ∧ ¬ GivesUp integers r ⟨0⟩ ∧
      e.simplify integers 1 ⟨0⟩ = .ok r ⟨0⟩ := by
  let half : Expr := .num (.ofRat (1 / 2))
  let thirds : Expr := .num (.ofRat (2 / 3))
  let e : Expr := .binary .div (.binary .div (.binary .minus (.var "x") (.var "x")) half) thirds
  let r : Expr := .binary .div 0 (.binary .mul half thirds)
  have plain : isConstantName "x" = false := by decide
  have polynomial : IsPolynomial e :=
    .div (.div (.minus (.var plain) (.var plain)) (by norm_num : (1 / 2 : Rat) ≠ 0)) (by norm_num : (2 / 3 : Rat) ≠ 0)
  have settled : ¬ GivesUp integers r ⟨0⟩ := by
    rintro ⟨-, p, w, form⟩
    have atomic : Polynomial.ofExpr? integers.unbounded r ⟨0⟩ = .ok none ⟨0⟩ := by decide +kernel
    rw [atomic] at form
    cases form
  have run : multiplied integers e ⟨0⟩ = .ok r ⟨0⟩ := by
    rw [multiplied, runPasses_eq_within]
    decide +kernel
  have simplified : e.simplify integers 1 ⟨0⟩ = .ok r ⟨0⟩ := by
    rw [simplify, settledOrBest]
    simp only [show (1 : Int).natAbs = 1 from rfl, rounds_one_eq_within]
    decide +kernel
  refine ⟨e, r, rfl, rfl, polynomial, fun s covered => ?_, fun t w returned => ?_, settled, simplified⟩
  · obtain ⟨q, given⟩ : ∃ q, Assignment.ofList s "x" = some q := by
      refine Option.isSome_iff_exists.mp (List.lookup_isSome_iff.mpr ?_)
      simpa using covered "x" (by decide +kernel)
    have value : Attains integers (Assignment.ofList s) (.var "x") q := .var plain given
    have difference : Attains integers (Assignment.ofList s) (.binary .minus (.var "x") (.var "x")) 0 :=
      .operation value value (valueAt?_minus.mpr ⟨q, value.value, q, value.value, sub_self q⟩) (by decide +kernel)
    have divided {a : Expr} {k : Rat} (dividend : Attains integers (Assignment.ofList s) a 0) (nonzero : k ≠ 0) :
        Attains integers (Assignment.ofList s) (.binary .div a (.num (.ofRat k))) 0 := by
      refine .operation dividend (.number k) ?_ (by decide +kernel)
      exact valueAt?_div.mpr ⟨0, dividend.value, k, valueAt?_ofRat.mpr rfl, nonzero, zero_div k⟩
    exact evaluatesAt_of_attains rfl (divided (divided difference (by norm_num)) (by norm_num))
  · rw [run] at returned
    cases returned
    exact settled

end Instances
end Expr
end ComputerAlgebra
