import ComputerAlgebra.Proofs.Number.Functions

/-!
Numbers as a user comes by them: by constructors from literals and by functions of numbers made before,
one call after the other under the same settings. Each call keeps all numbers at hand in the form in
which numbers are kept, so every number that any sequence of calls makes has this form.
-/

namespace ComputerAlgebra

-- The digits of the settings are compared as they are written, never computed.
attribute [local irreducible] Config.bits

/-- The floats of a literal have at most the digits of the settings. -/
def Literal.Fits (c : Config) : Literal → Prop
  | .float x => x.Fits c.bits
  | .complexFloat x y => x.Fits c.bits ∧ y.Fits c.bits
  | _ => True

namespace Operand

/-- An operand that can be given once some numbers are made: one of these, or a literal whose floats
have at most the digits of the settings. Other expressions can be given as well. -/
def Given (c : Config) (made : List Number) : Operand → Prop
  | .expr (.num z) => z ∈ made
  | .expr _ => True
  | .literal l => l.Fits c

def AtHand (c : Config) (u : FloatUnit) : Operand → Prop
  | .expr (.num z) => z.AtHand c u
  | .expr _ => True
  | .literal l => l.Fits c

end Operand

namespace Number

/-- A call that makes a number: of a constructor, or of a function of numbers. -/
inductive Call where
  | integer (value : Operand)
  | fraction (numerator denominator : Operand)
  | real (value : Operand)
  | complex (re im : Operand)
  | number (value : Operand)
  | function (f : NumericFunction) (args : List Operand)

namespace Call

def operands : Call → List Operand
  | .integer x | .real x | .number x => [x]
  | .fraction x y | .complex x y => [x, y]
  | .function _ args => args

/-- The number that a call makes; none where a function has no answer. -/
def run (c : Config) : Call → Computation (Option Number)
  | .integer x => return some (ofInt (← x.toInt c "value"))
  | .fraction n d => return some (← ofFraction c n d)
  | .real x => return some (.real (← x.toReal c))
  | .complex re im => return some (← ofOperands c re im)
  | .number x => return some (← x.toNumber c)
  | .function f args => f.value? c args

end Call

/-- The numbers made and the float unit after finitely many calls, begun with any float unit. A call
that makes no number may have changed the unit. -/
inductive History (c : Config) : List Number → FloatUnit → Prop
  | start (u : FloatUnit) : History c [] u
  | made {zs : List Number} {u w : FloatUnit} {z : Number} (call : Call) (before : History c zs u)
      (given : ∀ x ∈ call.operands, x.Given c zs) (run : call.run c u = .ok (some z) w) :
      History c (z :: zs) w
  | unanswered {zs : List Number} {u w : FloatUnit} (call : Call) (before : History c zs u)
      (given : ∀ x ∈ call.operands, x.Given c zs) (run : call.run c u = .ok none w) :
      History c zs w
  | failed {zs : List Number} {u w : FloatUnit} {f : Fault} (call : Call) (before : History c zs u)
      (given : ∀ x ∈ call.operands, x.Given c zs) (run : call.run c u = .error f w) :
      History c zs w

end Number

variable {c : Config} {u w : FloatUnit}

section Literals

namespace RealNumber

theorem ofDouble_atHand {x : Binary64} {r : RealNumber} (read : ofDouble x = .ok r) :
    AtHand c u r := by
  unfold ofDouble at read
  split at read
  · cases read
    trivial
  · cases read
    trivial
  · cases fraction : Fraction.ofDouble Fraction.defaultBound x with
    | error f =>
      rw [fraction] at read
      cases read
    | ok q =>
      rw [fraction] at read
      cases read
      trivial

theorem ofText_works (s : String) : Works c u (ofText c s) (AtHand c) := by
  unfold ofText
  split
  · exact .ite (fun _ => Works.throw) fun _ => Works.pure trivial
  · refine .ite (fun _ => Works.raise) fun _ => ?_
    refine Works.bind Works.settle fun w _ _ _ => ?_
    refine Works.bind (P := fun _ x => ∀ y ∈ x, y.Fits c.bits) (Works.lift ?_) fun w' x _ fits => ?_
    · rintro x found y ⟨⟩
      exact BigFloat.fits_read? found
    · cases x with
      | some y => exact ofFloat_works (fits y rfl)
      | none => exact Works.throw

theorem ofLiteral_works {l : Literal} (fits : l.Fits c) : Works c u (ofLiteral c l) (AtHand c) := by
  cases l with
  | int | fraction => exact Works.pure trivial
  | double x => exact Works.lift fun r => ofDouble_atHand
  | text s => exact ofText_works s
  | float x => exact ofFloat_works fits
  | none | bool | complexDouble | complexFloat | list => exact Works.throw

end RealNumber

theorem Number.ofLiteral_works {l : Literal} (fits : l.Fits c) :
    Works c u (Number.ofLiteral c l) (Number.AtHand c) := by
  cases l with
  | complexDouble x y =>
    have part (x : Binary64) (w : FloatUnit) :
        Works c w (liftM (RealNumber.ofDouble x)) (RealNumber.AtHand c) :=
      Works.lift fun r => RealNumber.ofDouble_atHand
    exact Number.ofPairs_works (part x u) fun w _ => part y w
  | complexFloat x y => exact Number.ofComplexFloat_works fits
  | none | bool | list => exact Works.throw
  | int | fraction | double | text | float =>
    exact Number.real_works (RealNumber.ofLiteral_works fits)

end Literals

namespace Operand

variable {x : Operand}

theorem AtHand.later (held : x.AtHand c u) (later : FloatUnit.Later c u w) : x.AtHand c w := by
  unfold AtHand at held ⊢
  split
  · exact Number.AtHand.later held later
  · trivial
  · exact held

theorem Given.atHand {zs : List Number} (given : x.Given c zs) (held : ∀ z ∈ zs, z.AtHand c u) :
    x.AtHand c u := by
  unfold Given at given
  unfold AtHand
  split
  · exact held _ given
  · trivial
  · exact given

theorem text_works (x : Operand) : Works c u (x.text c) fun _ _ => True := by
  cases x with
  | expr e => exact Works.settleIf _ _
  | literal l => exact Works.pure trivial

theorem toInt_works (role : String) (x : Operand) : Works c u (x.toInt c role) fun _ _ => True := by
  unfold toInt
  split
  · exact Works.pure trivial
  · exact Works.bind (text_works x) fun _ _ _ _ => Works.throw

theorem toNumber_works (held : x.AtHand c u) : Works c u (x.toNumber c) (Number.AtHand c) := by
  unfold toNumber
  split
  · exact Works.pure held
  · exact Works.throw
  · exact Number.ofLiteral_works held

theorem toReal_works (held : x.AtHand c u) : Works c u (x.toReal c) (RealNumber.AtHand c) := by
  unfold toReal
  split
  · exact Works.pure held
  · exact Works.bind (Works.settleIf _ _) fun _ _ _ _ => Works.throw
  · exact Works.throw
  · exact RealNumber.ofLiteral_works held

end Operand

namespace Number

variable {x y : Operand}

theorem ofFraction_works (x y : Operand) : Works c u (ofFraction c x y) (AtHand c) := by
  have quotient (x : Operand) : Works c u (ofFraction.quotient c x y) (AtHand c) := by
    unfold ofFraction.quotient
    refine Works.bind (Operand.toInt_works _ _) fun _ n _ _ => ?_
    refine Works.bind (Operand.toInt_works _ _) fun _ d _ _ => ?_
    exact .ite (fun _ => Works.throw) fun _ => Works.pure trivial
  unfold ofFraction
  split
  · exact .ite (fun _ => Works.pure trivial) fun _ => quotient _
  · exact quotient _

theorem ofOperands_works (left : x.AtHand c u) (right : y.AtHand c u) :
    Works c u (ofOperands c x y) (AtHand c) := by
  have parts : Works c u (ofOperands.parts c x y) (AtHand c) :=
    ofPairs_works (Operand.toReal_works left) fun _ later => Operand.toReal_works (right.later later)
  unfold ofOperands
  split
  · exact .ite (fun _ => ofLiteral_works left) fun _ => parts
  · exact .ite (fun _ => ofLiteral_works left) fun _ => parts
  · exact parts

end Number

namespace NumericFunction

variable {args : List Operand}

/-- The numbers among the operands of a function, where these are nothing but numbers. -/
theorem numbers?_atHand {zs : List Number} (held : ∀ x ∈ args, x.AtHand c u)
    (found : numbers? args = some zs) : ∀ z ∈ zs, z.AtHand c u := by
  induction args generalizing zs with
  | nil =>
    cases found
    nofun
  | cons x args ih =>
    obtain ⟨first, rest⟩ := List.forall_mem_cons.mp held
    unfold numbers? at found
    rw [List.mapM_cons] at found
    obtain ⟨z, head, found⟩ := Option.bind_eq_some_iff.mp found
    obtain ⟨zs', tail, found⟩ := Option.bind_eq_some_iff.mp found
    cases found
    refine List.forall_mem_cons.mpr ⟨?_, ih rest tail⟩
    split at head
    · cases head
      exact first
    · cases head

theorem undefinedOperand_works (x y : Operand) :
    Works c u (undefinedOperand x y) (Number.AtHand c) := by
  unfold undefinedOperand
  split
  · exact .ite (fun _ => Works.pure trivial) fun _ => Works.throw
  · exact .ite (fun _ => Works.pure trivial) fun _ => Works.throw
  · exact Works.throw

theorem opposite_works {x : Operand} (held : x.AtHand c u) :
    Works c u (opposite c x) (Number.AtHand c) := by
  unfold opposite
  split
  · exact Number.neg_works held
  · exact Works.throw
  · exact Works.throw

theorem ofOthers_works (f : NumericFunction) (held : ∀ x ∈ args, x.AtHand c u) :
    Works c u (f.ofOthers c args) (Number.AtHand c) := by
  unfold ofOthers
  split
  · exact opposite_works (held _ (by simp))
  · refine Works.bind (opposite_works (held _ (by simp))) fun _ _ _ _ => undefinedOperand_works _ _
  · exact .ite (fun _ => Works.pure trivial) fun _ => undefinedOperand_works _ _
  · refine .ite (fun _ => ?_) fun _ => undefinedOperand_works _ _
    refine Works.bind (P := fun _ _ => True) ?_ fun _ _ _ _ => undefinedOperand_works _ _
    exact Works.bind (Number.ln_works _) fun _ _ _ _ => Works.pure trivial
  · exact undefinedOperand_works _ _
  · exact Works.pure trivial
  · exact .ite (fun _ => Works.throw) fun _ => Works.pure trivial
  · exact .ite (fun _ => Works.bind Works.settle fun _ _ _ _ => Works.throw) fun _ => Works.throw
  · exact Number.constant_works _
  · refine Works.bind Works.settle fun _ _ _ _ => ?_
    exact Works.bind (Operand.text_works _) fun _ _ _ _ => Works.throw
  · exact Works.throw
  · exact Works.throw

theorem value?_works (f : NumericFunction) (held : ∀ x ∈ args, x.AtHand c u) :
    Works c u (f.value? c args) (AnyAtHand c) := by
  unfold value?
  split
  · exact some_works (ofOthers_works _ held)
  · exact some_works (ofOthers_works _ held)
  · next found => exact compute?_works _ (numbers?_atHand held found)

end NumericFunction

namespace Number

open NumericFunction (some_atHand some_works)

/-- A call makes a number at hand of operands at hand. -/
theorem Call.run_works (call : Call) (held : ∀ x ∈ call.operands, x.AtHand c u) :
    Works c u (call.run c) (NumericFunction.AnyAtHand c) := by
  cases call with
  | integer x =>
    exact Works.bind (Operand.toInt_works _ x) fun _ _ _ _ => Works.pure (some_atHand trivial)
  | fraction n d => exact some_works (ofFraction_works n d)
  | real x =>
    have found := Operand.toReal_works (held x (by simp [operands]))
    exact Works.bind found fun _ _ _ held => Works.pure (some_atHand held)
  | complex re im =>
    have left := held re (by simp [operands])
    exact some_works (ofOperands_works left (held im (by simp [operands])))
  | number x => exact some_works (Operand.toNumber_works (held x (by simp [operands])))
  | function f args => exact NumericFunction.value?_works f held

/-- A call leaves all numbers at hand that were so before. -/
theorem History.atHand {zs : List Number} (history : History c zs u) : ∀ z ∈ zs, z.AtHand c u := by
  induction history with
  | start => nofun
  | made call _ given run held =>
    have works := call.run_works fun x member => (given x member).atHand held
    obtain ⟨later, found⟩ := works.result run
    exact List.forall_mem_cons.mpr ⟨found _ rfl, fun z member => (held z member).later later⟩
  | unanswered call _ given run held =>
    have works := call.run_works fun x member => (given x member).atHand held
    exact fun z member => (held z member).later (works.result run).1
  | failed call _ given run held =>
    have works := call.run_works fun x member => (given x member).atHand held
    exact fun z member => (held z member).later (works.fault run)

/-- Every number that any sequence of constructors and functions makes has the form in which numbers are
kept. -/
theorem history_canonical {zs : List Number} (history : History c zs u) :
    ∀ z ∈ zs, z.Canonical c :=
  fun z member => (history.atHand z member).canonical

/-- Two, its square root, which is a float, and the opposite of this root. -/
theorem history_canonical_root : ∃ (root opposite : Number) (u : FloatUnit),
    History .default [opposite, root, 2] u ∧ root.isExact = false ∧
      ∀ z ∈ [opposite, root, 2], z.Canonical .default := by
  have two : History .default [2] ⟨15⟩ :=
    .made (.number (.literal (.int 2))) (.start ⟨15⟩)
      (by simp [Call.operands, Operand.Given, Literal.Fits]) rfl
  obtain ⟨root, u, found, regular⟩ := pow_succeeds Config.default_usable.toReadable 2 half ⟨15⟩
  have inexact : root.isExact = false := by
    have computed : ((pow .default 2 half).run' ⟨15⟩).any (!·.isExact) = true := by decide +kernel
    rw [EStateM.run', EStateM.run, found] at computed
    simpa using computed
  have first : History .default [root, 2] u := by
    refine .made (.function .sqrt [.expr (.num 2)]) two (by simp [Call.operands, Operand.Given]) ?_
    change EStateM.bind (pow .default 2 half) _ _ = _
    rw [EStateM.bind, found]
    rfl
  obtain ⟨opposite, w, negated, -⟩ := neg_succeeds (c := .default) Config.default_usable.toReadable regular u
  have second : History .default [opposite, root, 2] w := by
    refine .made (.function .negate [.expr (.num root)]) first
      (by simp [Call.operands, Operand.Given]) ?_
    change EStateM.bind (neg .default root) _ _ = _
    rw [EStateM.bind, negated]
    rfl
  exact ⟨root, opposite, w, second, inexact, history_canonical second⟩

end Number
end ComputerAlgebra
