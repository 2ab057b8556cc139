import ComputerAlgebra.Proofs.Codomain.Shielded
import ComputerAlgebra.Proofs.Scope.Reduction

/-!
Evaluation keeps expressions tame. A number that an arithmetic operation gives is confined to the codomain of
the settings, as long as no condition of an operand is moved out past it; all other numbers come from the
expression. With the real numbers as codomain no other number comes up where none was, and where there is no
condition none comes up either.
-/

namespace ComputerAlgebra.Expr

/-- Numbers are admitted when they fit the codomain, and so are NaN and the fractions that rules put in. -/
structure Confining (c : Config) (N : Number → Prop) : Prop where
  fits : ∀ {z : Number}, numberFits z c.codomain = true → N z
  nan : N .nan
  rational : ∀ q : Rat, N (.real (.rational q))

section Rules
variable {c : Config} {N : Number → Prop} {allowed : Bool} {a b : Expr}

theorem tame_confine (confining : Confining c N) {self r : Expr} (tame : Tame N allowed r) :
    Tame N allowed (confine c self r (.num .nan)) := by
  unfold confine
  split
  · exact Tame.num.mpr confining.nan
  split
  · exact tame
  · exact Tame.num.mpr confining.nan

/-- What arithmetic gives is a number that is yet to be confined, or tame. -/
def Loose (N : Number → Prop) (allowed : Bool) (r : Expr) : Prop := (∃ z, r = .num z) ∨ Tame N allowed r

theorem loose_confine (confining : Confining c N) {self r : Expr} (here : self.codomain c = c.codomain)
    (loose : Loose N allowed r) : Tame N allowed (confine c self r (.num .nan)) := by
  rcases loose with ⟨z, rfl⟩ | tame
  · unfold confine
    split
    · exact Tame.num.mpr confining.nan
    split
    · next inside =>
      rw [here] at inside
      exact Tame.num.mpr (confining.fits inside)
    · exact Tame.num.mpr confining.nan
  · exact tame_confine confining tame

private theorem offers_loose {m : Computation (Option Number)} :
    Returns (do return (← m).map .num) (Offers (Loose N allowed)) :=
  Returns.bind .trivial fun _ _ => .pure (.map (Q := fun _ => True) (fun _ _ => trivial) fun z _ => .inl ⟨z, rfl⟩)

private theorem offers_truth' {m : Computation (Option Bool)} :
    Returns (do return (← m).map .bool) (Offers (Tame N allowed)) :=
  Returns.bind .trivial fun _ _ => .pure (.map (Q := fun _ => True) (fun _ _ => trivial) fun t _ => .bool t)

theorem unaryRule?_loose (op : UnaryOp) (a : Expr) :
    Returns (unaryRule? c op a) (Offers (Loose N allowed)) := by
  unfold unaryRule?
  split
  · exact Returns.pure (.some (.inr (.bool _)))
  · exact offers_loose
  · exact Returns.pure .none

theorem identityRule?_tame (confining : Confining c N) {evaluate : Expr → Computation Expr} {op : BinaryOp}
    (left : Tame N allowed a) (right : Tame N allowed b) :
    Returns (identityRule? c evaluate op a b) (Offers (Tame N allowed)) := by
  have number {n : Nat} : Tame N allowed (OfNat.ofNat n : Expr) := Tame.num.mpr (confining.rational _)
  unfold identityRule?
  split
  · refine Returns.pure (.ite (fun _ => .some number) fun _ => ?_)
    exact .ite (fun _ => .some right) fun _ => .ite (fun _ => .some left) fun _ => .none
  · refine Judgment.returns.ite (fun _ => Returns.pure (.some left)) fun _ => ?_
    refine Judgment.returns.ite (fun _ => ?_) fun _ => Returns.pure .none
    exact Returns.bind .trivial fun _ _ => .pure (.ite (fun _ => .some number) fun _ => .none)
  · refine Returns.pure (.ite (fun _ => .some number) fun _ => ?_)
    exact .ite (fun _ => .some left) fun _ => .none
  · exact Returns.pure .none

theorem connectiveRule?_tame {op : BinaryOp} (left : Tame N allowed a) (right : Tame N allowed b) :
    Offers (Tame N allowed) (connectiveRule? op a b) := by
  unfold connectiveRule?
  split <;> first
    | exact .none
    | exact .some (.bool _)
    | exact .some left
    | exact .some right
    | exact .some (Tame.negation.mpr left)
    | exact .some (Tame.negation.mpr right)

theorem statementRule?_tame {evaluate : Expr → Computation Expr} {op : BinaryOp}
    (statement : op.isStatement = true) (left : Tame N allowed a) (right : Tame N allowed b) :
    Returns (binaryRule? c evaluate op a b) (Offers (Tame N allowed)) := by
  cases op with
  | and | or | xor | implies => exact Returns.pure (connectiveRule?_tame left right)
  | equals | order | mem => exact offers_truth'
  | _ => cases statement

theorem arithmeticRule?_loose (confining : Confining c N) {evaluate : Expr → Computation Expr} {op : BinaryOp}
    (arithmetic : op.isStatement = false) (left : Tame N allowed a) (right : Tame N allowed b) :
    Returns (binaryRule? c evaluate op a b) (Offers (Loose N allowed)) := by
  unfold binaryRule?
  split
  case h_8 =>
    split
    · exact offers_loose
    · exact (identityRule?_tame confining left right).mono fun _ offered r same => .inr (offered r same)
  all_goals cases arithmetic

theorem builtin?_tame (confining : Confining c N) {name : String} {args : List Expr}
    (all : ∀ arg ∈ args, Tame N false arg) : Offers (Tame N allowed) (builtin? name args) := by
  have euler : Tame N false (.var "e") := .var "e"
  unfold builtin?
  split <;> try simp only [List.forall_mem_cons] at all
  case h_13 => exact .some ((Tame.arithmetic rfl).mpr ⟨all.1, Tame.num.mpr (confining.rational _)⟩)
  case h_14 | h_15 => exact .some ((Tame.arithmetic rfl).mpr ⟨euler, all.1⟩)
  case h_16 => exact .some ((Tame.arithmetic rfl).mpr ⟨all.1, all.2.1⟩)
  case h_21 => exact .none
  all_goals exact .some ((Tame.operation (by simp)).mpr all.1)

theorem beta?_tame {head r : Expr} {args : List Expr} (function : Tame N allowed head)
    (all : ∀ arg ∈ args, Tame N false arg) (reduced : beta? head args = .ok (some r)) : Tame N allowed r := by
  unfold beta? at reduced
  split at reduced
  · next p body a rest =>
    rw [List.forall_mem_cons] at all
    cases answer : body.substitute (.var p) a with
    | error f =>
      rw [answer] at reduced
      cases reduced
    | ok r' =>
      rw [answer] at reduced
      have tame := asTame_substitute all.1 answer _ (Tame.lam.mp function)
      cases reduced
      split
      · exact tame
      · exact Tame.app.mpr ⟨tame, all.2⟩
  · cases reduced

theorem reduceOnce?_tame (confining : Confining c N) {self head r : Expr} {args : List Expr}
    (function : Tame N allowed head) (all : ∀ arg ∈ args, Tame N false arg)
    (reduced : reduceOnce? self head args = .ok (some r)) : Tame N allowed r := by
  rcases reduceOnce?_cases reduced with ⟨name, rfl, found⟩ | taken
  · exact builtin?_tame confining all r found
  · exact beta?_tame function all taken

theorem providedRule?_tame (confining : Confining c N) (whole : Tame N allowed (.provided a b)) :
    Offers (Tame N allowed) (providedRule? a b) := by
  obtain ⟨open_, left, right⟩ := Tame.provided.mp whole
  unfold providedRule?
  split
  · split
    · exact .some left
    · exact .some (Tame.num.mpr confining.nan)
  · obtain ⟨-, inner, condition⟩ := Tame.provided.mp left
    exact .some (Tame.provided.mpr ⟨open_, inner, (Tame.statement rfl).mpr ⟨condition, right⟩⟩)
  · exact .none

end Rules

section Nodes
variable {c : Config} {N : Number → Prop} {allowed : Bool} {evaluate : Expr → Computation Expr} {e : Expr}
  {parts : List Expr}

theorem asTame_unconditioned (part : Expr) : AsTame N part part.unconditioned := by
  intro allowed tame
  cases part with
  | provided e p => exact (Tame.provided.mp tame).2.1
  | _ => exact tame

theorem tame_condition {part p : Expr} (tame : Tame N allowed part) (found : part.condition = some p) :
    allowed = true ∧ Tame N allowed p := by
  cases part with
  | provided e q =>
    cases found
    exact ⟨(Tame.provided.mp tame).1, (Tame.provided.mp tame).2.2⟩
  | _ => cases found

theorem tame_joined {ps : List Expr} (all : ∀ p ∈ ps, Tame N allowed p) :
    ∀ {p : Expr}, Tame N allowed p → Tame N allowed (ps.foldl (.binary .and) p) := by
  induction ps with
  | nil => exact fun tame => tame
  | cons q ps ih =>
    intro p tame
    rw [List.forall_mem_cons] at all
    exact ih all.2 ((Tame.statement rfl).mpr ⟨tame, all.1⟩)

/-- Moving conditions out of a node keeps it tame when its rule does. -/
theorem liftConditions_tame {rule : List Expr → Computation (Option Expr)} {self : Expr} {h : Head}
    (headed : self.head? = some h)
    (ruled : ∀ parts, parts.length = self.children.length → Tame N allowed (self.withChildren parts) →
      Returns (rule parts) (Offers (Tame N allowed))) (fuel : Nat) :
    ∀ {parts : List Expr}, parts.length = self.children.length → Tame N allowed (self.withChildren parts) →
      Returns (liftConditions (fun _ => return none) rule self fuel parts) (Tame N allowed) := by
  induction fuel with
  | zero =>
    intro parts size tame
    unfold liftConditions
    refine Returns.bind (ruled parts size tame) fun r offered => ?_
    cases r with
    | some e => exact Returns.pure (offered e rfl)
    | none =>
      dsimp only
      split <;> first | exact Returns.pure tame | simp_all
  | succ fuel ih =>
    intro parts size tame
    unfold liftConditions
    refine Returns.bind (ruled parts size tame) fun r offered => ?_
    cases r with
    | some e => exact Returns.pure (offered e rfl)
    | none =>
      obtain ⟨still, same⟩ := withChildren_head headed size
      have all : ∀ part ∈ parts, Tame N allowed part := by
        have parts := (Tame.iff_parts.mp tame).2.1
        rwa [same] at parts
      have bare_size : (parts.map unconditioned).length = self.children.length := by simpa using size
      have bare : Tame N allowed (self.withChildren (parts.map unconditioned)) := by
        rw [← withChildren_withChildren headed size bare_size]
        refine asTame_withChildren still ?_ _ tame
        rw [same, List.forall₂_map_right_iff]
        exact List.forall₂_same.mpr fun part _ => asTame_unconditioned part
      have conditions : ∀ p ∈ parts.filterMap condition, allowed = true ∧ Tame N allowed p := by
        intro p member
        obtain ⟨part, inside, found⟩ := List.mem_filterMap.mp member
        exact tame_condition (all part inside) found
      dsimp only
      split
      · exact Returns.pure tame
      · exact Returns.pure tame
      · exact Returns.pure tame
      next p ps _ _ found counted =>
        cases counted
        rw [found, List.forall_mem_cons] at conditions
        have joined := tame_joined (fun q member => (conditions.2 q member).2) conditions.1.2
        rw [pure_bind]
        exact Returns.bind (ih bare_size bare) fun inner kept =>
          .pure (Tame.provided.mpr ⟨conditions.1.1, kept, joined⟩)

/-- What stands for an expression is as tame; for a name there stands the name or a number. -/
def Stands (N : Number → Prop) (e r : Expr) : Prop :=
  AsTame N e r ∧ ∀ x, e = .var x → r = .var x ∨ ∃ z, r = .num z

/-- Arithmetic on operands without conditions. -/
theorem evaluateNode_arithmetic (confining : Confining c N) (ruled : e.isRuled = true)
    (here : e.codomain c = c.codomain) (bare : ∀ part ∈ parts, Tame N false part)
    (stays : Tame N allowed (e.withChildren parts))
    (rule : Returns (evaluationRule c evaluate e parts) (Offers (Loose N allowed))) :
    Returns (evaluateNode c evaluate e parts) (Tame N allowed) := by
  have unconditioned : ∀ part ∈ parts, part.condition = none := fun part member =>
    Throughout.root (bare part member).conditions
  rw [evaluateNode_bare ruled unconditioned]
  refine Returns.bind .trivial fun _ _ => Judgment.returns.ite (fun _ => .pure (Tame.num.mpr confining.nan)) fun _ => ?_
  refine Returns.bind rule fun r offered => .pure (loose_confine confining here ?_)
  cases r with
  | some s => exact offered s rfl
  | none => exact .inr stays

theorem evaluateNode_lifting (confining : Confining c N) (ruled : e.isRuled = true) {h : Head}
    (headed : e.head? = some h) (size : parts.length = e.children.length)
    (tame : Tame N allowed (e.withChildren parts))
    (rule : ∀ parts, parts.length = e.children.length → Tame N allowed (e.withChildren parts) →
      Returns (evaluationRule c evaluate e parts) (Offers (Tame N allowed))) :
    Returns (evaluateNode c evaluate e parts) (Tame N allowed) := by
  rw [evaluateNode_ruled ruled]
  refine Returns.bind .trivial fun _ _ => Judgment.returns.ite (fun _ => .pure (Tame.num.mpr confining.nan)) fun _ => ?_
  exact Returns.bind (liftConditions_tame headed rule _ size tame) fun r kept => .pure (tame_confine confining kept)

theorem evaluateNode_unary (confining : Confining c N) {op : UnaryOp} {a x : Expr}
    (tame : Tame N allowed (.unary op x)) :
    Returns (evaluateNode c evaluate (.unary op a) [x]) (Tame N allowed) := by
  by_cases negated : op = .not
  · subst negated
    refine evaluateNode_lifting confining rfl rfl rfl tame fun parts size whole => ?_
    obtain ⟨y, rfl⟩ := List.length_eq_one_iff.mp size
    cases y with
    | bool t => exact Returns.pure (.some (.bool _))
    | _ => exact Returns.pure .none
  · have operand := (Tame.operation negated).mp tame
    refine evaluateNode_arithmetic confining rfl ?_ (by simpa using operand) tame (unaryRule?_loose op x)
    cases op <;> first | rfl | exact absurd rfl negated

theorem evaluateNode_binary (confining : Confining c N) {op : BinaryOp} {a b x y : Expr}
    (tame : Tame N allowed (.binary op x y)) :
    Returns (evaluateNode c evaluate (.binary op a b) [x, y]) (Tame N allowed) := by
  cases sort : op.isStatement with
  | true =>
    refine evaluateNode_lifting confining rfl rfl rfl tame fun parts size whole => ?_
    obtain ⟨s, t, rfl⟩ := List.length_eq_two.mp size
    obtain ⟨left, right⟩ := (Tame.statement sort).mp whole
    exact statementRule?_tame sort left right
  | false =>
    obtain ⟨left, right⟩ := (Tame.arithmetic sort).mp tame
    refine evaluateNode_arithmetic confining rfl (by simp [codomain, sort]) (by simpa using ⟨left, right⟩) tame ?_
    exact arithmeticRule?_loose confining sort left.relax right.relax

theorem evaluateNode_app (confining : Confining c N) {f x : Expr} {args xs : List Expr}
    (deeper : ∀ e, Tame N allowed e → Returns (evaluate e) (Tame N allowed))
    (size : xs.length = args.length) (tame : Tame N allowed (.app x xs)) :
    Returns (evaluateNode c evaluate (.app f args) (x :: xs)) (Tame N allowed) := by
  refine evaluateNode_lifting confining rfl rfl (by simp [children, size]) tame fun parts size whole => ?_
  cases parts with
  | nil => cases size
  | cons y ys =>
    obtain ⟨function, all⟩ := Tame.app.mp whole
    refine Returns.bind (P := Offers (Tame N allowed)) ?_ fun r reduced => ?_
    · refine (Judgment.Lenient.lift (J := .returns) ⟨Returns.throw⟩) ?_
      rintro r step e rfl
      exact reduceOnce?_tame confining function all step
    · cases r with
      | none => exact Returns.pure .none
      | some e => exact Returns.bind (deeper e (reduced e rfl)) fun _ kept => .pure (.some kept)

theorem evaluateNode_lam (confining : Confining c N) {p : String} {body x y : Expr}
    (tame : Tame N allowed (.lam p body)) (parameter : x = .var p ∨ ∃ z, x = .num z) (kept : Tame N allowed y) :
    Returns (evaluateNode c evaluate (.lam p body) [x, y]) (Tame N allowed) := by
  have stays : Tame N allowed ((Expr.lam p body).withChildren [x, y]) := by
    rcases parameter with rfl | ⟨z, rfl⟩
    · exact Tame.lam.mpr kept
    · exact tame
  rw [evaluateNode_ruled rfl, liftConditions_function]
  refine Returns.bind .trivial fun _ _ => Judgment.returns.ite (fun _ => .pure (Tame.num.mpr confining.nan)) fun _ => ?_
  refine Returns.bind (Returns.bind (P := Offers (Tame N allowed)) ?_ fun r offered => .pure ?_) fun r kept =>
    .pure (tame_confine confining kept)
  · refine Returns.pure ?_
    unfold etaRule?
    split
    · exact .ite (fun _ => .some (Tame.app.mp kept).1) fun _ => .none
    · exact .none
  · cases r with
    | some s => exact offered s rfl
    | none => exact stays

theorem decideCases_tame (confining : Confining c N) {cases : List (Expr × Expr)}
    (all : ∀ entry ∈ cases, Tame N allowed entry.1 ∧ Tame N allowed entry.2) :
    Returns (decideCases evaluate cases) (Tame N allowed) := by
  unfold decideCases
  have known (entry : Expr × Expr) (_ : entry ∈ cases) : Returns (evaluate entry.2) fun _ => True := .trivial
  refine Returns.bind (Compositional.openCases (J := .returns) (P := Tame N allowed) known all) fun r kept => ?_
  split
  · exact Returns.pure (Tame.num.mpr confining.nan)
  · exact Returns.pure (kept _ List.mem_cons_self).1
  · exact Returns.pure (Tame.piecewise.mpr kept)

theorem evaluateNode_tame (confining : Confining c N)
    (deeper : ∀ allowed e, Tame N allowed e → Returns (evaluate e) (Tame N allowed))
    (related : List.Forall₂ (Stands N) e.children parts) (tame : Tame N allowed e) :
    Returns (evaluateNode c evaluate e parts) (Tame N allowed) := by
  have size : parts.length = e.children.length := related.length_eq.symm
  have rebuilt {h : Head} (headed : e.head? = some h) : Tame N allowed (e.withChildren parts) :=
    asTame_withChildren headed (related.imp fun _ _ both => both.1) _ tame
  cases e with
  | num | bool => exact Returns.pure tame
  | var x =>
    rw [evaluateNode]
    refine Judgment.returns.ite (fun _ => ?_) fun _ => Returns.pure tame
    exact Returns.bind .trivial fun z _ => .pure (loose_confine confining rfl (.inl ⟨z, rfl⟩))
  | unary op a =>
    obtain ⟨x, rfl⟩ := List.length_eq_one_iff.mp size
    exact evaluateNode_unary confining (rebuilt rfl)
  | binary op a b =>
    obtain ⟨x, y, rfl⟩ := List.length_eq_two.mp size
    exact evaluateNode_binary confining (rebuilt rfl)
  | lam p body =>
    obtain ⟨x, y, rfl⟩ := List.length_eq_two.mp size
    obtain ⟨first, rest⟩ := List.forall₂_cons.mp related
    obtain ⟨second, -⟩ := List.forall₂_cons.mp rest
    exact evaluateNode_lam confining tame (first.2 p rfl) (second.1 _ (Tame.lam.mp tame))
  | app f args =>
    cases related with
    | cons _ rest => exact evaluateNode_app confining (deeper allowed) rest.length_eq.symm (rebuilt rfl)
  | provided e p =>
    refine evaluateNode_lifting confining rfl rfl size (rebuilt rfl) fun parts size whole => ?_
    obtain ⟨x, y, rfl⟩ := List.length_eq_two.mp size
    exact Returns.pure (providedRule?_tame confining whole)
  | interval low high =>
    refine evaluateNode_lifting confining rfl rfl size (rebuilt rfl) fun parts size _ => ?_
    obtain ⟨x, y, rfl⟩ := List.length_eq_two.mp size
    exact Returns.pure .none
  | piecewise cases =>
    exact decideCases_tame confining (Tame.piecewise.mp (rebuilt rfl))

/-- Evaluation keeps expressions tame. -/
theorem evaluateWithin_tame (confining : Confining c N) (fuel : Nat) :
    ∀ allowed e, Tame N allowed e → Returns (evaluateWithin c fuel e) (Tame N allowed) := by
  induction fuel with
  | zero => exact fun _ _ _ => Returns.throw
  | succ fuel ih =>
    have step : ∀ e parts, List.Forall₂ (Stands N) e.children parts →
        Returns (evaluateNode c (evaluateWithin c fuel) e parts) (Stands N e) := by
      intro e parts related u r w run
      refine ⟨fun allowed tame => evaluateNode_tame confining ih related tame u r w run, ?_⟩
      rintro x rfl
      exact (evaluateNode_var x parts u r w run).imp And.right And.right
    exact fun allowed e tame => (foldM_returns step e).mono fun _ stands => stands.1 allowed tame

end Nodes

end ComputerAlgebra.Expr

/-!
Evaluation over the real numbers. Whatever is made of an expression with real numbers, complex numbers that
come up on the way have become NaN, unless a condition is moved out of an operand: the value below it is not
looked at again.
-/

namespace ComputerAlgebra.Expr

abbrev RealNumbers (e : Expr) : Prop := OfNumbers (·.isReal = true) e

instance : DecidablePred RealNumbers := fun e =>
  decidable_of_iff (∀ n ∈ e.nodes, ∀ z, n.number? = some z → z.isReal = true) (by
    refine forall₂_congr fun n _ => forall_congr' fun z => ?_
    cases n <;> simp [number?])

theorem confining_real {c : Config} (real : c.codomain = .real) : Confining c (·.isReal = true) where
  fits inside := by
    rw [real] at inside
    exact inside
  nan := rfl
  rational _ := rfl

/-- What is evaluated without conditions has a value without conditions. -/
theorem evaled_unconditional {c : Config} {e r : Expr} {u w : FloatUnit} (bare : Unconditional e)
    (returned : e.evaled c u = .ok r w) : Unconditional r := by
  have confining : Confining c fun _ => True := ⟨fun _ => trivial, trivial, fun _ => trivial⟩
  have tame : Tame (fun _ => True) false e := ⟨fun _ _ _ _ => trivial, bare⟩
  exact (evaluateWithin_tame confining allowance false e tame u r w (evaled_ok returned).2).conditions

/-- With the real numbers as codomain, the value of an expression with real numbers has real numbers only,
when no condition stands inside an operand of arithmetic or inside an argument. -/
theorem evaled_real {c : Config} (real : c.codomain = .real) {e r : Expr} {u w : FloatUnit} (given : RealNumbers e)
    (shielded : Shielded e) (returned : e.evaled c u = .ok r w) : RealNumbers r :=
  (evaluateWithin_tame (confining_real real) allowance true e ⟨given, shielded⟩ u r w (evaled_ok returned).2).numbers

/-- A root that a function takes in a case of a conditional expression under a condition. -/
theorem evaled_real_root :
    ∃ (c : Config) (e r : Expr), c = { Config.default with codomain := .real } ∧
      e = .provided (.piecewise
          [(.app (.lam "x" (.binary .pow (.var "x") half)) [.num (.real (.rational (-4)))],
            .binary (.order .greater) (.var "y") 0),
          (.app (.lam "x" (.binary .sum (.var "x") 1)) [.var "y"], .binary (.order .less) (.var "y") 0)])
        (.binary (.order .greater) (.var "z") 0) ∧
      r = .provided (.piecewise
          [(.num .nan, .binary (.order .greater) (.var "y") 0),
          (.binary .sum (.var "y") 1, .binary (.order .less) (.var "y") 0)])
        (.binary (.order .greater) (.var "z") 0) ∧
      c.codomain = .real ∧ RealNumbers e ∧ Shielded e ∧ e.evaled c ⟨100⟩ = .ok r ⟨100⟩ ∧ RealNumbers r := by
  let c : Config := { Config.default with codomain := .real }
  let e : Expr := .provided (.piecewise
      [(.app (.lam "x" (.binary .pow (.var "x") half)) [.num (.real (.rational (-4)))],
        .binary (.order .greater) (.var "y") 0),
      (.app (.lam "x" (.binary .sum (.var "x") 1)) [.var "y"], .binary (.order .less) (.var "y") 0)])
    (.binary (.order .greater) (.var "z") 0)
  let r : Expr := .provided (.piecewise
      [(.num .nan, .binary (.order .greater) (.var "y") 0),
      (.binary .sum (.var "y") 1, .binary (.order .less) (.var "y") 0)])
    (.binary (.order .greater) (.var "z") 0)
  have given : RealNumbers e := by decide +kernel
  have shielded : Shielded e := by decide +kernel
  have returned : e.evaled c ⟨100⟩ = .ok r ⟨100⟩ := by decide +kernel
  exact ⟨c, e, r, rfl, rfl, rfl, rfl, given, shielded, returned, evaled_real rfl given shielded returned⟩

/-- The root of a number under a condition is taken after the condition has been moved out of the root. -/
theorem conditional_root_complex :
    ∃ (c : Config) (e r : Expr), c = { Config.default with codomain := .real } ∧
      e = .binary .pow (.provided (.num (.real (.rational (-4)))) (.binary (.order .greater) (.var "x") 0)) half ∧
      c.codomain = .real ∧ RealNumbers e ∧ e.evaled c ⟨100⟩ = .ok r ⟨100⟩ ∧
      r = .provided (.num (.complex (.rational 0) (.rational 2))) (.binary (.order .greater) (.var "x") 0) ∧
      ¬RealNumbers r :=
  ⟨_, _, _, rfl, rfl, rfl, by decide +kernel, by decide +kernel, rfl, by decide +kernel⟩

end ComputerAlgebra.Expr
