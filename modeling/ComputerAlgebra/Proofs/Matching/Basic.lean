import ComputerAlgebra.Evaluation.Basic
import ComputerAlgebra.Proofs.Expr.Children
import ComputerAlgebra.Proofs.InStep
import ComputerAlgebra.Simplification.Angle
import Mathlib.Data.Option.Basic

/-!
Pairs of expressions that look alike to every rule. Matching expressions have the same head and matching
parts; variables that do not have the same name have names that no rule asks for, and of a function nothing is
seen but whether its body is undefined. Whatever a rule asks about an expression has the same answer for a matching one.
-/

namespace ComputerAlgebra.Expr

/-- A name without a meaning: it is neither a constant nor a built-in function. -/
def Plain (name : String) : Prop :=
  isConstantName name = false ∧ ∀ arguments, builtin? name arguments = none

/-- What two matching expressions look like side by side. -/
inductive Paired (R : Expr → Expr → Prop) : Expr → Expr → Prop
  | num (z) : Paired R (.num z) (.num z)
  | bool (b) : Paired R (.bool b) (.bool b)
  | var {x y} : x = y ∨ Plain x ∧ Plain y → Paired R (.var x) (.var y)
  | lam {p q body body'} : body.isNaN = body'.isNaN → Paired R (.lam p body) (.lam q body')
  | unary (op) {a a'} : R a a' → Paired R (.unary op a) (.unary op a')
  | binary (op) {a a' b b'} : R a a' → R b b' → Paired R (.binary op a b) (.binary op a' b')
  | app {f f' args args'} : R f f' → List.Forall₂ R args args' →
      Paired R (.app f args) (.app f' args')
  | provided {e e' p p'} : R e e' → R p p' → Paired R (.provided e p) (.provided e' p')
  | piecewise {cases cases'} : List.Forall₂ (fun s t => R s.1 t.1 ∧ R s.2 t.2) cases cases' →
      Paired R (.piecewise cases) (.piecewise cases')
  | interval {a a' b b'} : R a a' → R b b' → Paired R (.interval a b) (.interval a' b')

/-- A relation that goes by the heads of expressions and by their parts, wherever no parameter is bound. -/
structure Matching (R : Expr → Expr → Prop) : Prop where
  num : ∀ {z e}, R (.num z) e ↔ e = .num z
  bool : ∀ {b e}, R (.bool b) e ↔ e = .bool b
  constant : ∀ {x}, isConstantName x = true → R (.var x) (.var x)
  var : ∀ {x e}, R (.var x) e → ∃ y, e = .var y ∧ (x = y ∨ Plain x ∧ Plain y)
  lam : ∀ {p body e}, R (.lam p body) e → ∃ q body', e = .lam q body' ∧ body.isNaN = body'.isNaN
  head : ∀ {e e' h}, e.head? = some h →
    (R e e' ↔ e'.head? = some h ∧ List.Forall₂ R e.children e'.children)
  depth : ∀ {e e'}, R e e' → e.depth = e'.depth

private theorem pairs_of_parts {R : Expr → Expr → Prop} {cases : List (Expr × Expr)} :
    ∀ {cases' : List (Expr × Expr)},
      List.Forall₂ R (cases.flatMap fun (e, p) => [e, p]) (cases'.flatMap fun (e, p) => [e, p]) →
      List.Forall₂ (fun s t => R s.1 t.1 ∧ R s.2 t.2) cases cases' := by
  induction cases with
  | nil =>
    intro cases' related
    cases cases' with
    | nil => exact .nil
    | cons t rest => cases related
  | cons s cases ih =>
    intro cases' related
    cases cases' with
    | nil => cases related
    | cons t cases' =>
      cases related with
      | cons first related =>
        cases related with
        | cons second rest => exact .cons ⟨first, second⟩ (ih rest)

private theorem parts_of_pairs {R : Expr → Expr → Prop} {cases cases' : List (Expr × Expr)}
    (related : List.Forall₂ (fun s t => R s.1 t.1 ∧ R s.2 t.2) cases cases') :
    List.Forall₂ R (cases.flatMap fun (e, p) => [e, p]) (cases'.flatMap fun (e, p) => [e, p]) := by
  induction related with
  | nil => exact .nil
  | cons both _ ih => exact .cons both.1 (.cons both.2 ih)

namespace Matching

variable {R : Expr → Expr → Prop} {a a' b b' : Expr} (m : Matching R)
include m

theorem unary {op : UnaryOp} (part : R a a') : R (.unary op a) (.unary op a') :=
  (m.head rfl).mpr ⟨rfl, .cons part .nil⟩

theorem binary {op : BinaryOp} (left : R a a') (right : R b b') :
    R (.binary op a b) (.binary op a' b') :=
  (m.head rfl).mpr ⟨rfl, .cons left (.cons right .nil)⟩

theorem app {args args' : List Expr} (function : R a a') (all : List.Forall₂ R args args') :
    R (.app a args) (.app a' args') :=
  (m.head rfl).mpr ⟨rfl, .cons function all⟩

theorem provided (left : R a a') (right : R b b') : R (.provided a b) (.provided a' b') :=
  (m.head rfl).mpr ⟨rfl, .cons left (.cons right .nil)⟩

theorem piecewise {cases cases' : List (Expr × Expr)}
    (all : List.Forall₂ (fun s t => R s.1 t.1 ∧ R s.2 t.2) cases cases') :
    R (.piecewise cases) (.piecewise cases') :=
  (m.head rfl).mpr ⟨rfl, parts_of_pairs all⟩

theorem number (z : Number) : R (.num z) (.num z) := m.num.mpr rfl

theorem truth (t : Bool) : R (.bool t) (.bool t) := m.bool.mpr rfl

theorem view (related : R a b) : Paired R a b := by
  cases a with
  | num z =>
    obtain rfl := m.num.mp related
    exact .num z
  | bool t =>
    obtain rfl := m.bool.mp related
    exact .bool t
  | var x =>
    obtain ⟨y, rfl, names⟩ := m.var related
    exact .var names
  | lam p body =>
    obtain ⟨q, body', rfl, undefined⟩ := m.lam related
    exact .lam undefined
  | unary op a =>
    obtain ⟨headed, parts⟩ := (m.head rfl).mp related
    cases b <;> cases headed
    cases parts with
    | cons first _ => exact .unary op first
  | binary op a₁ a₂ =>
    obtain ⟨headed, parts⟩ := (m.head rfl).mp related
    cases b <;> cases headed
    cases parts with
    | cons first parts =>
      cases parts with
      | cons second _ => exact .binary op first second
  | app f args =>
    obtain ⟨headed, parts⟩ := (m.head rfl).mp related
    cases b <;> cases headed
    cases parts with
    | cons first rest => exact .app first rest
  | provided e p =>
    obtain ⟨headed, parts⟩ := (m.head rfl).mp related
    cases b <;> cases headed
    cases parts with
    | cons first parts =>
      cases parts with
      | cons second _ => exact .provided first second
  | piecewise cases =>
    obtain ⟨headed, parts⟩ := (m.head rfl).mp related
    cases b <;> cases headed
    exact .piecewise (pairs_of_parts parts)
  | interval low high =>
    obtain ⟨headed, parts⟩ := (m.head rfl).mp related
    cases b <;> cases headed
    cases parts with
    | cons first parts =>
      cases parts with
      | cons second _ => exact .interval first second

theorem withChildren {h : Head} {parts parts' : List Expr} (headed : a.head? = some h)
    (related : R a a') (size : parts.length = a.children.length)
    (all : List.Forall₂ R parts parts') : R (a.withChildren parts) (a'.withChildren parts') := by
  obtain ⟨headed', old⟩ := (m.head headed).mp related
  have size' : parts'.length = a'.children.length := by
    rw [← all.length_eq, size, old.length_eq]
  obtain ⟨still, new⟩ := withChildren_head headed size
  obtain ⟨still', new'⟩ := withChildren_head headed' size'
  rw [m.head still, new, new']
  exact ⟨still', all⟩

section Questions

theorem number? (related : R a b) : a.number? = b.number? := by cases m.view related <;> rfl
theorem real? (related : R a b) : a.real? = b.real? := by cases m.view related <;> rfl
theorem rational? (related : R a b) : a.rational? = b.rational? := by cases m.view related <;> rfl
theorem integer? (related : R a b) : a.integer? = b.integer? := by cases m.view related <;> rfl
theorem isZero (related : R a b) : a.isZero = b.isZero := by cases m.view related <;> rfl
theorem isNegative (related : R a b) : a.isNegative = b.isNegative := by cases m.view related <;> rfl
theorem isNaN (related : R a b) : a.isNaN = b.isNaN := by cases m.view related <;> rfl
theorem isSet (related : R a b) : a.isSet = b.isSet := by cases m.view related <;> rfl
theorem isRedex (related : R a b) : a.isRedex = b.isRedex := by
  cases m.view related with
  | app function _ => cases m.view function <;> rfl
  | _ => rfl
theorem hasNoOrder (related : R a b) : a.hasNoOrder = b.hasNoOrder := by cases m.view related <;> rfl

theorem isNumber (related : R a b) : a.isNumber = b.isNumber := by
  rw [Expr.isNumber, Expr.isNumber, m.number? related]

theorem eq_num (related : R a b) (z : Number) : a = .num z ↔ b = .num z := by
  cases m.view related <;> simp

theorem isOne (related : R a b) : a.isOne = b.isOne := by
  unfold Expr.isOne
  rw [decide_eq_decide]
  exact m.eq_num related _

theorem isMinusOne (related : R a b) : a.isMinusOne = b.isMinusOne := by
  unfold Expr.isMinusOne
  rw [decide_eq_decide]
  exact m.eq_num related _

theorem codomain {c : Config} (related : R a b) : a.codomain c = b.codomain c := by
  cases m.view related with
  | unary op _ => cases op <;> rfl
  | _ => rfl

theorem fits {domain : Domain} (related : R a b) : fits domain a = fits domain b := by
  cases m.view related <;> rfl

theorem conditionDepth {e : Expr} : ∀ {e' : Expr}, R e e' → e.conditionDepth = e'.conditionDepth := by
  induction e using children_induction with
  | node e ih =>
    intro e' related
    cases m.view related with
    | provided first _ =>
      rw [Expr.conditionDepth, Expr.conditionDepth, ih _ (by simp [children]) first]
    | _ => rfl

theorem piMultiple? {e : Expr} : ∀ {e' : Expr}, R e e' → e.piMultiple? = e'.piMultiple? := by
  induction e using children_induction with
  | node e ih =>
    intro e' related
    cases m.view related with
    | binary op first second =>
      have left := ih _ (by simp [children]) first
      have right := ih _ (by simp [children]) second
      cases op <;>
        simp only [Expr.piMultiple?, left, right, m.rational? first, m.rational? second]
    | @var x y names =>
      rcases names with rfl | ⟨plain, plain'⟩
      · rfl
      · have other {z : String} (plain : Plain z) : z ≠ "pi" := by
          rintro rfl
          exact absurd plain.1 (by decide)
        simp [Expr.piMultiple?, other plain, other plain']
    | _ => rfl

omit m in
private theorem any_isNaN (m : Matching R) {es es' : List Expr} (all : List.Forall₂ R es es') :
    es.any Expr.isNaN = es'.any Expr.isNaN := by
  induction all with
  | nil => rfl
  | cons first _ ih => rw [List.any_cons, List.any_cons, m.isNaN first, ih]

/-- The parts that are undefined are those of a function too. -/
theorem undefinedPart (related : R a b) : a.children.any Expr.isNaN = b.children.any Expr.isNaN := by
  rcases shape a with ⟨z, rfl⟩ | ⟨t, rfl⟩ | ⟨x, rfl⟩ | ⟨p, body, rfl⟩ | ⟨h, headed⟩
  · rw [m.num.mp related]
  · rw [m.bool.mp related]
  · obtain ⟨y, rfl, _⟩ := m.var related
    rfl
  · obtain ⟨q, body', rfl, undefined⟩ := m.lam related
    simp only [children, List.any_cons, undefined]
    rfl
  · exact any_isNaN m ((m.head headed).mp related).2

end Questions

end Matching
end ComputerAlgebra.Expr
