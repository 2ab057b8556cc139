import ComputerAlgebra.Proofs.Scope.Reduction
import ComputerAlgebra.Proofs.Scope.Substitution
import Mathlib.Data.Set.Insert

/-!
Evaluation and simplification have no free variables of their own. The scopes are the sets of variables
that may be free: a function takes its parameter into the set of its body, eta reduction drops a parameter
that does not occur, and beta reduction brings in the variables of the argument alone.
-/

namespace ComputerAlgebra.Expr

def FreeWithin (S : Set String) (e : Expr) : Prop := ∀ y ∈ e.freeVars, y ∈ S

theorem freeWithin_num (S : Set String) (z : Number) : FreeWithin S (.num z) :=
  fun y free => absurd (show y ∈ ([] : List String) from free) List.not_mem_nil

theorem freeWithin_head {S : Set String} {e : Expr} {h : Head} (headed : e.head? = some h)
    (all : ∀ part ∈ e.children, FreeWithin S part) : FreeWithin S e := by
  intro y free
  obtain ⟨part, member, inside⟩ := (mem_freeVars_head headed).mp free
  exact all part member y inside

theorem freeWithin_compositional (c : Config) (S : Set String) :
    Compositional .returns c (FreeWithin S) where
  numeric := .ofAll (freeWithin_num S)
  reading _ next := Returns.get next
  bool b := fun y free => absurd (show y ∈ ([] : List String) from free) List.not_mem_nil
  constant := by
    intro x constant y free
    obtain ⟨rfl, plain⟩ := mem_freeVars_var.mp free
    rw [constant] at plain
    cases plain
  parts headed all part member y free := all y ((mem_freeVars_head headed).mpr ⟨part, member, free⟩)
  operation headed _ all := freeWithin_head headed all
  rebuilt _ headed _ all := freeWithin_head headed all

theorem freeWithin_lam {S : Set String} {p : String} {body : Expr} :
    FreeWithin S (.lam p body) ↔ FreeWithin (insert p S) body := by
  constructor
  · intro all y free
    by_cases same : y = p
    · exact .inl same
    · exact .inr (all y (mem_freeVars_lam.mpr ⟨free, same⟩))
  · intro all y free
    obtain ⟨inside, other⟩ := mem_freeVars_lam.mp free
    exact (all y inside).resolve_left other

theorem freeWithin_scoping (c : Config) :
    Scoping .returns c FreeWithin (fun _ => True) insert where
  lenient := ⟨Returns.throw⟩
  compositional := freeWithin_compositional c
  parameter := fun y free => .inl (mem_freeVars_var.mp free).1
  lam := by
    intro S p body
    rw [freeWithin_lam, true_and]
  eta := by
    intro S p f all absent y free
    refine (all y free).resolve_left ?_
    rintro rfl
    exact absent free
  reduced _ _ := Judgment.Lenient.lift ⟨Returns.throw⟩ fun _ step => step
  beta := by
    intro S p body a r function argument reduced y free
    rcases mem_freeVars_substitute reduced free with ⟨inside, other⟩ | given
    · exact function y (mem_freeVars_lam.mpr ⟨inside, other⟩)
    · exact argument y given

/-- Whatever evaluation, one pass of simplification and simplification at any level return has no free
variable that the expression does not have: conditions are not moved out of functions, and neither eta nor
beta reduction takes a parameter out of its scope. -/
theorem freeVars_result {c : Config} {e r : Expr} {u w : FloatUnit}
    (returned : e.evaled c u = .ok r w ∨ e.innerSimplified c u = .ok r w ∨
      ∃ level, e.simplify c level u = .ok r w) : r.freeVars ⊆ e.freeVars := by
  have given : FreeWithin {y | y ∈ e.freeVars} e := fun y free => free
  rcases returned with evaluated | reduced | ⟨level, simplified⟩
  · exact (freeWithin_scoping c).evaled given u r w evaluated
  · exact (freeWithin_scoping c).innerSimplified given u r w reduced
  · exact (freeWithin_scoping c).simplify level given u r w simplified

/-- A parameter is renamed out of the way of the argument, and the condition stays with it. -/
theorem freeVars_result_condition :
    ∃ e r : Expr, e = .app (.lam "x" (.lam "y" (.provided (.binary .sum (.var "x") (.var "y"))
        (.binary (.order .less) (.var "x") (.var "y"))))) [.var "y"] ∧
      r = .lam "y_1" (.provided (.binary .sum (.var "y") (.var "y_1"))
        (.binary (.order .less) (.var "y") (.var "y_1"))) ∧
      e.evaled .default ⟨50⟩ = .ok r ⟨50⟩ ∧ e.innerSimplified .default ⟨50⟩ = .ok r ⟨50⟩ ∧
      e.simplify .default 0 ⟨50⟩ = .ok r ⟨50⟩ ∧ r.freeVars ⊆ e.freeVars ∧ e.freeVars = ["y"] := by
  let e : Expr := .app (.lam "x" (.lam "y" (.provided (.binary .sum (.var "x") (.var "y"))
    (.binary (.order .less) (.var "x") (.var "y"))))) [.var "y"]
  let r : Expr := .lam "y_1" (.provided (.binary .sum (.var "y") (.var "y_1"))
    (.binary (.order .less) (.var "y") (.var "y_1")))
  have evaluated : e.evaled .default ⟨50⟩ = .ok r ⟨50⟩ := by decide +kernel
  have reduced : e.innerSimplified .default ⟨50⟩ = .ok r ⟨50⟩ := by decide +kernel
  have simplified : e.simplify .default 0 ⟨50⟩ = .ok r ⟨50⟩ := by decide +kernel
  refine ⟨e, r, rfl, rfl, evaluated, reduced, simplified, ?_, by decide +kernel⟩
  exact freeVars_result (.inr (.inr ⟨0, simplified⟩))

end ComputerAlgebra.Expr
