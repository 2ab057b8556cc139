import ComputerAlgebra.Proofs.Matching.Simplification
import ComputerAlgebra.Proofs.Nameless.Renaming
import ComputerAlgebra.Proofs.Scope.Substitution

/-!
Expressions that differ in the names of parameters alone, below parameters that go by different names too.
Below a list of parameters every free name has a label: a parameter in scope is called by the number of
those outside it, and any other name by itself. Expressions are alike in a scope when they have the same
nameless form by these labels. Opening a function takes its parameter into the scope, and beta reduction
substitutes for the label of the parameter, whatever its name is.
-/

namespace ComputerAlgebra

namespace Nameless

/-- The label of the parameter that has a number of others outside it. -/
def level (n : Nat) : String := s!"bound {n}"

/-- What a name is called below some parameters, the innermost first. -/
def label : List String → String → String
  | [], x => s!"free {x}"
  | p :: env, x => if x = p then level env.length else label env x

theorem label_cases (env : List String) (x : String) :
    (label env x = s!"free {x}" ∧ x ∉ env) ∨ ∃ k < env.length, label env x = level k ∧ x ∈ env := by
  induction env with
  | nil => exact .inl ⟨rfl, List.not_mem_nil⟩
  | cons p env ih =>
    by_cases same : x = p
    · exact .inr ⟨env.length, by simp, by simp [label, same], by simp [same]⟩
    · rw [label, if_neg same]
      rcases ih with ⟨called, outside⟩ | ⟨k, below, called, inside⟩
      · exact .inl ⟨called, by simp [same, outside]⟩
      · exact .inr ⟨k, by simp; omega, called, List.mem_cons_of_mem p inside⟩

theorem level_injective : Function.Injective level := by
  intro m n same
  have digits : Nat.repr m = Nat.repr n := by
    simpa [level, ToString.toString] using same
  exact Nat.repr_injective digits

theorem level_ne_free (n : Nat) (x : String) : level n ≠ s!"free {x}" := by
  intro same
  have first := congrArg (·.toList.head?) same
  simp [level, ToString.toString] at first

/-- No name in scope has the label of the next parameter. -/
theorem label_new (env : List String) (x : String) : label env x ≠ level env.length := by
  rcases label_cases env x with ⟨called, _⟩ | ⟨k, below, called, _⟩
  · rw [called]
    exact (level_ne_free _ _).symm
  · rw [called]
    intro same
    have := level_injective same
    omega

theorem label_cons (p : String) (env : List String) :
    label (p :: env) = Function.update (label env) p (level env.length) := by
  funext x
  simp [label, Function.update_apply]

theorem label_self (p : String) (env : List String) : label (p :: env) p = level env.length := by
  simp [label]

theorem label_other {p x : String} (env : List String) (other : x ≠ p) :
    label (p :: env) x = label env x := by
  simp [label, other]

theorem label_injective (env : List String) : Function.Injective (label env) := by
  induction env with
  | nil =>
    intro x y same
    simpa [label, ToString.toString] using same
  | cons p env ih =>
    intro x y same
    by_cases first : x = p <;> by_cases second : y = p
    · rw [first, second]
    · rw [first, label_self, label_other env second] at same
      exact absurd same.symm (label_new env y)
    · rw [second, label_self, label_other env first] at same
      exact absurd same (label_new env x)
    · rw [label_other env first, label_other env second] at same
      exact ih same

/-- Names with the same label are the same, or both in scope. -/
theorem label_meet {env env' : List String} {x y : String} (same : label env x = label env' y) :
    x = y ∨ x ∈ env ∧ y ∈ env' := by
  rcases label_cases env x with ⟨called, _⟩ | ⟨k, _, called, inside⟩ <;>
    rcases label_cases env' y with ⟨called', _⟩ | ⟨k', _, called', inside'⟩ <;>
    rw [called, called'] at same
  · left
    simpa [ToString.toString] using same
  · exact absurd same.symm (level_ne_free _ _)
  · exact absurd same (level_ne_free _ _)
  · exact .inr ⟨inside, inside'⟩

theorem subst_self {x : String} (t : Nameless) : subst x (.free x) t = t := by
  induction t using parts_induction with
  | num | bool | constant | bound => rfl
  | free y =>
    rw [subst]
    split
    · next same => rw [same]
    · rfl
  | lam body ih => rw [subst, ih]
  | node h parts ih =>
    rw [subst, substList_eq_map, List.map_congr_left ih, List.map_id']

end Nameless

namespace Expr
open Nameless (opened subst label level label_new label_cons label_self label_other)

/-- The nameless form by the labels of names below some parameters. -/
def form (env : List String) (e : Expr) : Nameless := (e.nameless []).renamed (label env)

section Form
variable {env : List String}

theorem form_var {x : String} (env : List String) : (Expr.var x).form env =
    if isConstantName x then .constant x else .free (label env x) := by
  unfold form nameless
  split <;> rfl

theorem form_head {e : Expr} {h : Head} (headed : e.head? = some h) (env : List String) :
    e.form env = .node h (e.children.map (form env)) := by
  rw [form, nameless_head headed, Nameless.renamed, Nameless.renamedList_eq_map, List.map_map]
  rfl

theorem form_lam (p : String) (body : Expr) (env : List String) :
    (Expr.lam p body).form env = .lam ((body.nameless [p]).renamed (label env)) := rfl

/-- The form of the body of a function below its parameter is its form in the function, opened. -/
theorem form_body (env : List String) {p : String} (plain : isConstantName p = false) (body : Expr) :
    body.form (p :: env)
      = opened (.free (level env.length)) 0 ((body.nameless [p]).renamed (label env)) := by
  have reopened : opened (.free p) 0 (body.nameless [p]) = body.nameless [] := by
    rw [← Nameless.subst_self (x := p) (body.nameless []), ← opened_nameless plain []]
    rfl
  have kept : (body.nameless [p]).renamed (label (p :: env))
      = (body.nameless [p]).renamed (label env) := by
    refine Nameless.renamed_congr fun y free => label_other env ?_
    simpa using (hasFree_nameless.mp free).2
  rw [form, ← reopened, Nameless.renamed_opened, kept, Nameless.renamed, label_self]

theorem body_new {p : String} {body : Expr} :
    ¬((body.nameless [p]).renamed (label env)).HasFree (level env.length) := by
  intro free
  obtain ⟨y, _, same⟩ := Nameless.hasFree_renamed.mp free
  exact label_new env y same.symm

theorem hasFree_form (env : List String) {p : String} {e : Expr} :
    (e.form (p :: env)).HasFree (level env.length) ↔ p ∈ e.freeVars := by
  unfold form
  rw [Nameless.hasFree_renamed]
  constructor
  · rintro ⟨y, free, same⟩
    rw [← label_self p env] at same
    rw [Nameless.label_injective _ same]
    exact (hasFree_nameless.mp free).1
  · intro free
    exact ⟨p, hasFree_nameless.mpr ⟨free, List.not_mem_nil⟩, (label_self p env).symm⟩

/-- Below a parameter that is not free nothing changes. -/
theorem form_absent {p : String} {e : Expr} (absent : p ∉ e.freeVars) :
    e.form (p :: env) = e.form env := by
  refine Nameless.renamed_congr fun y free => label_other env ?_
  rintro rfl
  exact absent (hasFree_nameless.mp free).1

theorem form_substitute (env : List String) {p : String} (plain : isConstantName p = false) (body a : Expr) :
    ∃ r, body.substitute (.var p) a = .ok r ∧
      r.form env = subst (level env.length) (a.form env) (body.form (p :: env)) := by
  obtain ⟨r, answer, same⟩ := substitute_answers plain body a
  refine ⟨r, answer, ?_⟩
  rw [form, same, Nameless.renamed_subst fun y _ _ => label_new env y, form, form, label_cons]

end Form

section Parameters

def parameters : Expr → List String :=
  fold fun e parts => match e with
    | .lam p _ => p :: parts.flatten
    | _ => parts.flatten

theorem mem_parameters_lam {p x : String} {body : Expr} :
    x ∈ (Expr.lam p body).parameters ↔ x = p ∨ x ∈ body.parameters := by
  rw [parameters, fold_eq]
  simp [children, fold]

theorem mem_parameters_head {e : Expr} {h : Head} (headed : e.head? = some h) {x : String} :
    x ∈ e.parameters ↔ ∃ part ∈ e.children, x ∈ part.parameters := by
  have parts : e.parameters = (e.children.map parameters).flatten := by
    rw [parameters, fold_eq]
    cases e <;> simp_all [head?]
  rw [parts]
  simp

/-- The parameters of functions have no meaning of their own. -/
def PlainParameters (e : Expr) : Prop := ∀ p ∈ e.parameters, Plain p

theorem plainParameters_lam {p : String} {body : Expr} :
    PlainParameters (.lam p body) ↔ Plain p ∧ PlainParameters body := by
  simp [PlainParameters, mem_parameters_lam]

theorem plainParameters_head {e : Expr} {h : Head} (headed : e.head? = some h) :
    PlainParameters e ↔ ∀ part ∈ e.children, PlainParameters part := by
  unfold PlainParameters
  simp only [mem_parameters_head headed]
  constructor
  · exact fun all part member p inside => all p ⟨part, member, inside⟩
  · rintro all p ⟨part, member, inside⟩
    exact all part member p inside

theorem plainParameters_leaf {e : Expr} (leaf : e.children = []) : PlainParameters e := by
  intro p member
  cases e with
  | num | var | bool => cases member
  | unary | binary | lam | app | provided | interval => cases leaf
  | piecewise cases =>
    rw [mem_parameters_head rfl, leaf] at member
    simp at member

theorem plainParameters_rename {p q : String} {e : Expr} (plain : PlainParameters e) :
    PlainParameters (rename p q e) := by
  induction e using children_induction with
  | node e ih =>
    rcases shape e with ⟨z, rfl⟩ | ⟨b, rfl⟩ | ⟨x, rfl⟩ | ⟨r, body, rfl⟩ | ⟨h, headed⟩
    · exact plain
    · exact plain
    · rw [rename_var]
      split
      · exact plainParameters_leaf rfl
      · exact plain
    · rw [rename_lam]
      split
      · exact plain
      · have parts := plainParameters_lam.mp plain
        exact plainParameters_lam.mpr ⟨parts.1, ih body (by simp [children]) parts.2⟩
    · have size : (e.children.map (rename p q)).length = e.children.length := by simp
      obtain ⟨still, same⟩ := withChildren_head headed size
      rw [rename_head headed, plainParameters_head still, same]
      intro part member
      obtain ⟨old, inside, rfl⟩ := List.mem_map.mp member
      exact ih old inside ((plainParameters_head headed).mp plain old inside)

/-- A new name has an underscore in it, and no name with a meaning has. -/
theorem freshName_plain (base : String) (taken : List String) : Plain (freshName base taken) := by
  refine ⟨freshName_variable base taken, fun arguments => ?_⟩
  have separator : '_' ∈ (freshName base taken).toList := by
    simp [freshName, ToString.toString]
  generalize freshName base taken = name at separator
  unfold builtin?
  split
  case h_21 => rfl
  all_goals exact absurd separator (by decide)

theorem plainParameters_substitute {x : String} {e v r : Expr} (plain : PlainParameters e)
    (value : PlainParameters v) (result : e.substitute (.var x) v = .ok r) : PlainParameters r := by
  have rules : SubstitutionRules x v fun e r => PlainParameters e → PlainParameters r :=
    { value := fun _ => value
      number := fun _ plain => plain
      truth := fun _ plain => plain
      other := fun _ plain => plain
      absent := fun _ plain => plain
      renamed := by
        rintro p q body r _ _ _ _ _ ⟨taken, rfl⟩ below plain
        have inner := (plainParameters_lam.mp plain).2
        exact plainParameters_lam.mpr ⟨freshName_plain p taken, below (plainParameters_rename inner)⟩
      under := by
        intro p body r _ _ below plain
        obtain ⟨parameter, inner⟩ := plainParameters_lam.mp plain
        exact plainParameters_lam.mpr ⟨parameter, below inner⟩
      headed := by
        intro e h parts headed related plain
        obtain ⟨still, same⟩ := withChildren_head headed related.length_eq.symm
        rw [plainParameters_head still, same]
        exact forall_related related fun part member _ kept =>
          kept ((plainParameters_head headed).mp plain part member) }
  exact rules.substitute result plain

end Parameters
end Expr
end ComputerAlgebra
