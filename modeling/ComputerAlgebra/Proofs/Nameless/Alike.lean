import ComputerAlgebra.Proofs.Nameless.Scope

/-!
Expressions that are alike in a scope of parameters with two names each. They match wherever no parameter is
bound, a function is alike when its body is in the scope with its parameter, and eta and beta reduction make
alike expressions of alike ones.
-/

namespace ComputerAlgebra.Expr
open Nameless (level label)

abbrev Parameter := {p : String // Plain p}

/-- The parameters in scope, the innermost first, each by its names in the two expressions. -/
abbrev Scope := List (Parameter × Parameter)

namespace Scope

def left (σ : Scope) : List String := σ.map fun s => s.1.1

def right (σ : Scope) : List String := σ.map fun s => s.2.1

theorem lengths (σ : Scope) : σ.left.length = σ.right.length := by simp [left, right]

theorem plain_left {σ : Scope} {x : String} (inside : x ∈ σ.left) : Plain x := by
  obtain ⟨s, _, rfl⟩ := List.mem_map.mp inside
  exact s.1.2

theorem plain_right {σ : Scope} {x : String} (inside : x ∈ σ.right) : Plain x := by
  obtain ⟨s, _, rfl⟩ := List.mem_map.mp inside
  exact s.2.2

end Scope

/-- Expressions that differ in the names of parameters alone, all of them plain. -/
structure Alike (σ : Scope) (e e' : Expr) : Prop where
  form : e.form σ.left = e'.form σ.right
  plain : PlainParameters e
  plain' : PlainParameters e'

section Shapes
variable {e : Expr} {env : List String}

theorem form_eq_num {z : Number} (same : e.form env = .num z) : e = .num z := by
  rcases shape e with ⟨z', rfl⟩ | ⟨b, rfl⟩ | ⟨x, rfl⟩ | ⟨p, body, rfl⟩ | ⟨h, headed⟩
  · cases same
    rfl
  · cases same
  · rw [form_var] at same
    split at same <;> cases same
  · cases same
  · rw [form_head headed] at same
    cases same

theorem form_eq_bool {b : Bool} (same : e.form env = .bool b) : e = .bool b := by
  rcases shape e with ⟨z, rfl⟩ | ⟨b', rfl⟩ | ⟨x, rfl⟩ | ⟨p, body, rfl⟩ | ⟨h, headed⟩
  · cases same
  · cases same
    rfl
  · rw [form_var] at same
    split at same <;> cases same
  · cases same
  · rw [form_head headed] at same
    cases same

theorem form_eq_constant {x : String} (same : e.form env = .constant x) : e = .var x := by
  rcases shape e with ⟨z, rfl⟩ | ⟨b, rfl⟩ | ⟨y, rfl⟩ | ⟨p, body, rfl⟩ | ⟨h, headed⟩
  · cases same
  · cases same
  · rw [form_var] at same
    split at same <;> cases same
    rfl
  · cases same
  · rw [form_head headed] at same
    cases same

theorem form_eq_free {x : String} (same : e.form env = .free x) :
    ∃ y, e = .var y ∧ isConstantName y = false ∧ label env y = x := by
  rcases shape e with ⟨z, rfl⟩ | ⟨b, rfl⟩ | ⟨y, rfl⟩ | ⟨p, body, rfl⟩ | ⟨h, headed⟩
  · cases same
  · cases same
  · rw [form_var] at same
    split at same <;> cases same
    next plain => exact ⟨y, rfl, by simpa using plain, rfl⟩
  · cases same
  · rw [form_head headed] at same
    cases same

theorem form_eq_lam {t : Nameless} (same : e.form env = .lam t) : ∃ p body, e = .lam p body := by
  rcases shape e with ⟨z, rfl⟩ | ⟨b, rfl⟩ | ⟨y, rfl⟩ | ⟨p, body, rfl⟩ | ⟨h, headed⟩
  · cases same
  · cases same
  · rw [form_var] at same
    split at same <;> cases same
  · exact ⟨p, body, rfl⟩
  · rw [form_head headed] at same
    cases same

theorem form_eq_node {h : Head} {parts : List Nameless} (same : e.form env = .node h parts) :
    e.head? = some h ∧ e.children.map (form env) = parts := by
  rcases shape e with ⟨z, rfl⟩ | ⟨b, rfl⟩ | ⟨y, rfl⟩ | ⟨p, body, rfl⟩ | ⟨h', headed⟩
  · cases same
  · cases same
  · rw [form_var] at same
    split at same <;> cases same
  · cases same
  · rw [form_head headed] at same
    cases same
    exact ⟨headed, rfl⟩

end Shapes

variable {σ : Scope} {e e' : Expr}

theorem alike_num {z : Number} : Alike σ (.num z) e ↔ e = .num z := by
  constructor
  · exact fun alike => form_eq_num alike.form.symm
  · rintro rfl
    exact ⟨rfl, plainParameters_leaf rfl, plainParameters_leaf rfl⟩

theorem alike_bool {b : Bool} : Alike σ (.bool b) e ↔ e = .bool b := by
  constructor
  · exact fun alike => form_eq_bool alike.form.symm
  · rintro rfl
    exact ⟨rfl, plainParameters_leaf rfl, plainParameters_leaf rfl⟩

/-- A name is alike to itself, where it is not the name of a parameter, and to the other name of the same
parameter. -/
theorem alike_var {x : String} (alike : Alike σ (.var x) e) :
    ∃ y, e = .var y ∧ isConstantName x = isConstantName y ∧
      (x = y ∨ Plain x ∧ Plain y) ∧ (isConstantName x = false → label σ.left x = label σ.right y) := by
  have same := alike.form
  rw [form_var] at same
  split at same
  · next constant =>
    exact ⟨x, form_eq_constant same.symm, rfl, .inl rfl, by simp [constant]⟩
  · next plain =>
    obtain ⟨y, rfl, plain', called⟩ := form_eq_free same.symm
    refine ⟨y, rfl, by simp [plain, plain'], ?_, fun _ => called.symm⟩
    exact (Nameless.label_meet called.symm).imp id fun both =>
      ⟨Scope.plain_left both.1, Scope.plain_right both.2⟩

private theorem alike_parts {es : List Expr} : ∀ {es' : List Expr}, List.Forall₂ (Alike σ) es es' ↔
    es.map (form σ.left) = es'.map (form σ.right) ∧ (∀ e ∈ es, PlainParameters e) ∧
      ∀ e ∈ es', PlainParameters e := by
  induction es with
  | nil =>
    intro es'
    cases es' <;> simp
  | cons e es ih =>
    intro es'
    cases es' with
    | nil => simp
    | cons e' es' =>
      rw [List.forall₂_cons, ih, List.map_cons, List.map_cons, List.cons.injEq, List.forall_mem_cons,
        List.forall_mem_cons]
      constructor
      · rintro ⟨⟨first, plain, plain'⟩, rest, others, others'⟩
        exact ⟨⟨first, rest⟩, ⟨plain, others⟩, plain', others'⟩
      · rintro ⟨⟨first, rest⟩, ⟨plain, others⟩, plain', others'⟩
        exact ⟨⟨first, plain, plain'⟩, rest, others, others'⟩

theorem alike_head {h : Head} (headed : e.head? = some h) :
    Alike σ e e' ↔ e'.head? = some h ∧ List.Forall₂ (Alike σ) e.children e'.children := by
  rw [alike_parts]
  constructor
  · intro alike
    have same := alike.form
    rw [form_head headed] at same
    obtain ⟨headed', parts⟩ := form_eq_node same.symm
    exact ⟨headed', parts.symm, (plainParameters_head headed).mp alike.plain,
      (plainParameters_head headed').mp alike.plain'⟩
  · rintro ⟨headed', parts, plain, plain'⟩
    refine ⟨?_, (plainParameters_head headed).mpr plain, (plainParameters_head headed').mpr plain'⟩
    rw [form_head headed, form_head headed', parts]

/-- Functions are alike when their bodies are, each with its own parameter in scope. -/
theorem alike_lam {p q : String} {body body' : Expr} :
    Alike σ (.lam p body) (.lam q body') ↔
      ∃ (plain : Plain p) (plain' : Plain q), Alike ((⟨p, plain⟩, ⟨q, plain'⟩) :: σ) body body' := by
  have opened {p : String} (plain : Plain p) (body : Expr) (env : List String) :=
    form_body env plain.1 body
  constructor
  · intro alike
    obtain ⟨plain, inner⟩ := plainParameters_lam.mp alike.plain
    obtain ⟨plain', inner'⟩ := plainParameters_lam.mp alike.plain'
    have same := Nameless.lam.inj alike.form
    refine ⟨plain, plain', ?_, inner, inner'⟩
    change body.form (p :: σ.left) = body'.form (q :: σ.right)
    rw [opened plain, opened plain', same, σ.lengths]
  · rintro ⟨plain, plain', alike⟩
    refine ⟨?_, plainParameters_lam.mpr ⟨plain, alike.plain⟩, plainParameters_lam.mpr ⟨plain', alike.plain'⟩⟩
    have same : body.form (p :: σ.left) = body'.form (q :: σ.right) := alike.form
    rw [opened plain, opened plain', ← σ.lengths] at same
    have closed := congrArg (Nameless.closed (level σ.left.length) 0) same
    have new' : ¬((body'.nameless [q]).renamed (label σ.right)).HasFree (level σ.left.length) := by
      rw [σ.lengths]
      exact body_new
    rw [Nameless.closed_opened 0 body_new, Nameless.closed_opened 0 new'] at closed
    rw [form_lam, form_lam, closed]

private theorem isNaN_congr {a b : Expr} (same : ∀ z, a = .num z ↔ b = .num z) : a.isNaN = b.isNaN := by
  cases a with
  | num z => rw [(same z).mp rfl]
  | _ =>
    cases b with
    | num z => cases (same z).mpr rfl
    | _ => rfl

theorem alike_depth {e : Expr} : ∀ {σ e'}, Alike σ e e' → e.depth = e'.depth := by
  induction e using children_induction with
  | node e ih =>
    intro σ e' alike
    rcases shape e with ⟨z, rfl⟩ | ⟨b, rfl⟩ | ⟨x, rfl⟩ | ⟨p, body, rfl⟩ | ⟨h, headed⟩
    · rw [alike_num.mp alike]
    · rw [alike_bool.mp alike]
    · obtain ⟨y, rfl, _⟩ := alike_var alike
      rfl
    · obtain ⟨q, body', rfl⟩ := form_eq_lam alike.form.symm
      obtain ⟨_, _, inner⟩ := alike_lam.mp alike
      have same := ih body (by simp [children]) inner
      rw [depth_eq, depth_eq (.lam q body')]
      simp only [children, List.map_cons, List.map_nil, same]
      rfl
    · obtain ⟨headed', parts⟩ := (alike_head headed).mp alike
      have depths : e.children.map depth = e'.children.map depth := by
        rw [← List.forall₂_eq_eq_eq, List.forall₂_map_left_iff, List.forall₂_map_right_iff]
        exact ((List.forall₂_and_left _ _).mpr ⟨ih, parts⟩).imp fun _ _ both => both.1 both.2
      rw [depth_eq, depth_eq e', depths]

theorem alike_matching (σ : Scope) : Matching (Alike σ) where
  num := alike_num
  bool := alike_bool
  constant constant := ⟨by simp [form_var, constant], plainParameters_leaf rfl, plainParameters_leaf rfl⟩
  var alike := by
    obtain ⟨y, same, _, names, _⟩ := alike_var alike
    exact ⟨y, same, names⟩
  lam alike := by
    obtain ⟨q, body', rfl⟩ := form_eq_lam alike.form.symm
    obtain ⟨_, _, inner⟩ := alike_lam.mp alike
    refine ⟨q, body', rfl, isNaN_congr fun z => ⟨?_, ?_⟩⟩
    · rintro rfl
      exact alike_num.mp inner
    · rintro rfl
      exact form_eq_num inner.form
  head := alike_head
  depth := alike_depth

section Reduction
variable {p q : String} {plain : Plain p} {plain' : Plain q} {body body' a a' : Expr}

private theorem label_eq_level {x : String} {env : List String} :
    label (p :: env) x = level env.length ↔ x = p := by
  constructor
  · intro called
    by_contra other
    rw [Nameless.label_other env other] at called
    exact Nameless.label_new env x called
  · rintro rfl
    exact Nameless.label_self x env

/-- A name is that of the innermost parameter on both sides or on neither. -/
private theorem alike_parameter {x y : String}
    (alike : Alike ((⟨p, plain⟩, ⟨q, plain'⟩) :: σ) (.var x) (.var y)) : x = p ↔ y = q := by
  obtain ⟨_, ⟨rfl⟩, constants, _, called⟩ := alike_var alike
  cases constant : isConstantName x with
  | true =>
    constructor
    · rintro rfl
      rw [plain.1] at constant
      cases constant
    · rintro rfl
      rw [constants, plain'.1] at constant
      cases constant
  | false =>
    have both : label (p :: σ.left) x = label (q :: σ.right) y := called constant
    rw [← label_eq_level, both, σ.lengths, label_eq_level]

/-- Eta reduction of a function and of an alike one. -/
theorem alike_eta (alike : Alike ((⟨p, plain⟩, ⟨q, plain'⟩) :: σ) body body') :
    Option.Rel (Alike σ) (etaRule? p body) (etaRule? q body') := by
  have m := alike_matching ((⟨p, plain⟩, ⟨q, plain'⟩) :: σ)
  cases m.view alike with
  | @app f f' _ _ function all =>
    cases all with
    | nil => exact .none
    | cons first rest =>
      cases rest with
      | cons => cases m.view first <;> exact .none
      | nil =>
        cases m.view first with
        | @var x y _ =>
          have forms : f.form (p :: σ.left) = f'.form (q :: σ.right) := function.form
          have free : p ∈ f.freeVars ↔ q ∈ f'.freeVars := by
            rw [← hasFree_form σ.left, ← hasFree_form σ.right, forms, σ.lengths]
          have taken : x = p ∧ p ∉ f.freeVars ↔ y = q ∧ q ∉ f'.freeVars :=
            and_congr (alike_parameter first) (not_congr free)
          simp only [etaRule?]
          by_cases absent : x = p ∧ p ∉ f.freeVars
          · rw [if_pos absent, if_pos (taken.mp absent)]
            refine .some ⟨?_, function.plain, function.plain'⟩
            rw [← form_absent absent.2, forms, form_absent (taken.mp absent).2]
          · rw [if_neg absent, if_neg (mt taken.mpr absent)]
            exact .none
        | _ => exact .none
  | _ => exact .none

/-- Beta reduction of a function and of an alike one. -/
theorem alike_beta (function : Alike σ (.lam p body) (.lam q body')) (argument : Alike σ a a') :
    ∃ r r', body.substitute (.var p) a = .ok r ∧ body'.substitute (.var q) a' = .ok r' ∧
      Alike σ r r' := by
  obtain ⟨plain, plain', inner⟩ := alike_lam.mp function
  have forms : body.form (p :: σ.left) = body'.form (q :: σ.right) := inner.form
  obtain ⟨r, answer, form⟩ := form_substitute σ.left plain.1 body a
  obtain ⟨r', answer', form'⟩ := form_substitute σ.right plain'.1 body' a'
  refine ⟨r, r', answer, answer', ?_, plainParameters_substitute inner.plain argument.plain answer,
    plainParameters_substitute inner.plain' argument.plain' answer'⟩
  rw [form, form', forms, argument.form, σ.lengths]

end Reduction

/-- Expressions that differ in the names of parameters alone. -/
def SameForm (a b : Expr) : Prop := a.nameless [] = b.nameless []

instance : DecidableRel SameForm := fun a b => inferInstanceAs (Decidable (a.nameless [] = b.nameless []))

/-- Whether expressions have the same form is the same for alike ones. -/
theorem sameForm_fair (σ : Scope) : Fair SameForm (Alike σ) where
  refl _ := rfl
  alike := by
    intro a a' b b' first second
    have renamed := Nameless.renamed_injective (Nameless.label_injective σ.left)
    have renamed' := Nameless.renamed_injective (Nameless.label_injective σ.right)
    constructor
    · intro same
      apply renamed'
      have forms := first.form
      rw [form, same] at forms
      exact forms.symm.trans second.form
    · intro same
      apply renamed
      have forms := first.form.symm
      rw [form, same] at forms
      exact (second.form.trans forms).symm

/-- Outside all functions, expressions with plain parameters are alike when they have the same form. -/
theorem alike_of_sameForm {a b : Expr} (same : SameForm a b) (plain : PlainParameters a)
    (plain' : PlainParameters b) : Alike [] a b :=
  ⟨congrArg (Nameless.renamed (label [])) same, plain, plain'⟩

theorem sameForm_of_alike {a b : Expr} (alike : Alike [] a b) : SameForm a b :=
  Nameless.renamed_injective (Nameless.label_injective []) alike.form

end ComputerAlgebra.Expr
