import ComputerAlgebra.Proofs.Expr.Children

/-!
Nameless terms. A bound variable is the number of functions between it and its own one, and a free
variable keeps its name. Since a value put for a free variable has no number that points out of it,
substitution passes under functions unchanged and nothing can be captured. `Expr.nameless` reads an
expression below a list of parameters, the innermost first; expressions that differ in the names of
parameters alone have the same nameless form.
-/

namespace ComputerAlgebra

inductive Nameless where
  | num (z : Number)
  | bool (b : Bool)
  /-- One of the names that stand for constants; no function can bind it. -/
  | constant (name : String)
  | free (name : String)
  | bound (index : Nat)
  | lam (body : Nameless)
  | node (head : Head) (parts : List Nameless)

namespace Nameless

section Replacement
variable (x : String) (value : Nameless)

mutual
def subst : Nameless → Nameless
  | .free y => if y = x then value else .free y
  | .lam body => .lam (subst body)
  | .node h parts => .node h (substList parts)
  | t => t
def substList : List Nameless → List Nameless
  | [] => []
  | t :: rest => subst t :: substList rest
end

mutual
/-- Puts a value for the variable that is bound `k` functions further out. -/
def opened (k : Nat) : Nameless → Nameless
  | .bound i => if i = k then value else .bound i
  | .lam body => .lam (opened (k + 1) body)
  | .node h parts => .node h (openedList k parts)
  | t => t
def openedList (k : Nat) : List Nameless → List Nameless
  | [] => []
  | t :: rest => opened k t :: openedList k rest
end

end Replacement

/-- Beta reduction: the body of a function with its own variable replaced. -/
def beta? : Nameless → Nameless → Option Nameless
  | .lam body, argument => some (opened argument 0 body)
  | _, _ => none

mutual
def HasFree (y : String) : Nameless → Prop
  | .free x => y = x
  | .lam body => HasFree y body
  | .node _ parts => AnyFree y parts
  | _ => False
def AnyFree (y : String) : List Nameless → Prop
  | [] => False
  | t :: rest => HasFree y t ∨ AnyFree y rest
end

theorem substList_eq_map (x : String) (value : Nameless) (parts : List Nameless) :
    substList x value parts = parts.map (subst x value) := by
  induction parts with
  | nil => rfl
  | cons t rest ih => rw [substList, ih, List.map_cons]

theorem openedList_eq_map (value : Nameless) (k : Nat) (parts : List Nameless) :
    openedList value k parts = parts.map (opened value k) := by
  induction parts with
  | nil => rfl
  | cons t rest ih => rw [openedList, ih, List.map_cons]

theorem anyFree_iff {y : String} {parts : List Nameless} :
    AnyFree y parts ↔ ∃ part ∈ parts, HasFree y part := by
  induction parts with
  | nil => simp [AnyFree]
  | cons t rest ih => simp [AnyFree, ih]

mutual
/-- Putting a value for a name keeps the other free names, and adds those of the value exactly when
the name was there to be replaced. -/
theorem hasFree_subst {x y : String} {value : Nameless} : ∀ t : Nameless,
    HasFree y (subst x value t) ↔ HasFree y t ∧ y ≠ x ∨ HasFree x t ∧ HasFree y value
  | .num _ | .bool _ | .constant _ | .bound _ => by simp [subst, HasFree]
  | .free z => by
    by_cases same : z = x
    · subst same
      simp only [subst, if_true, HasFree, true_and]
      tauto
    · simp only [subst, same, if_false, HasFree, Ne.symm same, false_and, or_false]
      constructor
      · rintro rfl
        exact ⟨rfl, same⟩
      · exact And.left
  | .lam body => by
    rw [subst, HasFree, HasFree, HasFree, hasFree_subst body]
  | .node _ parts => by
    rw [subst, HasFree, HasFree, HasFree, anyFree_subst parts]
theorem anyFree_subst {x y : String} {value : Nameless} : ∀ parts : List Nameless,
    AnyFree y (substList x value parts) ↔
      AnyFree y parts ∧ y ≠ x ∨ AnyFree x parts ∧ HasFree y value
  | [] => by simp [substList, AnyFree]
  | t :: rest => by
    rw [substList, AnyFree, AnyFree, AnyFree, hasFree_subst t, anyFree_subst rest]
    tauto
end

/-- One more parameter shifts the numbers of the variables bound outside it. -/
def lifted : Nameless → Nameless
  | .bound i => .bound (i + 1)
  | t => t

/-- What a name stands for below some parameters. -/
def resolve : List String → String → Nameless
  | [], x => .free x
  | p :: env, x => if x = p then .bound 0 else (resolve env x).lifted

theorem resolve_self (env : List String) (x : String) : resolve (x :: env) x = .bound 0 := by
  simp [resolve]

theorem resolve_cons {p x : String} (env : List String) (other : x ≠ p) :
    resolve (p :: env) x = (resolve env x).lifted := by
  simp [resolve, other]

theorem resolve_free {env : List String} {x : String} (outside : x ∉ env) :
    resolve env x = .free x := by
  induction env with
  | nil => rfl
  | cons p env ih =>
    rw [List.mem_cons, not_or] at outside
    rw [resolve_cons env outside.1, ih outside.2]
    rfl

theorem resolve_bound {env : List String} {x : String} (inside : x ∈ env) (outer : List String) :
    ∃ i < env.length, resolve (env ++ outer) x = .bound i ∧ resolve env x = .bound i := by
  induction env with
  | nil => simp at inside
  | cons p env ih =>
    by_cases same : x = p
    · exact ⟨0, by simp, by simp [resolve, same], by simp [resolve, same]⟩
    · obtain ⟨i, below, long, short⟩ := ih ((List.mem_cons.mp inside).resolve_left same)
      refine ⟨i + 1, by simpa using below, ?_, ?_⟩
      · rw [List.cons_append, resolve_cons _ same, long]
        rfl
      · rw [resolve_cons _ same, short]
        rfl

theorem resolve_outermost {env : List String} {x : String} (outside : x ∉ env) :
    resolve (env ++ [x]) x = .bound env.length := by
  induction env with
  | nil => simp [resolve]
  | cons p env ih =>
    rw [List.mem_cons, not_or] at outside
    rw [List.cons_append, resolve_cons _ outside.1, ih outside.2]
    rfl

theorem resolve_hasFree {env : List String} {x y : String} :
    HasFree y (resolve env x) ↔ y = x ∧ x ∉ env := by
  by_cases inside : x ∈ env
  · obtain ⟨i, _, _, bound⟩ := resolve_bound inside []
    simp [bound, HasFree, inside]
  · simp [resolve_free inside, HasFree, inside]

end Nameless

namespace Expr
open Nameless (resolve resolve_cons resolve_self resolve_free)

mutual
/-- The nameless form below the given parameters. -/
def nameless (env : List String) : Expr → Nameless
  | .num z => .num z
  | .bool b => .bool b
  | .var x => if isConstantName x then .constant x else resolve env x
  | .lam p body => .lam (nameless (p :: env) body)
  | .unary op a => .node (.unary op) [nameless env a]
  | .binary op a b => .node (.binary op) [nameless env a, nameless env b]
  | .app f args => .node .app (nameless env f :: namelessList env args)
  | .provided e p => .node .provided [nameless env e, nameless env p]
  | .piecewise cases => .node .piecewise (namelessCases env cases)
  | .interval low high => .node .interval [nameless env low, nameless env high]
def namelessList (env : List String) : List Expr → List Nameless
  | [] => []
  | e :: rest => nameless env e :: namelessList env rest
def namelessCases (env : List String) : List (Expr × Expr) → List Nameless
  | [] => []
  | (e, p) :: rest => nameless env e :: nameless env p :: namelessCases env rest
end

private theorem namelessList_eq_map (env : List String) (es : List Expr) :
    namelessList env es = es.map (nameless env) := by
  induction es with
  | nil => rfl
  | cons e rest ih => rw [namelessList, ih, List.map_cons]

private theorem namelessCases_eq_map (env : List String) (cases : List (Expr × Expr)) :
    namelessCases env cases = (cases.flatMap fun (e, p) => [e, p]).map (nameless env) := by
  induction cases with
  | nil => rfl
  | cons c rest ih =>
    obtain ⟨e, p⟩ := c
    rw [namelessCases, ih]
    rfl

theorem nameless_head {e : Expr} {h : Head} (headed : e.head? = some h) (env : List String) :
    e.nameless env = .node h (e.children.map (nameless env)) := by
  cases e <;> simp only [head?, Option.some.injEq, reduceCtorEq] at headed <;> subst headed <;>
    simp [nameless, children, namelessList_eq_map, namelessCases_eq_map]

theorem nameless_var {x : String} (plain : isConstantName x = false) (env : List String) :
    (Expr.var x).nameless env = resolve env x := by
  simp [nameless, plain]

/-- The free names of the nameless form are the free variables that no parameter above binds. -/
theorem hasFree_nameless {y : String} {e : Expr} : ∀ {env : List String},
    (e.nameless env).HasFree y ↔ y ∈ e.freeVars ∧ y ∉ env := by
  induction e using children_induction with
  | node e ih =>
    intro env
    rcases shape e with ⟨z, rfl⟩ | ⟨b, rfl⟩ | ⟨x, rfl⟩ | ⟨p, body, rfl⟩ | ⟨h, headed⟩
    · simp [nameless, Nameless.HasFree, freeVars, fold]
    · simp [nameless, Nameless.HasFree, freeVars, fold]
    · cases constant : isConstantName x with
      | true => simp [nameless, constant, Nameless.HasFree]
      | false =>
        rw [nameless_var constant, Nameless.resolve_hasFree, mem_freeVars_var]
        constructor
        · rintro ⟨rfl, outside⟩
          exact ⟨⟨rfl, constant⟩, outside⟩
        · rintro ⟨⟨rfl, _⟩, outside⟩
          exact ⟨rfl, outside⟩
    · rw [nameless, Nameless.HasFree, ih body (by simp [children]), mem_freeVars_lam,
        List.mem_cons, not_or]
      tauto
    · rw [nameless_head headed, Nameless.HasFree, Nameless.anyFree_iff, mem_freeVars_head headed]
      constructor
      · rintro ⟨_, member, inside⟩
        obtain ⟨part, old, rfl⟩ := List.mem_map.mp member
        have both := (ih part old).mp inside
        exact ⟨⟨part, old, both.1⟩, both.2⟩
      · rintro ⟨⟨part, member, free⟩, outside⟩
        exact ⟨_, List.mem_map_of_mem member, (ih part member).mpr ⟨free, outside⟩⟩

/-- The nameless form depends on the parameters only through what the free variables stand for. -/
theorem nameless_congr {e : Expr} : ∀ {env env' : List String},
    (∀ y ∈ e.freeVars, resolve env y = resolve env' y) → e.nameless env = e.nameless env' := by
  induction e using children_induction with
  | node e ih =>
    intro env env' agree
    rcases shape e with ⟨z, rfl⟩ | ⟨b, rfl⟩ | ⟨x, rfl⟩ | ⟨p, body, rfl⟩ | ⟨h, headed⟩
    · rfl
    · rfl
    · cases constant : isConstantName x with
      | true => simp [nameless, constant]
      | false =>
        rw [nameless_var constant, nameless_var constant]
        exact agree x (mem_freeVars_var.mpr ⟨rfl, constant⟩)
    · rw [nameless, nameless]
      congr 1
      apply ih body (by simp [children])
      intro y inside
      by_cases same : y = p
      · rw [same, resolve_self, resolve_self]
      · rw [resolve_cons env same, resolve_cons env' same,
          agree y (mem_freeVars_lam.mpr ⟨inside, same⟩)]
    · rw [nameless_head headed, nameless_head headed]
      congr 1
      apply List.map_congr_left
      intro part member
      apply ih part member
      intro y inside
      exact agree y ((mem_freeVars_head headed).mpr ⟨part, member, inside⟩)

end Expr
end ComputerAlgebra
