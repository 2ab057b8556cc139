import ComputerAlgebra.Proofs.Expr.Measure
import ComputerAlgebra.Proofs.Nameless.Alike

/-!
Substitution for a pattern that is no variable. On nameless forms it puts the value for every subterm
that is the form of the pattern; such a subterm has no variable that is bound around it. The walk through
an expression compares with the pattern as it stands and renames no parameter, so it does the same exactly
as long as the parameters around its occurrences have other names than the free variables of the pattern,
and the other parameters other names than those of the value.
-/

namespace ComputerAlgebra

namespace Nameless

mutual
def replaced (pattern value t : Nameless) : Nameless :=
  if t = pattern then value else
    match t with
    | .lam body => .lam (replaced pattern value body)
    | .node h parts => .node h (replacedList pattern value parts)
    | t => t
def replacedList (pattern value : Nameless) : List Nameless → List Nameless
  | [] => []
  | t :: rest => replaced pattern value t :: replacedList pattern value rest
end

theorem replacedList_eq_map (pattern value : Nameless) (parts : List Nameless) :
    replacedList pattern value parts = parts.map (replaced pattern value) := by
  induction parts with
  | nil => rfl
  | cons t rest ih => rw [replacedList, ih, List.map_cons]

section
variable {pattern value : Nameless}

theorem replaced_self : replaced pattern value pattern = value := by
  cases pattern <;> simp [replaced]

theorem replaced_leaf {t : Nameless} (other : t ≠ pattern) (leaf : ∀ body, t ≠ .lam body)
    (simple : ∀ h parts, t ≠ .node h parts) : replaced pattern value t = t := by
  cases t with
  | lam body => exact absurd rfl (leaf body)
  | node h parts => exact absurd rfl (simple h parts)
  | _ => rw [replaced, if_neg other] <;> simp

theorem replaced_lam {body : Nameless} (other : lam body ≠ pattern) :
    replaced pattern value (.lam body) = .lam (replaced pattern value body) := by
  rw [replaced, if_neg other]

theorem replaced_node {h : Head} {parts : List Nameless} (other : node h parts ≠ pattern) :
    replaced pattern value (.node h parts) = .node h (parts.map (replaced pattern value)) := by
  rw [replaced, if_neg other, replacedList_eq_map]

end

mutual
/-- Whether a variable occurs that is bound `k` functions further out. -/
def HasBound (k : Nat) : Nameless → Prop
  | .bound i => i = k
  | .lam body => HasBound (k + 1) body
  | .node _ parts => AnyBound k parts
  | _ => False
def AnyBound (k : Nat) : List Nameless → Prop
  | [] => False
  | t :: rest => HasBound k t ∨ AnyBound k rest
end

theorem anyBound_iff {k : Nat} {parts : List Nameless} :
    AnyBound k parts ↔ ∃ part ∈ parts, HasBound k part := by
  induction parts with
  | nil => simp [AnyBound]
  | cons t rest ih => simp [AnyBound, ih]

end Nameless

namespace Expr
open Nameless (resolve resolve_cons resolve_self resolve_free replaced HasBound)

/-- The variables of a nameless form that are bound further out are the free variables that the
parameters above bind. -/
theorem hasBound_nameless {e : Expr} : ∀ {k : Nat} {env : List String},
    (e.nameless env).HasBound k ↔ ∃ y ∈ e.freeVars, resolve env y = .bound k := by
  induction e using children_induction with
  | node e ih =>
    intro k env
    rcases shape e with ⟨z, rfl⟩ | ⟨b, rfl⟩ | ⟨x, rfl⟩ | ⟨p, body, rfl⟩ | ⟨h, headed⟩
    · simp [nameless, HasBound, freeVars, fold]
    · simp [nameless, HasBound, freeVars, fold]
    · cases constant : isConstantName x with
      | true => simp [nameless, constant, HasBound]
      | false =>
        have own : ((Expr.var x).nameless env).HasBound k ↔ resolve env x = .bound k := by
          rw [nameless_var constant]
          by_cases inside : x ∈ env
          · obtain ⟨i, _, _, found⟩ := Nameless.resolve_bound inside []
            simp [found, HasBound]
          · simp [resolve_free inside, HasBound]
        rw [own]
        constructor
        · exact fun found => ⟨x, mem_freeVars_var.mpr ⟨rfl, constant⟩, found⟩
        · rintro ⟨y, free, found⟩
          exact (mem_freeVars_var.mp free).1 ▸ found
    · have outer (y : String) : resolve (p :: env) y = .bound (k + 1) ↔ y ≠ p ∧ resolve env y = .bound k := by
        by_cases same : y = p
        · simp [same, resolve_self]
        · rw [resolve_cons env same]
          cases resolve env y <;> simp [Nameless.lifted, same]
      rw [nameless, HasBound, ih body (by simp [children])]
      simp only [outer, mem_freeVars_lam, and_assoc]
    · rw [nameless_head headed, HasBound, Nameless.anyBound_iff]
      constructor
      · rintro ⟨_, member, bound⟩
        obtain ⟨part, old, rfl⟩ := List.mem_map.mp member
        obtain ⟨y, free, found⟩ := (ih part old).mp bound
        exact ⟨y, (mem_freeVars_head headed).mpr ⟨part, old, free⟩, found⟩
      · rintro ⟨y, free, found⟩
        obtain ⟨part, member, inside⟩ := (mem_freeVars_head headed).mp free
        exact ⟨_, List.mem_map_of_mem member, (ih part member).mpr ⟨y, inside, found⟩⟩

/-- Below parameters that are not among its free variables an expression has the form that it has
outside. -/
theorem nameless_outside {e : Expr} {env : List String} (apart : ∀ p ∈ env, p ∉ e.freeVars) :
    e.nameless env = e.nameless [] :=
  nameless_congr fun y free => resolve_free fun inside => apart y inside free

/-- What has the form of an expression outside all functions uses none of the parameters above. -/
theorem sameForm_of_nameless {e x : Expr} {env : List String} (same : e.nameless env = x.nameless []) :
    SameForm e x := by
  have apart : ∀ p ∈ env, p ∉ e.freeVars := by
    intro p inside free
    obtain ⟨i, _, _, found⟩ := Nameless.resolve_bound inside []
    have bound : (x.nameless []).HasBound i := same ▸ hasBound_nameless.mpr ⟨p, free, found⟩
    obtain ⟨y, _, outside⟩ := hasBound_nameless.mp bound
    cases outside
  exact (nameless_outside apart).symm.trans same

/-- The nodes that a substitution for the pattern comes to: those that are in no occurrence of it. -/
def visited (e x : Expr) : List Expr :=
  fold (fun e parts => if e = x then [] else e :: parts.flatten) e

theorem visited_eq {x e : Expr} (other : e ≠ x) : e.visited x = e :: e.children.flatMap (visited · x) := by
  rw [visited, fold_eq, if_neg other, List.flatMap_def]
  rfl

/-- What a substitution may come to without going wrong: nothing that differs from the pattern in the names
of parameters alone, and no function that has a free variable of the value for its parameter, or one
of the pattern with the pattern below it. -/
def Clear (x v : Expr) : Expr → Prop
  | .lam p body => ¬SameForm (.lam p body) x ∧ p ∉ v.freeVars ∧ (p ∈ x.freeVars → x ∉ body.nodes)
  | e => ¬SameForm e x

instance (x v : Expr) : DecidablePred (Clear x v)
  | .lam p body => inferInstanceAs (Decidable (¬SameForm (.lam p body) x ∧ p ∉ v.freeVars ∧ _))
  | .num _ | .var _ | .bool _ | .unary _ _ | .binary _ _ _ | .app _ _ | .provided _ _ | .piecewise _
  | .interval _ _ => inferInstanceAs (Decidable (¬_))

theorem Clear.other {x v e : Expr} (clear : Clear x v e) : ¬SameForm e x := by
  cases e with
  | lam => exact clear.1
  | _ => exact clear

section Walk
variable {x v : Expr} {bound : List String} {depth : Nat}

private theorem substituteWithin_self : substituteWithin x v bound (depth + 1) x = .ok v := by
  cases x <;> simp [substituteWithin]

/-- A pattern that is no variable is looked for below every parameter that no variable of the value has. -/
private theorem substituteWithin_lam_compound (compound : ∀ y, x ≠ .var y) {p : String} {body : Expr}
    (other : Expr.lam p body ≠ x) (apart : p ∉ bound) :
    substituteWithin x v bound (depth + 1) (.lam p body) = Expr.lam p <$> substituteWithin x v bound depth body := by
  cases x with
  | var y => exact absurd rfl (compound y)
  | _ =>
    rw [substituteWithin, if_neg other]
    · refine (if_neg (by simp)).trans ((if_neg (by simpa using apart)).trans ?_)
      rfl
    · simp

private theorem substituteWithin_leaf {e : Expr} (other : e ≠ x) (leaf : e.children = [])
    (same : e.withChildren [] = e) : substituteWithin x v bound (depth + 1) e = .ok e := by
  cases e with
  | lam => cases leaf
  | _ =>
    rw [substituteWithin, if_neg other, leaf]
    · exact congrArg Except.ok same
    · simp

private theorem nameless_leaf (y : String) (env : List String) :
    (∃ z, (Expr.var y).nameless env = .constant z) ∨ (∃ z, (Expr.var y).nameless env = .free z) ∨
      ∃ i, (Expr.var y).nameless env = .bound i := by
  cases constant : isConstantName y with
  | true => exact .inl ⟨y, by simp [nameless, constant]⟩
  | false =>
    rw [nameless_var constant]
    by_cases inside : y ∈ env
    · obtain ⟨i, _, _, found⟩ := Nameless.resolve_bound inside []
      exact .inr (.inr ⟨i, found⟩)
    · exact .inr (.inl ⟨y, resolve_free inside⟩)

/-- The walk below some parameters, if they stay clear of the value, and of the pattern as long as that
occurs. -/
private theorem substituteWithin_replaced (compound : ∀ y, x ≠ .var y) {e : Expr} :
    ∀ {depth env}, e.depth ≤ depth → (∀ p ∈ env, p ∉ v.freeVars) →
      (x ∈ e.nodes → ∀ p ∈ env, p ∉ x.freeVars) → (∀ n ∈ e.visited x, Clear x v n) →
      ∃ r, substituteWithin x v v.freeVars depth e = .ok r ∧
        r.nameless env = replaced (x.nameless []) (v.nameless []) (e.nameless env) := by
  induction e using children_induction with
  | node e ih =>
    intro depth env low value pattern clear
    obtain ⟨depth, rfl⟩ : ∃ d, depth = d + 1 := ⟨depth - 1, by have := depth_pos e; omega⟩
    by_cases here : e = x
    · subst here
      refine ⟨v, substituteWithin_self, ?_⟩
      have form := nameless_outside (pattern (nodes_root e))
      rw [nameless_outside value, form, Nameless.replaced_self]
    rw [visited_eq here, List.forall_mem_cons] at clear
    have other : e.nameless env ≠ x.nameless [] := fun same => clear.1.other (sameForm_of_nameless same)
    have below {part : Expr} (member : part ∈ e.children) : ∀ n ∈ part.visited x, Clear x v n :=
      fun n inside => clear.2 n (List.mem_flatMap.mpr ⟨part, member, inside⟩)
    have under {part : Expr} (member : part ∈ e.children) : x ∈ part.nodes → ∀ p ∈ env, p ∉ x.freeVars :=
      fun inside => pattern (nodes_part member inside)
    rcases shape e with ⟨z, rfl⟩ | ⟨b, rfl⟩ | ⟨y, rfl⟩ | ⟨p, body, rfl⟩ | ⟨h, headed⟩
    · exact ⟨.num z, substituteWithin_leaf here rfl rfl,
        (Nameless.replaced_leaf other (by simp [nameless]) (by simp [nameless])).symm⟩
    · exact ⟨.bool b, substituteWithin_leaf here rfl rfl,
        (Nameless.replaced_leaf other (by simp [nameless]) (by simp [nameless])).symm⟩
    · refine ⟨.var y, substituteWithin_leaf here rfl rfl, (Nameless.replaced_leaf other ?_ ?_).symm⟩ <;>
        rcases nameless_leaf y env with ⟨_, form⟩ | ⟨_, form⟩ | ⟨_, form⟩ <;> simp [form]
    · have member : body ∈ (Expr.lam p body).children := by simp [children]
      obtain ⟨-, not_value, not_pattern⟩ := clear.1
      have shallow : body.depth ≤ depth := by
        have := depth_child member
        omega
      obtain ⟨r, answer, form⟩ := ih body member shallow (List.forall_mem_cons.mpr ⟨not_value, value⟩)
        (fun inside => List.forall_mem_cons.mpr ⟨fun free => not_pattern free inside, under member inside⟩)
        (below member)
      refine ⟨.lam p r, ?_, ?_⟩
      · rw [substituteWithin_lam_compound compound here not_value, answer]
        rfl
      · rw [nameless, form]
        exact (Nameless.replaced_lam other).symm
    · obtain ⟨parts, answer, forms⟩ := mapM_answers e.children (f := substituteWithin x v v.freeVars depth)
        (g := nameless env) (h := fun part => replaced (x.nameless []) (v.nameless []) (part.nameless env))
        fun part member => ih part member (by have := depth_child member; omega) value (under member) (below member)
      obtain ⟨still, new⟩ := withChildren_head headed (by simpa using congrArg List.length forms)
      refine ⟨e.withChildren parts, ?_, ?_⟩
      · rw [substituteWithin_parts here headed, answer]
        rfl
      · rw [nameless_head headed] at other ⊢
        rw [nameless_head still, new, forms, Nameless.replaced_node other, List.map_map]
        rfl

end Walk

variable {x v e f : Expr}

/-- Where the walk stays clear, substitution for a compound pattern is replacement on nameless forms. -/
theorem substitute_replaced (compound : ∀ y, x ≠ .var y) (clear : ∀ n ∈ e.visited x, Clear x v n) :
    ∃ r, e.substitute x v = .ok r ∧
      r.nameless [] = replaced (x.nameless []) (v.nameless []) (e.nameless []) :=
  substituteWithin_replaced compound (le_refl e.depth) (by simp) (by simp) clear

/-- Where the walks stay clear, substitution for a compound pattern replaces its free occurrences, and does
the same to expressions that differ in the names of parameters alone. -/
theorem substitute_sameForm (compound : ∀ y, x ≠ .var y) (same : SameForm e f)
    (clear : ∀ n ∈ e.visited x, Clear x v n) (clear' : ∀ n ∈ f.visited x, Clear x v n) :
    ∃ r r', e.substitute x v = .ok r ∧ f.substitute x v = .ok r' ∧ SameForm r r' ∧
      r.nameless [] = replaced (x.nameless []) (v.nameless []) (e.nameless []) := by
  obtain ⟨r, answer, form⟩ := substitute_replaced compound clear
  obtain ⟨r', answer', form'⟩ := substitute_replaced compound clear'
  refine ⟨r, r', answer, answer', ?_, form⟩
  rw [SameForm, form, form', same]

/-- Below a parameter that does not occur in the pattern. -/
theorem substitute_sameForm_sum :
    ∃ r r', (Expr.lam "y" (.binary .pow (.binary .sum (.var "z") 1) (.var "y"))).substitute
        (.binary .sum (.var "z") 1) (.binary .mul (.var "z") (.var "u")) = .ok r ∧
      (Expr.lam "w" (.binary .pow (.binary .sum (.var "z") 1) (.var "w"))).substitute
        (.binary .sum (.var "z") 1) (.binary .mul (.var "z") (.var "u")) = .ok r' ∧
      SameForm r r' ∧ r.nameless [] = .lam (.node (.binary .pow)
        [.node (.binary .mul) [.free "z", .free "u"], .bound 0]) := by
  obtain ⟨r, r', answer, answer', same, form⟩ := substitute_sameForm
    (x := .binary .sum (.var "z") 1) (v := .binary .mul (.var "z") (.var "u"))
    (e := .lam "y" (.binary .pow (.binary .sum (.var "z") 1) (.var "y")))
    (f := .lam "w" (.binary .pow (.binary .sum (.var "z") 1) (.var "w")))
    (by simp) (by decide +kernel) (by decide +kernel) (by decide +kernel)
  exact ⟨r, r', answer, answer', same, form.trans (by decide +kernel)⟩

/-- A parameter that a variable of the pattern is named after: the occurrence below it is replaced
although its variable is bound, and is not when the parameter has another name. -/
theorem substitute_bound_occurrence :
    let pattern : Expr := .binary .sum (.var "y") 1
    SameForm (.lam "y" pattern) (.lam "z" (.binary .sum (.var "z") 1)) ∧
    (Expr.lam "y" pattern).substitute pattern 5 = .ok (.lam "y" 5) ∧
    (Expr.lam "z" (.binary .sum (.var "z") 1)).substitute pattern 5
      = .ok (.lam "z" (.binary .sum (.var "z") 1)) ∧
    ¬SameForm (.lam "y" 5) (.lam "z" (.binary .sum (.var "z") 1)) := by
  decide +kernel

/-- A parameter that a variable of the value is named after: there is no result. -/
example : (Expr.lam "y" 2).substitute 2 (.var "y") = .error .variableRequired := by
  decide +kernel

end Expr
end ComputerAlgebra
