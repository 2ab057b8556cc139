import ComputerAlgebra.Expr.Variables
import ComputerAlgebra.Proofs.Nameless.Basic
import Mathlib.Data.Finset.Card
import Std.Data.String.ToNat

/-!
Fresh names. The candidates with different indices are different names, so among one more of them
than there are taken names one is free, and the search finds it. A candidate is never the name of a
constant.
-/

namespace ComputerAlgebra.Expr

private theorem candidate_injective (base : String) :
    Function.Injective fun i : Nat => s!"{base}_{i}" := by
  intro i j same
  have digits : Nat.repr i = Nat.repr j := by
    simpa [ToString.toString] using same
  exact Nat.repr_injective digits

private theorem freshIndex_search (base : String) (taken : List String) (fuel : Nat) :
    ∀ start, s!"{base}_{freshIndex base taken fuel start}" ∉ taken ∨
      freshIndex base taken fuel start = start + fuel ∧
        ∀ i < fuel, s!"{base}_{start + i}" ∈ taken := by
  induction fuel with
  | zero =>
    intro start
    exact .inr ⟨rfl, by simp⟩
  | succ fuel ih =>
    intro start
    unfold freshIndex
    split
    · next occupied =>
      rcases ih (start + 1) with free | ⟨last, full⟩
      · exact .inl free
      · refine .inr ⟨by omega, ?_⟩
        intro i below
        cases i with
        | zero => simpa using occupied
        | succ i =>
          rw [show start + (i + 1) = start + 1 + i by omega]
          exact full i (by omega)
    · next free => exact .inl (by simpa using free)

/-- The search has one candidate more than there are taken names, so it cannot run out of them. -/
theorem freshName_free (base : String) (taken : List String) : freshName base taken ∉ taken := by
  intro member
  rcases freshIndex_search base taken taken.length 1 with free | ⟨stop, full⟩
  · exact free member
  have last : s!"{base}_{1 + taken.length}" ∈ taken := by
    rwa [freshName, stop] at member
  let candidates := (Finset.range (taken.length + 1)).image fun i => s!"{base}_{1 + i}"
  have inside : candidates ⊆ taken.toFinset := by
    intro name
    simp only [candidates, Finset.mem_image, Finset.mem_range, List.mem_toFinset]
    rintro ⟨i, bound, rfl⟩
    rcases Nat.lt_succ_iff_lt_or_eq.mp bound with lower | rfl
    · exact full i lower
    · exact last
  have count : candidates.card = taken.length + 1 := by
    rw [Finset.card_image_of_injective, Finset.card_range]
    intro i j same
    have := candidate_injective base same
    omega
  have := Finset.card_le_card inside
  have := taken.toFinset_card_le
  omega

theorem freshName_variable (base : String) (taken : List String) :
    isConstantName (freshName base taken) = false := by
  have separator : '_' ∈ (freshName base taken).toList := by
    simp [freshName, ToString.toString]
  have no_pi : freshName base taken ≠ "pi" := by
    intro same
    rw [same] at separator
    exact absurd separator (by decide)
  have no_e : freshName base taken ≠ "e" := by
    intro same
    rw [same] at separator
    exact absurd separator (by decide)
  simp [isConstantName, no_pi, no_e]

end ComputerAlgebra.Expr

/-!
Substitution captures nothing. The nameless form of the result is the nameless form of the
expression with the value put for the free name, whatever parameters were renamed on the way, and
applying a function to an argument is beta reduction of nameless forms.
-/

namespace ComputerAlgebra

namespace Expr
open Nameless (resolve resolve_cons resolve_self resolve_free subst opened lifted)

theorem subst_absent {x : String} {value : Nameless} {e : Expr} : ∀ {env : List String},
    (x ∈ e.freeVars → x ∈ env) → subst x value (e.nameless env) = e.nameless env := by
  induction e using children_induction with
  | node e ih =>
    intro env absent
    rcases shape e with ⟨z, rfl⟩ | ⟨b, rfl⟩ | ⟨y, rfl⟩ | ⟨p, body, rfl⟩ | ⟨h, headed⟩
    · rfl
    · rfl
    · cases constant : isConstantName y with
      | true => simp [nameless, constant, subst]
      | false =>
        rw [nameless_var constant]
        by_cases inside : y ∈ env
        · obtain ⟨i, _, _, found⟩ := Nameless.resolve_bound inside []
          simp [found, subst]
        · have other : y ≠ x := by
            rintro rfl
            exact inside (absent (mem_freeVars_var.mpr ⟨rfl, constant⟩))
          simp [resolve_free inside, subst, other]
    · rw [nameless, subst, ih body (by simp [children])]
      intro free
      by_cases same : x = p
      · simp [same]
      · exact List.mem_cons_of_mem p (absent (mem_freeVars_lam.mpr ⟨free, same⟩))
    · rw [nameless_head headed, subst, Nameless.substList_eq_map, List.map_map]
      congr 1
      apply List.map_congr_left
      intro part member
      apply ih part member
      intro free
      exact absent ((mem_freeVars_head headed).mpr ⟨part, member, free⟩)

/-- Opening the outermost parameter puts the value where its name would be free without it. -/
theorem opened_nameless {p : String} (plain : isConstantName p = false) {value : Nameless}
    {e : Expr} : ∀ env : List String,
    opened value env.length (e.nameless (env ++ [p])) = subst p value (e.nameless env) := by
  induction e using children_induction with
  | node e ih =>
    intro env
    rcases shape e with ⟨z, rfl⟩ | ⟨b, rfl⟩ | ⟨y, rfl⟩ | ⟨q, body, rfl⟩ | ⟨h, headed⟩
    · rfl
    · rfl
    · cases constant : isConstantName y with
      | true => simp [nameless, constant, subst, opened]
      | false =>
        rw [nameless_var constant, nameless_var constant]
        by_cases inside : y ∈ env
        · obtain ⟨i, below, long, short⟩ := Nameless.resolve_bound inside [p]
          rw [long, short]
          simp [opened, subst, show i ≠ env.length by omega]
        · rw [resolve_free inside]
          by_cases same : y = p
          · subst same
            rw [Nameless.resolve_outermost inside]
            simp [opened, subst]
          · rw [resolve_free (by simp [inside, same])]
            simp [opened, subst, same]
    · rw [nameless, nameless, opened, subst]
      congr 1
      exact ih body (by simp [children]) (q :: env)
    · rw [nameless_head headed, nameless_head headed, opened, subst, Nameless.openedList_eq_map,
        Nameless.substList_eq_map, List.map_map, List.map_map]
      congr 1
      apply List.map_congr_left
      intro part member
      exact ih part member env

section Renaming
variable {p q : String}

theorem rename_var (x : String) :
    rename p q (.var x) = if x = p then .var q else .var x := rfl

theorem rename_lam (r : String) (body : Expr) :
    rename p q (.lam r body) =
      if r = p then .lam r body else .lam r (rename p q body) := by
  rw [rename, fold_eq]
  by_cases same : r = p
  · simp [same]
  · simp [same, children, fold, withChildren]

theorem rename_head {e : Expr} {h : Head} (headed : e.head? = some h) :
    rename p q e = e.withChildren (e.children.map (rename p q)) := by
  rw [rename, fold_eq]
  cases e <;> simp_all [head?]

theorem depth_rename (e : Expr) : (rename p q e).depth = e.depth := by
  induction e using children_induction with
  | node e ih =>
    rcases shape e with ⟨z, rfl⟩ | ⟨b, rfl⟩ | ⟨x, rfl⟩ | ⟨r, body, rfl⟩ | ⟨h, headed⟩
    · rfl
    · rfl
    · rw [rename_var]
      split <;> rfl
    · rw [rename_lam]
      split
      · rfl
      · rw [depth_eq, depth_eq (.lam r body)]
        simp [children, ih body (by simp [children]), show ∀ y, (Expr.var y).depth = 1 from fun _ => rfl]
    · have size : (e.children.map (rename p q)).length = e.children.length := by simp
      obtain ⟨_, parts⟩ := withChildren_head headed size
      rw [rename_head headed, depth_eq, depth_eq e, parts, List.map_map]
      congr 2
      apply List.map_congr_left
      intro part member
      exact ih part member

/-- Renaming a parameter and its occurrences leaves the nameless form alone: `q` is new, so below
the new parameters it stands for what `p` stood for, and all other names keep their meaning. -/
theorem nameless_rename (plain : isConstantName p = false) (plain' : isConstantName q = false)
    {e : Expr} : ∀ {env env' : List String}, q ∉ e.names → resolve env' q = resolve env p →
    (∀ y ∈ e.names, y ≠ p → resolve env' y = resolve env y) →
    (rename p q e).nameless env' = e.nameless env := by
  induction e using children_induction with
  | node e ih =>
    intro env env' fresh moved kept
    rcases shape e with ⟨z, rfl⟩ | ⟨b, rfl⟩ | ⟨x, rfl⟩ | ⟨r, body, rfl⟩ | ⟨h, headed⟩
    · rfl
    · rfl
    · rw [rename_var]
      by_cases same : x = p
      · rw [if_pos same, same, nameless_var plain, nameless_var plain', moved]
      · rw [if_neg same]
        cases constant : isConstantName x with
        | true => simp [nameless, constant]
        | false => rw [nameless_var constant, nameless_var constant, kept x (by simp) same]
    · rw [rename_lam]
      by_cases same : r = p
      · rw [if_pos same]
        apply nameless_congr
        intro y free
        have inside := mem_freeVars_lam.mp free
        exact kept y (freeVars_named free) (same ▸ inside.2)
      · rw [if_neg same, nameless, nameless]
        have different : q ≠ r := by
          rintro rfl
          exact fresh (by simp)
        congr 1
        apply ih body (by simp [children])
        · intro inside
          exact fresh (mem_names_lam.mpr (.inr inside))
        · rw [resolve_cons env' different, resolve_cons env (Ne.symm same), moved]
        · intro y inside other
          by_cases hidden : y = r
          · rw [hidden, resolve_self, resolve_self]
          · rw [resolve_cons env' hidden, resolve_cons env hidden,
              kept y (mem_names_lam.mpr (.inr inside)) other]
    · have size : (e.children.map (rename p q)).length = e.children.length := by simp
      obtain ⟨still, parts⟩ := withChildren_head headed size
      rw [rename_head headed, nameless_head still, nameless_head headed, parts, List.map_map]
      congr 1
      apply List.map_congr_left
      intro part member
      apply ih part member
      · intro inside
        exact fresh (names_child member inside)
      · exact moved
      · intro y inside other
        exact kept y (names_child member inside) other

end Renaming

theorem mapM_answers {α β γ : Type} {f : α → Except Fault β} {g : β → γ} {h : α → γ}
    (xs : List α) (answers : ∀ a ∈ xs, ∃ b, f a = .ok b ∧ g b = h a) :
    ∃ ys, xs.mapM f = .ok ys ∧ ys.map g = xs.map h := by
  induction xs with
  | nil => exact ⟨[], rfl, rfl⟩
  | cons a xs ih =>
    obtain ⟨b, found, related⟩ := answers a (by simp)
    obtain ⟨ys, rest, same⟩ := ih (fun c member => answers c (by simp [member]))
    refine ⟨b :: ys, ?_, by simp [related, same]⟩
    rw [List.mapM_cons, found, rest]
    rfl

section Walk
variable {x : String} {v : Expr} {bound : List String} {depth : Nat}

theorem substituteWithin_lam_absent {p : String} {body : Expr}
    (absent : x = p ∨ x ∉ (Expr.lam p body).names) :
    substituteWithin (.var x) v bound (depth + 1) (.lam p body) = .ok (.lam p body) := by
  have leaves : (decide (x = p) || !(Expr.lam p body).names.contains x) = true := by
    simpa using absent
  rw [substituteWithin, if_neg (by simp)]
  exact if_pos leaves

theorem substituteWithin_lam {p : String} {body : Expr} (other : x ≠ p)
    (occurs : x ∈ (Expr.lam p body).names) :
    substituteWithin (.var x) v bound (depth + 1) (.lam p body) =
      if p ∈ bound then
        let q := freshName p (x :: join (Expr.lam p body).names v.names)
        Expr.lam q <$> substituteWithin (.var x) v bound depth (rename p q body)
      else Expr.lam p <$> substituteWithin (.var x) v bound depth body := by
  have enters : ¬(decide (x = p) || !(Expr.lam p body).names.contains x) = true := by
    simpa using ⟨other, fun _ => by simpa [other] using occurs⟩
  rw [substituteWithin, if_neg (by simp)]
  refine (if_neg enters).trans ?_
  by_cases captures : p ∈ bound
  · rw [if_pos captures, if_pos (by simpa using captures)]
    rfl
  · rw [if_neg captures, if_neg (by simpa using captures)]
    rfl

theorem substituteWithin_parts {e pattern : Expr} {h : Head} (other : e ≠ pattern) (headed : e.head? = some h) :
    substituteWithin pattern v bound (depth + 1) e =
      e.withChildren <$> e.children.mapM (substituteWithin pattern v bound depth) := by
  cases e with
  | num | var | bool | lam => simp [head?] at headed
  | unary | binary | app | provided | piecewise | interval =>
    rw [substituteWithin, if_neg other]
    · rfl
    · simp

theorem substituteWithin_head {e : Expr} {h : Head} (headed : e.head? = some h) :
    substituteWithin (.var x) v bound (depth + 1) e =
      e.withChildren <$> e.children.mapM (substituteWithin (.var x) v bound depth) := by
  refine substituteWithin_parts ?_ headed
  rintro rfl
  simp [head?] at headed

end Walk

/-- What is promised of the walk over expressions of a bounded depth: below parameters that the
value does not mention, it puts the value for the free name. -/
private def Substitutes (x : String) (v : Expr) (depth : Nat) : Prop :=
  ∀ {e : Expr} {env : List String}, e.depth ≤ depth → x ∉ env → (∀ y ∈ v.freeVars, y ∉ env) →
    ∃ r, substituteWithin (.var x) v v.freeVars depth e = .ok r ∧
      r.nameless env = subst x (v.nameless []) (e.nameless env)

section Step
variable {x : String} {v : Expr} {depth : Nat} {env : List String}

private theorem apart_cons {p : String} (apart : ∀ y ∈ v.freeVars, y ∉ env)
    (other : p ∉ v.freeVars) : ∀ y ∈ v.freeVars, y ∉ p :: env := by
  intro y free inside
  rcases List.mem_cons.mp inside with rfl | deeper
  · exact other free
  · exact apart y free deeper

private theorem substitutes_lam (ih : Substitutes x v depth) {p : String} {body : Expr}
    (low : body.depth ≤ depth) (outside : x ∉ env) (apart : ∀ y ∈ v.freeVars, y ∉ env) :
    ∃ r, substituteWithin (.var x) v v.freeVars (depth + 1) (.lam p body) = .ok r ∧
      r.nameless env = subst x (v.nameless []) ((Expr.lam p body).nameless env) := by
  by_cases absent : x = p ∨ x ∉ (Expr.lam p body).names
  · refine ⟨.lam p body, substituteWithin_lam_absent absent, ?_⟩
    rw [subst_absent]
    intro free
    rcases absent with same | missing
    · exact absurd same (mem_freeVars_lam.mp free).2
    · exact absurd (freeVars_named free) missing
  rw [not_or, not_not] at absent
  obtain ⟨other, occurs⟩ := absent
  by_cases captures : p ∈ v.freeVars
  · let q := freshName p (x :: join (Expr.lam p body).names v.names)
    have fresh : q ∉ x :: join (Expr.lam p body).names v.names := freshName_free _ _
    rw [List.mem_cons, mem_join, mem_names_lam, not_or, not_or, not_or] at fresh
    obtain ⟨not_x, ⟨not_p, not_body⟩, not_v⟩ := fresh
    have renamed_low : (rename p q body).depth ≤ depth := by
      rw [depth_rename]
      exact low
    have renamed_outside : x ∉ q :: env := by
      simp [Ne.symm not_x, outside]
    obtain ⟨r, answer, form⟩ :=
      ih renamed_low renamed_outside (apart_cons apart fun free => not_v (freeVars_named free))
    refine ⟨.lam q r, ?_, ?_⟩
    · rw [substituteWithin_lam other occurs, if_pos captures]
      exact congrArg (Expr.lam q <$> ·) answer
    · rw [nameless, form, nameless, subst, nameless_rename (freeVars_variable captures)
        (freshName_variable _ _) not_body]
      · rw [resolve_self, resolve_self]
      · intro y inside different
        have not_q : y ≠ q := by
          rintro rfl
          exact not_body inside
        rw [resolve_cons env not_q, resolve_cons env different]
  · have body_outside : x ∉ p :: env := by
      simp [other, outside]
    obtain ⟨r, answer, form⟩ := ih low body_outside (apart_cons apart captures)
    refine ⟨.lam p r, ?_, ?_⟩
    · rw [substituteWithin_lam other occurs, if_neg captures, answer]
      rfl
    · rw [nameless, form, nameless, subst]

private theorem substitutes_head (ih : Substitutes x v depth) {e : Expr} {h : Head}
    (headed : e.head? = some h) (low : e.depth ≤ depth + 1) (outside : x ∉ env)
    (apart : ∀ y ∈ v.freeVars, y ∉ env) :
    ∃ r, substituteWithin (.var x) v v.freeVars (depth + 1) e = .ok r ∧
      r.nameless env = subst x (v.nameless []) (e.nameless env) := by
  obtain ⟨parts, answer, forms⟩ := mapM_answers e.children
    (f := substituteWithin (.var x) v v.freeVars depth) (g := nameless env)
    (h := fun part => subst x (v.nameless []) (part.nameless env))
    (by
      intro part member
      have := depth_child member
      exact ih (by omega) outside apart)
  have size : parts.length = e.children.length := by
    simpa using congrArg List.length forms
  obtain ⟨still, new⟩ := withChildren_head headed size
  refine ⟨e.withChildren parts, ?_, ?_⟩
  · rw [substituteWithin_head headed, answer]
    rfl
  · rw [nameless_head still, new, forms, nameless_head headed, subst, Nameless.substList_eq_map,
      List.map_map]
    rfl

end Step

/-- The walk may rename a parameter of the expression before it goes on below it, so the induction
is on the depth and not on the expression. -/
private theorem substitutes {x : String} (plain : isConstantName x = false) (v : Expr)
    (depth : Nat) : Substitutes x v depth := by
  induction depth with
  | zero =>
    intro e env low
    have := depth_pos e
    omega
  | succ depth ih =>
    intro e env low outside apart
    rcases shape e with ⟨z, rfl⟩ | ⟨b, rfl⟩ | ⟨y, rfl⟩ | ⟨p, body, rfl⟩ | ⟨h, headed⟩
    · exact ⟨.num z, by simp [substituteWithin, children, withChildren]; rfl, rfl⟩
    · exact ⟨.bool b, by simp [substituteWithin, children, withChildren]; rfl, rfl⟩
    · by_cases same : y = x
      · subst same
        refine ⟨v, by simp [substituteWithin], ?_⟩
        rw [nameless_var plain, resolve_free outside, Nameless.subst, if_pos rfl]
        apply nameless_congr
        intro z free
        rw [resolve_free (apart z free), resolve]
      · refine ⟨.var y, by simp [substituteWithin, children, withChildren, same]; rfl, ?_⟩
        rw [subst_absent]
        intro free
        exact absurd (mem_freeVars_var.mp free).1 (Ne.symm same)
    · have smaller : body.depth < (Expr.lam p body).depth := depth_child (by simp [children])
      exact substitutes_lam ih (by omega) outside apart
    · exact substitutes_head ih headed low outside apart

/-- Substitution for a variable has a result, and its form is that of the expression with the value put for
the free name. -/
theorem substitute_answers {x : String} (plain : isConstantName x = false) (e v : Expr) :
    ∃ r, e.substitute (.var x) v = .ok r ∧
      r.nameless [] = subst x (v.nameless []) (e.nameless []) :=
  substitutes plain v e.depth (le_refl e.depth) (by simp) (by simp)

/-- Substitution for a variable is substitution on nameless forms, so it captures nothing: it always
gives a result, the result keeps the free variables other than the replaced one and has those of the
value exactly when the replaced one was free, and a function applied to a value is reduced to it. -/
theorem substitute_nameless {x : String} (plain : isConstantName x = false) (e v : Expr) :
    ∃ r, e.substitute (.var x) v = .ok r ∧
      r.nameless [] = subst x (v.nameless []) (e.nameless []) ∧
      (∀ y, y ∈ r.freeVars ↔ y ∈ e.freeVars ∧ y ≠ x ∨ x ∈ e.freeVars ∧ y ∈ v.freeVars) ∧
      (Expr.lam x e).instantiate v = .ok r ∧
      ((Expr.lam x e).nameless []).beta? (v.nameless []) = some (r.nameless []) := by
  obtain ⟨r, answer, form⟩ :=
    substitutes plain v e.depth (le_refl e.depth) (by simp : x ∉ []) (by simp)
  refine ⟨r, answer, form, ?_, answer, ?_⟩
  · intro y
    have free : ∀ z (t : Expr), (t.nameless []).HasFree z ↔ z ∈ t.freeVars := by
      intro z t
      simp [hasFree_nameless]
    rw [← free y r, form, Nameless.hasFree_subst, free y e, free x e, free y v]
  · rw [nameless, Nameless.beta?, form, ← opened_nameless plain []]
    rfl

/-- Both parameters are renamed, the second one past a name that is taken. -/
theorem substitute_nameless_nested :
    isConstantName "y" = false ∧ ∃ r,
      (Expr.lam "x" (.lam "x_1" (.binary .sum (.var "x") (.binary .pow (.var "x_1") (.var "y"))))
        ).substitute (.var "y") (.binary .mul (.var "x") (.var "x_1")) = .ok r ∧
      r.nameless [] = .lam (.lam (.node (.binary .sum) [.bound 1, .node (.binary .pow)
        [.bound 0, .node (.binary .mul) [.free "x", .free "x_1"]]])) := by
  have plain : isConstantName "y" = false := by decide
  obtain ⟨r, answer, form, _⟩ := substitute_nameless plain
    (.lam "x" (.lam "x_1" (.binary .sum (.var "x") (.binary .pow (.var "x_1") (.var "y")))))
    (.binary .mul (.var "x") (.var "x_1"))
  refine ⟨plain, r, answer, form.trans ?_⟩
  rfl

end Expr
end ComputerAlgebra
