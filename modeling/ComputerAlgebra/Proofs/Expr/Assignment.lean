import ComputerAlgebra.Proofs.Nameless.Substitution

/-!
Values for variables. A value is a leaf without variables; putting values for variables one after the
other leaves the depth of an expression as it is.
-/

namespace ComputerAlgebra.Expr

def substituteAll (s : List (String × Expr)) (e : Expr) : Except Fault Expr :=
  s.foldlM (fun e (x, value) => e.substitute (.var x) value) e

def IsLiteral (e : Expr) : Prop := (∃ z, e = .num z) ∨ ∃ b, e = .bool b

theorem IsLiteral.depth {v : Expr} (literal : IsLiteral v) : v.depth = 1 := by
  rcases literal with ⟨z, rfl⟩ | ⟨b, rfl⟩ <;> rfl

theorem IsLiteral.freeVars {v : Expr} (literal : IsLiteral v) : v.freeVars = [] := by
  rcases literal with ⟨z, rfl⟩ | ⟨b, rfl⟩ <;> rfl

private theorem mapM_ok {f : Expr → Except Fault Expr} {P : Expr → Expr → Prop} {es : List Expr} :
    ∀ {rs : List Expr}, es.mapM f = .ok rs → (∀ e ∈ es, ∀ r, f e = .ok r → P r e) →
      List.Forall₂ P rs es := by
  induction es with
  | nil =>
    intro rs done _
    cases done
    exact .nil
  | cons e es ih =>
    intro rs done each
    rw [List.mapM_cons] at done
    cases first : f e with
    | error fault => rw [first] at done; cases done
    | ok r =>
      cases rest : es.mapM f with
      | error fault => rw [first, rest] at done; cases done
      | ok rs' =>
        rw [first, rest] at done
        cases done
        exact .cons (each e (by simp) r first) (ih rest fun e' member => each e' (by simp [member]))

theorem substituteWithin_depth {x : String} {v : Expr} (literal : IsLiteral v) (fuel : Nat) :
    ∀ {e r : Expr}, substituteWithin (.var x) v [] fuel e = .ok r → r.depth = e.depth := by
  induction fuel with
  | zero =>
    intro e r done
    cases done
    rfl
  | succ fuel ih =>
    intro e r done
    rcases shape e with ⟨z, rfl⟩ | ⟨b, rfl⟩ | ⟨y, rfl⟩ | ⟨p, body, rfl⟩ | ⟨h, headed⟩
    · cases done
      rfl
    · cases done
      rfl
    · by_cases same : y = x
      · subst same
        have answer : substituteWithin (.var y) v [] (fuel + 1) (.var y) = .ok v := by
          simp [substituteWithin]
        rw [answer] at done
        cases done
        exact literal.depth
      · have answer : substituteWithin (.var x) v [] (fuel + 1) (.var y) = .ok (.var y) := by
          simp [substituteWithin, same, children, withChildren]
          rfl
        rw [answer] at done
        cases done
        rfl
    · by_cases absent : x = p ∨ x ∉ (Expr.lam p body).names
      · rw [substituteWithin_lam_absent absent] at done
        cases done
        rfl
      · obtain ⟨other, occurs⟩ := not_or.mp absent
        rw [substituteWithin_lam other (not_not.mp occurs), if_neg (by simp)] at done
        cases inner : substituteWithin (.var x) v [] fuel body with
        | error fault => rw [inner] at done; cases done
        | ok body' =>
          rw [inner] at done
          cases done
          simp only [depth_eq (.lam _ _), children, List.map_cons, ih inner]
    · rw [substituteWithin_head headed] at done
      cases parts : e.children.mapM (substituteWithin (.var x) v [] fuel) with
      | error fault => rw [parts] at done; cases done
      | ok rs =>
        rw [parts] at done
        cases done
        have same := mapM_ok (P := fun r e => r.depth = e.depth) parts fun _ _ _ found => ih found
        have depths : rs.map depth = e.children.map depth :=
          List.forall₂_eq_eq_eq ▸ List.forall₂_map_left_iff.mpr (List.forall₂_map_right_iff.mpr same)
        have inside := (withChildren_head headed same.length_eq).2
        rw [depth_eq (e.withChildren rs), depth_eq e, inside, depths]

theorem substitute_depth {x : String} {v e r : Expr} (literal : IsLiteral v)
    (done : e.substitute (.var x) v = .ok r) : r.depth = e.depth := by
  rw [substitute, literal.freeVars] at done
  exact substituteWithin_depth literal e.depth done

theorem substituteAll_depth {s : List (String × Expr)} (literals : ∀ p ∈ s, IsLiteral p.2) :
    ∀ {e r : Expr}, e.substituteAll s = .ok r → r.depth = e.depth := by
  induction s with
  | nil =>
    intro e r done
    cases done
    rfl
  | cons pair s ih =>
    obtain ⟨x, v⟩ := pair
    intro e r done
    change (e.substitute (.var x) v >>= fun e => e.substituteAll s) = _ at done
    cases first : e.substitute (.var x) v with
    | error fault => rw [first] at done; cases done
    | ok e' =>
      rw [first] at done
      have rest : r.depth = e'.depth := ih (fun p member => literals p (by simp [member])) done
      exact rest.trans (substitute_depth (literals (x, v) (by simp)) first)

end ComputerAlgebra.Expr
