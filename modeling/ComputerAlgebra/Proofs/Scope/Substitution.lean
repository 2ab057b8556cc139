import ComputerAlgebra.Proofs.Nameless.Substitution

/-!
What substitution for a variable can make of an expression, by the rules of the walk. The free variables of
the result are those of the expression without the replaced one, and those of the value; this holds for
the names of constants too, which a function may have as its parameter.
-/

namespace ComputerAlgebra.Expr

/-- What the walk of a substitution may turn an expression into, given what it does to its parts. -/
structure SubstitutionRules (x : String) (v : Expr) (M : Expr → Expr → Prop) : Prop where
  value : M (.var x) v
  number : ∀ z, M (.num z) (.num z)
  truth : ∀ b, M (.bool b) (.bool b)
  other : ∀ {y}, y ≠ x → M (.var y) (.var y)
  absent : ∀ {p body}, x = p ∨ x ∉ (Expr.lam p body).names → M (.lam p body) (.lam p body)
  renamed : ∀ {p q body r}, x ≠ p → p ∈ v.freeVars → q ≠ x → q ∉ (Expr.lam p body).names → q ∉ v.names →
    q ∈ Set.range (freshName p) → M (rename p q body) r → M (.lam p body) (.lam q r)
  under : ∀ {p body r}, x ≠ p → p ∉ v.freeVars → M body r → M (.lam p body) (.lam p r)
  headed : ∀ {e h parts}, e.head? = some h → List.Forall₂ M e.children parts →
    M e (e.withChildren parts)

private theorem mapM_related {α β : Type} {f : α → Except Fault β} {R : α → β → Prop} {xs : List α} :
    ∀ {ys : List β}, (∀ a ∈ xs, ∀ b, f a = .ok b → R a b) → xs.mapM f = .ok ys →
      List.Forall₂ R xs ys := by
  induction xs with
  | nil =>
    intro ys _ result
    cases result
    exact .nil
  | cons a xs ih =>
    intro ys related result
    rw [List.forall_mem_cons] at related
    rw [List.mapM_cons] at result
    cases first : f a with
    | error fault =>
      rw [first] at result
      cases result
    | ok b =>
      cases rest : xs.mapM f with
      | error fault =>
        rw [first, rest] at result
        cases result
      | ok bs =>
        rw [first, rest] at result
        cases result
        exact .cons (related.1 b first) (ih related.2 rest)

private theorem of_map_ok {α β : Type} {m : Except Fault α} {f : α → β} {b : β}
    (result : f <$> m = .ok b) : ∃ a, m = .ok a ∧ f a = b := by
  cases m with
  | error fault => cases result
  | ok a =>
    cases result
    exact ⟨a, rfl, rfl⟩

/-- The walk goes as deep as the expression, and renaming a parameter leaves the depth alone. -/
theorem SubstitutionRules.substituteWithin {x : String} {v : Expr} {M : Expr → Expr → Prop}
    (rules : SubstitutionRules x v M) (depth : Nat) : ∀ {e r : Expr}, e.depth ≤ depth →
    substituteWithin (.var x) v v.freeVars depth e = .ok r → M e r := by
  induction depth with
  | zero =>
    intro e r low
    have := depth_pos e
    omega
  | succ depth ih =>
    intro e r low result
    rcases shape e with ⟨z, rfl⟩ | ⟨b, rfl⟩ | ⟨y, rfl⟩ | ⟨p, body, rfl⟩ | ⟨h, headed⟩
    · cases result
      exact rules.number z
    · cases result
      exact rules.truth b
    · by_cases same : y = x
      · subst same
        have found : Expr.substituteWithin (.var y) v v.freeVars (depth + 1) (.var y) = .ok v :=
          if_pos rfl
        rw [found] at result
        cases result
        exact rules.value
      · have kept : Expr.substituteWithin (.var x) v v.freeVars (depth + 1) (.var y) = .ok (.var y) :=
          if_neg (by simpa using same)
        rw [kept] at result
        cases result
        exact rules.other same
    · have smaller : body.depth < (Expr.lam p body).depth := depth_child (by simp [children])
      by_cases absent : x = p ∨ x ∉ (Expr.lam p body).names
      · rw [substituteWithin_lam_absent absent] at result
        cases result
        exact rules.absent absent
      rw [not_or, not_not] at absent
      rw [substituteWithin_lam absent.1 absent.2] at result
      split at result
      · next captures =>
        obtain ⟨r', answer, rfl⟩ := of_map_ok result
        have fresh := freshName_free p (x :: join (Expr.lam p body).names v.names)
        rw [List.mem_cons, mem_join, not_or, not_or] at fresh
        refine rules.renamed absent.1 captures fresh.1 fresh.2.1 fresh.2.2 ⟨_, rfl⟩ (ih ?_ answer)
        rw [depth_rename]
        omega
      · next free =>
        obtain ⟨r', answer, rfl⟩ := of_map_ok result
        exact rules.under absent.1 free (ih (by omega) answer)
    · rw [substituteWithin_head headed] at result
      obtain ⟨parts, answers, rfl⟩ := of_map_ok result
      refine rules.headed headed (mapM_related (fun part member r answer => ?_) answers)
      have := depth_child member
      exact ih (by omega) answer

theorem SubstitutionRules.substitute {x : String} {v e r : Expr} {M : Expr → Expr → Prop}
    (rules : SubstitutionRules x v M) (result : e.substitute (.var x) v = .ok r) : M e r :=
  rules.substituteWithin e.depth (le_refl e.depth) result

theorem mem_freeVars_rename {p q y : String} {e : Expr} :
    y ∈ (rename p q e).freeVars → y ∈ e.freeVars ∧ y ≠ p ∨ y = q := by
  induction e using children_induction with
  | node e ih =>
    intro free
    rcases shape e with ⟨z, rfl⟩ | ⟨b, rfl⟩ | ⟨x, rfl⟩ | ⟨r, body, rfl⟩ | ⟨h, headed⟩
    · exact absurd (show y ∈ ([] : List String) from free) List.not_mem_nil
    · exact absurd (show y ∈ ([] : List String) from free) List.not_mem_nil
    · rw [rename_var] at free
      split at free
      · exact .inr (mem_freeVars_var.mp free).1
      · next other =>
        refine .inl ⟨free, ?_⟩
        rw [(mem_freeVars_var.mp free).1]
        exact other
    · rw [rename_lam] at free
      split at free
      · next same =>
        refine .inl ⟨free, ?_⟩
        rw [← same]
        exact (mem_freeVars_lam.mp free).2
      · obtain ⟨inside, other⟩ := mem_freeVars_lam.mp free
        rcases ih body (by simp [children]) inside with ⟨below, apart⟩ | new
        · exact .inl ⟨mem_freeVars_lam.mpr ⟨below, other⟩, apart⟩
        · exact .inr new
    · have size : (e.children.map (rename p q)).length = e.children.length := by simp
      obtain ⟨still, parts⟩ := withChildren_head headed size
      rw [rename_head headed, mem_freeVars_head still, parts] at free
      obtain ⟨_, member, inside⟩ := free
      obtain ⟨part, old, rfl⟩ := List.mem_map.mp member
      rcases ih part old inside with ⟨below, apart⟩ | new
      · exact .inl ⟨(mem_freeVars_head headed).mpr ⟨part, old, below⟩, apart⟩
      · exact .inr new

private theorem exists_of_forall₂ {α β : Type} {R : α → β → Prop} {as : List α} {bs : List β}
    (related : List.Forall₂ R as bs) {b : β} (member : b ∈ bs) : ∃ a ∈ as, R a b := by
  induction related with
  | nil => cases member
  | cons first _ ih =>
    rcases List.mem_cons.mp member with rfl | inside
    · exact ⟨_, List.mem_cons_self, first⟩
    · obtain ⟨a, old, holds⟩ := ih inside
      exact ⟨a, List.mem_cons_of_mem _ old, holds⟩

theorem mem_freeVars_substitute {x y : String} {e v r : Expr}
    (result : e.substitute (.var x) v = .ok r) (free : y ∈ r.freeVars) :
    y ∈ e.freeVars ∧ y ≠ x ∨ y ∈ v.freeVars := by
  have rules : SubstitutionRules x v fun e r =>
      ∀ y ∈ r.freeVars, y ∈ e.freeVars ∧ y ≠ x ∨ y ∈ v.freeVars :=
    { value := fun y free => .inr free
      number := fun z y free => absurd (show y ∈ ([] : List String) from free) List.not_mem_nil
      truth := fun b y free => absurd (show y ∈ ([] : List String) from free) List.not_mem_nil
      other := fun {z} apart y free => .inl ⟨free, (mem_freeVars_var.mp free).1 ▸ apart⟩
      absent := by
        rintro p body (rfl | missing) y free
        · exact .inl ⟨free, (mem_freeVars_lam.mp free).2⟩
        · refine .inl ⟨free, ?_⟩
          rintro rfl
          exact missing (freeVars_named free)
      renamed := by
        intro p q body r _ _ _ _ _ _ below y free
        obtain ⟨inside, apart⟩ := mem_freeVars_lam.mp free
        rcases below y inside with ⟨old, other⟩ | new
        · rcases mem_freeVars_rename old with ⟨kept, different⟩ | same
          · exact .inl ⟨mem_freeVars_lam.mpr ⟨kept, different⟩, other⟩
          · exact absurd same apart
        · exact .inr new
      under := by
        intro p body r _ _ below y free
        obtain ⟨inside, apart⟩ := mem_freeVars_lam.mp free
        rcases below y inside with ⟨old, other⟩ | new
        · exact .inl ⟨mem_freeVars_lam.mpr ⟨old, apart⟩, other⟩
        · exact .inr new
      headed := by
        intro e h parts headed related y free
        obtain ⟨still, same⟩ := withChildren_head headed related.length_eq.symm
        rw [mem_freeVars_head still, same] at free
        obtain ⟨part, member, inside⟩ := free
        obtain ⟨old, original, below⟩ := exists_of_forall₂ related member
        rcases below y inside with ⟨kept, other⟩ | new
        · exact .inl ⟨(mem_freeVars_head headed).mpr ⟨old, original, kept⟩, other⟩
        · exact .inr new }
  exact rules.substitute result y free

end ComputerAlgebra.Expr
