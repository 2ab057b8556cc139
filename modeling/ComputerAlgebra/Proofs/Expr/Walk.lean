import ComputerAlgebra.Proofs.Computation
import ComputerAlgebra.Proofs.Expr.Children
import ComputerAlgebra.Simplification.Pass

/-!
Walks over expressions that compute. What is to hold of the result of a walk may depend on what is in
scope: the parts of a function are judged below its parameter. A relation between expressions and results
holds of a walk when every step takes results of the parts to a result of the node.
-/

namespace ComputerAlgebra.Expr

/-- The scope in which the parts of a node are, with `below p i` for the scope `i` under the parameter
`p`. -/
def inside {ι : Type} (below : String → ι → ι) (i : ι) : Expr → ι
  | .lam p _ => below p i
  | _ => i

theorem forall_related {α β : Type} {R : α → β → Prop} {Q : β → Prop} {as : List α} {bs : List β}
    (related : List.Forall₂ R as bs) (keeps : ∀ a ∈ as, ∀ b, R a b → Q b) : ∀ b ∈ bs, Q b := by
  induction related with
  | nil => simp
  | cons first _ ih =>
    rw [List.forall_mem_cons] at keeps ⊢
    exact ⟨keeps.1 _ first, ih keeps.2⟩

theorem inside_head {ι : Type} {below : String → ι → ι} {i : ι} {e : Expr} {h : Head}
    (headed : e.head? = some h) : inside below i e = i := by
  cases e <;> first | rfl | cases headed

section Walk
variable {α ι : Type} {stepM : Expr → List α → Computation α} {below : String → ι → ι}
  {P : ι → Expr → Prop} {R : ι → Expr → α → Prop}

private theorem foldListM_eq (es : List Expr) : foldListM stepM es = es.mapM (foldM stepM) := by
  induction es with
  | nil => rfl
  | cons e rest ih => rw [foldListM, ih, List.mapM_cons]

private theorem foldCasesM_eq (cases : List (Expr × Expr)) :
    foldCasesM stepM cases = (cases.flatMap fun (e, p) => [e, p]).mapM (foldM stepM) := by
  induction cases with
  | nil => rfl
  | cons c rest ih =>
    obtain ⟨e, p⟩ := c
    simp [foldCasesM, ih, List.mapM_cons]

theorem foldM_eq (e : Expr) : foldM stepM e = e.children.mapM (foldM stepM) >>= stepM e := by
  cases e <;> simp [foldM, children, List.mapM_cons, foldListM_eq, foldCasesM_eq]

section Scoped
variable (J : Judgment)

/-- A step of a walk: from parts that are right in their scope to a node that is right in its own. -/
structure ScopedStep (stepM : Expr → List α → Computation α) (below : String → ι → ι)
    (P : ι → Expr → Prop) (R : ι → Expr → α → Prop) : Prop where
  parts : ∀ {i e}, P i e → ∀ part ∈ e.children, P (inside below i e) part
  node : ∀ {i e parts}, P i e → List.Forall₂ (R (inside below i e)) e.children parts →
    J.Holds (stepM e parts) (R i e)

variable {J}

/-- What every step keeps, the walk keeps. -/
theorem ScopedStep.foldM (step : ScopedStep J stepM below P R) (e : Expr) :
    ∀ {i : ι}, P i e → J.Holds (foldM stepM e) (R i e) := by
  induction e using children_induction with
  | node e ih =>
    intro i holds
    rw [foldM_eq]
    refine J.bind (J.mapM (List.forall₂_same.mpr fun part member => ?_)) fun parts related => step.node holds related
    exact ih part member (step.parts holds part member)

end Scoped

section Viewed
variable {β : Type} {f : α → β} {stepM' : Expr → List β → Computation β}
  (natural : ∀ e parts, f <$> stepM e parts = stepM' e (parts.map f))
include natural

/-- A walk whose results are seen through a function that every step goes along with. -/
theorem map_foldM (e : Expr) : f <$> foldM stepM e = foldM stepM' e := by
  induction e using children_induction with
  | node e ih =>
    have seen (es : List Expr) (each : ∀ e ∈ es, f <$> foldM stepM e = foldM stepM' e) :
        List.map f <$> es.mapM (foldM stepM) = es.mapM (foldM stepM') := by
      induction es with
      | nil => rfl
      | cons e es rest =>
        rw [List.forall_mem_cons] at each
        simp only [List.mapM_cons, map_bind, map_pure, List.map_cons, ← each.1, ← rest each.2, bind_map_left]
    rw [foldM_eq, foldM_eq, map_bind, ← seen e.children ih, bind_map_left]
    simp only [natural]

end Viewed

/-- What every step keeps, whatever is in scope, the walk keeps. -/
theorem foldM_holds (J : Judgment) {P : Expr → Prop} {R : Expr → α → Prop}
    (part : ∀ {e}, P e → ∀ part ∈ e.children, P part)
    (node : ∀ {e parts}, P e → List.Forall₂ R e.children parts → J.Holds (stepM e parts) (R e)) {e : Expr}
    (holds : P e) : J.Holds (foldM stepM e) (R e) := by
  have step : ScopedStep J stepM (fun _ (i : Unit) => i) (fun _ => P) fun _ => R :=
    ⟨fun holds member inside => part holds member inside, fun holds related => node holds related⟩
  exact step.foldM (i := ()) e holds

theorem foldM_returns {R : Expr → α → Prop}
    (node : ∀ e parts, List.Forall₂ R e.children parts → Returns (stepM e parts) (R e)) (e : Expr) :
    Returns (foldM stepM e) (R e) :=
  foldM_holds .returns (P := fun _ => True) (R := R) (fun _ _ _ => trivial) (fun _ related => node _ _ related)
    trivial

end Walk

end ComputerAlgebra.Expr
