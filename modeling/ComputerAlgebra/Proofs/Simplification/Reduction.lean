import ComputerAlgebra.Proofs.Expr.Walk
import ComputerAlgebra.Simplification.Basic

/-!
One pass of simplification apart from the rules. A relation between expressions and what stands in
their place holds of the pass when it holds of the value of each node and of its simplified form. The
tables in which the pass keeps the values of nodes do not show in its outcome.
-/

namespace ComputerAlgebra.Expr

section Untabulated
variable {c : Config} {again : Expr → Computation Expr}

/-- What the pass finds for a node, with the value as it is computed and not from a table. -/
def Reduced.untabulated (r : Reduced) : Computation Expr × Expr := (r.value.run, r.simplified)

def reducePlainNode (c : Config) (again : Expr → Computation Expr) (self : Expr)
    (parts : List (Computation Expr × Expr)) : Computation (Computation Expr × Expr) := do
  let value := do evaluateNode c (evaluate c) self (← parts.mapM (·.1))
  return (value, ← simplifyNode c again self value (parts.map (·.2)))

theorem reduceNode_untabulated (e : Expr) (parts : List Reduced) :
    Reduced.untabulated <$> reduceNode c again e parts
      = reducePlainNode c again e (parts.map Reduced.untabulated) := by
  unfold reduceNode reducePlainNode
  simp only [map_bind, map_pure, Reduced.untabulated, Tabulated.run_of, List.mapM_map, List.map_map,
    Function.comp_def]
  rfl

theorem simplifyWithin_untabulated (fuel : Nat) (e : Expr) :
    simplifyWithin c (fuel + 1) e
      = Prod.snd <$> foldM (reducePlainNode c (simplifyWithin c fuel)) e := by
  rw [← map_foldM reduceNode_untabulated, simplifyWithin, Functor.map_map, bind_pure_comp]
  rfl

/-- What the pass finds for the parts of a node, with their values apart from what takes their place. -/
private theorem mapM_apart {F : Expr → Computation (Computation Expr × Expr)} {G V : Expr → Computation Expr}
    {β : Type} (es : List Expr) (each : ∀ e ∈ es, F e = (fun r => (V e, r)) <$> G e) :
    ∀ g : Computation (List Expr) → List Expr → Computation β,
      (es.mapM F >>= fun parts => g (parts.mapM (·.1)) (parts.map (·.2))) = es.mapM G >>= g (es.mapM V) := by
  induction es with
  | nil => exact fun g => rfl
  | cons e es ih =>
    intro g
    rw [List.forall_mem_cons] at each
    have rest := fun r => ih each.2 fun values simplified => g (do return (← V e) :: (← values)) (r :: simplified)
    simp only [List.mapM_cons, each.1, map_eq_pure_bind, bind_assoc, pure_bind, List.map_cons]
    congr 1
    funext r
    simpa only [List.mapM_cons] using rest r

/-- The pass is a walk in which every node knows its value, found with one more reduction that may be nested. -/
theorem simplifyWithin_foldM (fuel : Nat) (e : Expr) :
    simplifyWithin c (fuel + 1) e
      = foldM (fun e => simplifyNode c (simplifyWithin c fuel) e (evaluateWithin c (allowance + 1) e)) e := by
  let G := foldM fun e => simplifyNode c (simplifyWithin c fuel) e (evaluateWithin c (allowance + 1) e)
  have walk (e : Expr) : foldM (reducePlainNode c (simplifyWithin c fuel)) e
      = (fun r => (evaluateWithin c (allowance + 1) e, r)) <$> G e := by
    induction e using children_induction with
    | node e ih =>
      have value : evaluateWithin c (allowance + 1) e
          = e.children.mapM (evaluateWithin c (allowance + 1)) >>= evaluateNode c (evaluate c) e := foldM_eq e
      have apart := mapM_apart e.children ih fun values simplified => do
        let value := values >>= evaluateNode c (evaluate c) e
        return (value, ← simplifyNode c (simplifyWithin c fuel) e value simplified)
      rw [foldM_eq]
      refine apart.trans ?_
      simp only [← value]
      rw [show G e = _ from foldM_eq e, map_bind]
      simp only [map_eq_pure_bind]
      rfl
  rw [simplifyWithin_untabulated, walk, Functor.map_map]
  exact id_map' (G e)

end Untabulated

section Scoped
variable {ι : Type} {J : Judgment} {c : Config} {below : String → ι → ι} {P : ι → Expr → Prop}
  {R : ι → Expr → Expr → Prop}

/-- A relation that the evaluation of a node and its simplification keep, in the scope of the node, when
the simplification of what an application reduces to keeps it. -/
structure KeptByReduction (J : Judgment) (c : Config) (below : String → ι → ι) (P : ι → Expr → Prop)
    (R : ι → Expr → Expr → Prop) : Prop where
  lenient : J.Lenient
  parts : ∀ {i e}, P i e → ∀ part ∈ e.children, P (inside below i e) part
  evaluated : ∀ {i e parts}, P i e → List.Forall₂ (R (inside below i e)) e.children parts →
    J.Holds (evaluateNode c (evaluate c) e parts) (R i e)
  simplified : ∀ {again i e value parts}, (∀ i e, P i e → J.Holds (again e) (R i e)) → P i e →
    J.Holds value (R i e) → List.Forall₂ (R (inside below i e)) e.children parts →
    J.Holds (simplifyNode c again e value parts) (R i e)

namespace KeptByReduction
variable (kept : KeptByReduction J c below P R)
include kept

theorem reducePlainNode {again : Expr → Computation Expr}
    (deeper : ∀ i e, P i e → J.Holds (again e) (R i e)) :
    ScopedStep J (reducePlainNode c again) below P
      fun i e (r : Computation Expr × Expr) => J.Holds r.1 (R i e) ∧ R i e r.2 := by
  refine ⟨kept.parts, fun {i e parts} holds found => ?_⟩
  have values : J.Holds (parts.mapM (·.1)) (List.Forall₂ (R (inside below i e)) e.children) :=
    J.mapM (found.imp fun _ _ both => both.1)
  have evaluated : J.Holds (do evaluateNode c (evaluate c) e (← parts.mapM (·.1))) (R i e) :=
    J.bind values fun _ related => kept.evaluated holds related
  have simplified : List.Forall₂ (R (inside below i e)) e.children (parts.map (·.2)) := by
    rw [List.forall₂_map_right_iff]
    exact found.imp fun _ _ both => both.2
  exact J.bind (kept.simplified deeper holds evaluated simplified) fun _ related =>
    J.pure ⟨evaluated, related⟩

theorem simplifyWithin (fuel : Nat) : ∀ i e, P i e → J.Holds (simplifyWithin c fuel e) (R i e) := by
  induction fuel with
  | zero => exact fun _ _ _ => kept.lenient.throw
  | succ fuel ih =>
    intro i e holds
    rw [simplifyWithin_untabulated]
    exact J.map (J.mono ((kept.reducePlainNode ih).foldM e holds) fun _ found => found.2)

theorem innerSimplified {i : ι} {e : Expr} (holds : P i e) :
    J.Holds (innerSimplified c e) (R i e) :=
  J.bind (kept.lenient.checked) fun _ _ => kept.simplifyWithin allowance i e holds

end KeptByReduction

end Scoped

structure KeptByNodes (c : Config) (R : Expr → Expr → Prop) : Prop where
  evaluated : ∀ e parts, List.Forall₂ R e.children parts →
    Returns (evaluateNode c (evaluate c) e parts) (R e)
  simplified : ∀ again e value parts, Returns value (R e) → List.Forall₂ R e.children parts →
    Returns (simplifyNode c again e value parts) (R e)

theorem KeptByNodes.innerSimplified {c : Config} {R : Expr → Expr → Prop} (kept : KeptByNodes c R)
    (e : Expr) : Returns (innerSimplified c e) (R e) := by
  have keptByReduction :
      KeptByReduction .returns c (fun _ (i : Unit) => i) (fun _ _ => True) fun _ => R :=
    { lenient := ⟨Returns.throw⟩
      parts := fun _ _ _ => trivial
      evaluated := fun _ related => kept.evaluated _ _ related
      simplified := fun _ _ value related => kept.simplified _ _ _ _ value related }
  exact keptByReduction.innerSimplified (i := ()) trivial

end ComputerAlgebra.Expr
