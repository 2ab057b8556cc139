import ComputerAlgebra.Proofs.Expr.Walk

/-!
Passes apart from their rules: sorting rearranges, the first rule that applies is taken, and a pass over
a tree is its function on nodes, the parameters of functions excepted.
-/

namespace ComputerAlgebra.Expr

theorem sortByKey_perm {α : Type} (u : FloatUnit) (expr : α → Expr) (items : List α) :
    (sortByKey u expr items).Perm items := by
  unfold sortByKey
  have sorted := (List.mergeSort_perm (items.map fun x => ((expr x).canonicalKey u, x))
    fun s t => keyOrder s.1 t.1 != .gt).map (·.2)
  simpa [List.map_map, Function.comp_def] using sorted

theorem sortByKey_congr {α : Type} {u v : FloatUnit} {expr : α → Expr} {items : List α}
    (same : ∀ x ∈ items, (expr x).canonicalKey u = (expr x).canonicalKey v) :
    sortByKey u expr items = sortByKey v expr items := by
  have keyed : items.map (fun x => ((expr x).canonicalKey u, x))
      = items.map fun x => ((expr x).canonicalKey v, x) :=
    List.map_congr_left fun x member => by rw [same x member]
  rw [sortByKey, sortByKey, keyed]

theorem exactNumber?_eq {e : Expr} {z : Number} (found : e.exactNumber? = some z) :
    e = .num z := by
  unfold exactNumber? at found
  split at found
  · simp only [Option.ite_none_right_eq_some] at found
    rw [Option.some.inj found.2]
  · cases found

theorem negated?_eq_some {a x : Expr} : negated? a = some x ↔ a = .unary .not x := by
  unfold negated?
  split
  · simp
  · next other =>
    constructor
    · intro found
      cases found
    · exact fun same => (other x same).elim

/-- The first rule that applies is taken, and the node stays when none does. -/
theorem firstOf_holds (J : Judgment) {P : Expr → Prop} {rule : Computation (Option Expr)}
    {others : Computation Expr} (kept : J.Holds rule fun r => ∀ e, r = some e → P e)
    (rest : J.Holds others P) :
    J.Holds (do
      if let some r ← rule then return r
      others) P := by
  refine J.bind kept ?_
  intro r holds
  cases r with
  | some r => exact J.pure (holds r rfl)
  | none => exact rest

theorem firstOf_returns {P : Expr → Prop} {rule : Computation (Option Expr)}
    {others : Computation Expr} (kept : Returns rule fun r => ∀ e, r = some e → P e)
    (rest : Returns others P) :
    Returns (do
      if let some r ← rule then return r
      others) P :=
  firstOf_holds .returns kept rest

section Replacement
variable {ι : Type} {J : Judgment} {below : String → ι → ι} {P : ι → Expr → Prop}

/-- What the function on nodes keeps at each sort of node, in every scope, a pass keeps. -/
theorem replaceM_holds {f : Expr → Computation Expr}
    (parts : ∀ {i e}, P i e → ∀ part ∈ e.children, P (inside below i e) part)
    (atNode : ∀ {i e}, P i e → J.Holds (f e) (P i))
    (lam : ∀ {i p body body'}, P i (.lam p body) → P (below p i) body' → P i (.lam p body'))
    (headed : ∀ {i e h parts}, P i e → e.head? = some h → parts.length = e.children.length →
      (∀ part ∈ parts, P i part) → P i (e.withChildren parts)) {i : ι} {e : Expr} (holds : P i e) :
    J.Holds (replaceM f e) (P i) := by
  refine ScopedStep.foldM (P := P) (R := fun i _ r => P i r) ⟨parts, ?_⟩ e holds
  intro i e parts holds related
  have size : parts.length = e.children.length := related.length_eq.symm
  have all := forall_related related fun _ _ _ kept => kept
  rcases shape e with ⟨z, rfl⟩ | ⟨b, rfl⟩ | ⟨x, rfl⟩ | ⟨p, body, rfl⟩ | ⟨h, isHead⟩
  · exact atNode holds
  · exact atNode holds
  · exact atNode holds
  · obtain ⟨x, body', rfl⟩ := List.length_eq_two.mp size
    exact atNode (lam holds (all body' (by simp)))
  · rw [inside_head isHead] at all
    split
    · cases isHead
    · cases isHead
    · exact atNode (headed holds isHead size all)

end Replacement

end ComputerAlgebra.Expr
