import ComputerAlgebra.Proofs.Exact.Functions
import ComputerAlgebra.Proofs.Expr.Measure
import ComputerAlgebra.Proofs.Scope.Reduction
import ComputerAlgebra.Proofs.Scope.Substitution

/-!
Expressions without floats. Their keys do not show the digits of the float unit, and neither does what
evaluation and simplification make of them: as long as the results are free of floats too, the unit is
not looked at, and a float comes up only after the unit has been set to the digits of the settings.
-/

namespace ComputerAlgebra

/-- The key of an exact number does not depend on the digits of the float unit. -/
theorem Number.keyText_exact {z : Number} (exact : z.Exact) (u v : FloatUnit) :
    z.keyText u = z.keyText v := by
  have part {x : RealNumber} (exact : x.Exact) : x.partText u = x.partText v := by
    cases x with
    | float => cases exact
    | rational | infinity | nan => rfl
  cases z with
  | real x =>
    cases x with
    | float => cases exact
    | rational | infinity | nan => rfl
  | complex re im =>
    have left : re.partText u = re.partText v := part (re_exact exact)
    have right : im.partText u = im.partText v := part (im_exact exact)
    rw [keyText, keyText, left, right]

namespace Expr

def FloatFree (e : Expr) : Prop := e.hasInexact = false

instance (e : Expr) : Decidable (FloatFree e) := inferInstanceAs (Decidable (e.hasInexact = false))

theorem floatFree_num {z : Number} : FloatFree (.num z) ↔ z.Exact := by
  simp [FloatFree, hasInexact, nodes_eq, children]

theorem floatFree_parts {e : Expr} (inner : ∀ z, e ≠ .num z) :
    FloatFree e ↔ ∀ part ∈ e.children, FloatFree part := by
  unfold FloatFree hasInexact
  rw [nodes_eq e, List.any_cons, List.any_flatMap]
  cases e with
  | num z => exact absurd rfl (inner z)
  | _ => simp

theorem floatFree_lam {p : String} {body : Expr} : FloatFree (.lam p body) ↔ FloatFree body := by
  have parameter : FloatFree (.var p) := by simp [floatFree_parts (e := .var p) (by simp), children]
  rw [floatFree_parts (by simp)]
  simp [children, parameter]

/-- Expressions without floats have one key for all digits of the float unit. -/
theorem FloatFree.key {e : Expr} (free : e.FloatFree) (u v : FloatUnit) :
    e.canonicalKey u = e.canonicalKey v := by
  unfold FloatFree hasInexact at free
  refine List.map_congr_left fun n member => ?_
  have exact := List.any_eq_false.mp free n member
  cases n with
  | num z => rw [leafText, leafText, Number.keyText_exact (by simpa using exact) u v]
  | _ => rfl

theorem floatFree_head {e : Expr} {h : Head} (headed : e.head? = some h) :
    FloatFree e ↔ ∀ part ∈ e.children, FloatFree part := by
  refine floatFree_parts ?_
  rintro z rfl
  cases headed

theorem floatFree_rename {p q : String} {e : Expr} : FloatFree e → FloatFree (rename p q e) := by
  induction e using children_induction with
  | node e ih =>
    intro free
    rcases shape e with ⟨z, rfl⟩ | ⟨b, rfl⟩ | ⟨x, rfl⟩ | ⟨r, body, rfl⟩ | ⟨h, headed⟩
    · exact free
    · exact free
    · rw [rename_var]
      split
      · exact (floatFree_parts (by simp)).mpr (by simp [children])
      · exact free
    · rw [rename_lam]
      split
      · exact free
      · exact floatFree_lam.mpr (ih body (by simp [children]) (floatFree_lam.mp free))
    · have size : (e.children.map (rename p q)).length = e.children.length := by simp
      obtain ⟨still, same⟩ := withChildren_head headed size
      rw [rename_head headed, floatFree_head still, same]
      intro part member
      obtain ⟨old, inside, rfl⟩ := List.mem_map.mp member
      exact ih old inside ((floatFree_head headed).mp free old inside)

theorem floatFree_substitute {x : String} {e v r : Expr} (free : FloatFree e) (value : FloatFree v)
    (result : e.substitute (.var x) v = .ok r) : FloatFree r := by
  have rules : SubstitutionRules x v fun e r => FloatFree e → FloatFree r :=
    { value := fun _ => value
      number := fun _ free => free
      truth := fun _ free => free
      other := fun _ free => free
      absent := fun _ free => free
      renamed := fun _ _ _ _ _ _ below free =>
        floatFree_lam.mpr (below (floatFree_rename (floatFree_lam.mp free)))
      under := fun _ _ below free => floatFree_lam.mpr (below (floatFree_lam.mp free))
      headed := by
        intro e h parts headed related free
        obtain ⟨still, same⟩ := withChildren_head headed related.length_eq.symm
        rw [floatFree_head still, same]
        exact forall_related related fun part member _ kept =>
          kept ((floatFree_head headed).mp free part member) }
  exact rules.substitute result free

theorem floatFree_compositional (c : Config) : Compositional .uniform c FloatFree where
  numeric := by
    have same : (fun z => FloatFree (.num z)) = Number.Exact := funext fun z => propext floatFree_num
    rw [same]
    exact .uniform c
  bool b := (floatFree_parts (by simp)).mpr (by simp [children])
  constant _ := (floatFree_parts (by simp)).mpr (by simp [children])
  parts headed := (floatFree_head headed).mp
  operation headed _ := (floatFree_head headed).mpr
  rebuilt _ headed _ := (floatFree_head headed).mpr
  reading {_ _ F} same next u v := by
    have alike : F v = F u := same v u fun e free => free.key v u
    change Agree _ (F u u) (F v v)
    rw [alike]
    exact next u u v

/-- Without floats nothing depends on the digits of the float unit: not on what is in scope, and not on
the names of parameters either. -/
theorem floatFree_scoping (c : Config) :
    Scoping .uniform c (fun (_ : Unit) => FloatFree) (fun _ => True) fun _ i => i where
  lenient := ⟨Uniform.throw⟩
  compositional _ := floatFree_compositional c
  parameter := (floatFree_parts (by simp)).mpr (by simp [children])
  lam := by
    intro _ p body
    rw [floatFree_lam, true_and]
  eta free _ := free
  reduced _ _ := Judgment.Lenient.lift ⟨Uniform.throw⟩ fun _ step => step
  beta function argument reduced := floatFree_substitute (floatFree_lam.mp function) argument reduced

end Expr
end ComputerAlgebra
