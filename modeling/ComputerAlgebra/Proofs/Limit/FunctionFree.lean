import ComputerAlgebra.Proofs.Limit.Refusal
import ComputerAlgebra.Proofs.Scope.Reduction
import ComputerAlgebra.Proofs.Termination.Descent

/-!
Evaluation and simplification without functions. No rule makes such an expression heavier or nests more
evaluations in it. Under settings that can be used it comes to a result unless a guard refuses: a tree with no
more levels than the expression has weight, or evaluations that it nests inside each other.
-/

namespace ComputerAlgebra.Expr

/-- There are no functions and no applications in the expression, and no number has a float of zero. -/
def FunctionFree (e : Expr) : Prop :=
  ∀ n ∈ e.nodes, match n with
    | .lam _ _ | .app _ _ => False
    | .num z => z.Regular
    | _ => True

theorem functionFree_num {z : Number} : FunctionFree (.num z) ↔ z.Regular := by
  simp [FunctionFree, nodes_eq, children]

theorem functionFree_lam {p : String} {body : Expr} : ¬ FunctionFree (.lam p body) :=
  fun free => free (.lam p body) (by rw [nodes_eq]; exact List.mem_cons_self)

theorem functionFree_head {e : Expr} {h : Head} (headed : e.head? = some h) :
    FunctionFree e ↔ h ≠ .app ∧ ∀ part ∈ e.children, FunctionFree part := by
  unfold FunctionFree
  rw [nodes_eq e, List.forall_mem_cons, List.forall_mem_flatMap]
  cases e with
  | num | var | bool | lam => cases headed
  | app => cases headed; simp
  | unary | binary | provided | piecewise | interval => cases headed; simp

namespace FunctionFree

theorem app {f : Expr} {args : List Expr} : ¬ FunctionFree (.app f args) :=
  fun free => ((functionFree_head rfl).mp free).1 rfl

theorem part {e part : Expr} (free : FunctionFree e) (member : part ∈ e.children) : FunctionFree part :=
  fun n inside => free n (nodes_part member inside)

theorem functions {e : Expr} (free : FunctionFree e) : e.functions = 0 := by
  induction e using children_induction with
  | node e ih =>
    have parts : (e.children.map Expr.functions).sum = 0 := by
      refine List.sum_eq_zero (List.forall_mem_map.mpr fun part member => ?_)
      exact ih part member (free.part member)
    rw [Expr.functions, tally_eq]
    change ownFunctions e + (e.children.map Expr.functions).sum = 0
    rw [parts]
    cases e with
    | lam => exact absurd free functionFree_lam
    | _ => rfl

end FunctionFree

theorem functionFree_compositional {c : Config} (complete : c.Complete) (R : Fault → Prop) :
    Compositional (.permitted R) c FunctionFree where
  numeric := by
    have same : (fun z => FunctionFree (.num z)) = Number.Regular := funext fun z => propext functionFree_num
    rw [same]
    exact .permitted complete
  bool b := by simp [FunctionFree, nodes_eq, children]
  constant _ := by simp [FunctionFree, nodes_eq, children]
  parts _ free _ member := free.part member
  operation headed known all := (functionFree_head headed).mpr ⟨(by rintro rfl; cases known), all⟩
  rebuilt headed headed' free all :=
    (functionFree_head headed').mpr ⟨((functionFree_head headed).mp free).1, all⟩
  reading _ next u := next u u

/-- What may become of an expression without functions: one that weighs no more and nests no more evaluations. -/
structure Lighter (e r : Expr) : Prop where
  fewer : r.functions ≤ e.functions
  lighter : r.weight ≤ e.weight
  shallower : r.nesting 1 ≤ e.nesting 1

theorem Within.lighter {e r : Expr} (within : Within 1 e r) : Lighter e r :=
  ⟨within.le functions_additive, within.le weight_additive, within.nested le_rfl⟩

theorem Lighter.trans {e r s : Expr} (first : Lighter e r) (second : Lighter r s) : Lighter e s :=
  ⟨second.fewer.trans first.fewer, second.lighter.trans first.lighter, second.shallower.trans first.shallower⟩

theorem lighter_rebuilt {e : Expr} {h : Head} {parts : List Expr} (headed : e.head? = some h)
    (becomes : List.Forall₂ (Becomes Lighter) e.children parts) : Lighter e (e.withChildren parts) where
  fewer := functions_additive.rebuilt_le headed (becomes.imp fun _ _ after => after.made.fewer)
  lighter := weight_additive.rebuilt_le headed (becomes.imp fun _ _ after => after.made.lighter)
  shallower := nesting_rebuilt headed (becomes.imp fun _ _ after => ⟨after.made.shallower, after.number⟩)

theorem lighter_descent (same : Expr → Expr → Prop) [DecidableRel same] :
    Descent same (fun e => e.functions = 0) Lighter weight where
  parameter free := by
    rw [functions_lam] at free
    omega
  parts free member := ⟨Nat.le_zero.mp (free ▸ functions_part member), weight_part member⟩
  kept free less := ⟨Nat.le_zero.mp (free ▸ less.fewer), less.lighter⟩
  trans := .trans
  within _ := Within.lighter
  node _ := lighter_rebuilt
  lam free := by
    rw [functions_lam] at free
    omega
  eta free := by
    rw [functions_lam] at free
    omega
  reduced {self f args r} free step := by
    rcases variant_reduceOnce?_cases step with ⟨name, rfl, known⟩ | taken
    · have small : Within 1 _ r := within_builtin? name args r known
      exact ⟨small.lighter, weight_builtin? known⟩
    · obtain ⟨p, body, -, -, -, rfl, -⟩ := beta?_cases taken
      rw [functions_additive.app, functions_lam] at free
      omega

theorem functionFree_sized : Sized FunctionFree weight where
  parts free := free.part
  smaller member := (weight_part member).le
  deep := depth_le_weight

namespace Ready

variable {shallow : Nat → Prop} {nested : Prop} {fuel : Nat} {e : Expr}

theorem carried {h : Head} (headed : e.head? = some h) : Carried FunctionFree e fun parts =>
    parts.length = e.children.length ∧ Ready FunctionFree weight shallow nested fuel (e.withChildren parts) where
  size invariant := invariant.1
  all {parts} invariant := by
    obtain ⟨still, same⟩ := withChildren_head headed invariant.1
    exact fun part member => invariant.2.kind.part (by rwa [same])
  bare {parts} invariant := by
    obtain ⟨size, ready⟩ := invariant
    have bare_size : (parts.map unconditioned).length = e.children.length := by simpa using size
    obtain ⟨still, same⟩ := withChildren_head headed size
    obtain ⟨still', same'⟩ := withChildren_head headed bare_size
    have within : Within 1 _ _ := Descent.within_bare headed size
    have less := within.lighter
    refine ⟨bare_size, ready.next ((functionFree_head still').mpr ⟨?_, ?_⟩) less.lighter less.shallower⟩
    · exact ((functionFree_head still).mp ready.kind).1
    · rw [same']
      refine List.forall_mem_map.mpr fun part member => ?_
      have free := ready.kind.part (same ▸ member)
      cases part with
      | provided a p => exact free.part List.mem_cons_self
      | _ => exact free

end Ready

section Walks
variable {c : Config} {shallow : Nat → Prop} {nested : Prop} {fuel : Nat} {e : Expr} {parts : List Expr}
  {evaluate again : Expr → Computation Expr}

structure Lightened (e r : Expr) : Prop where
  free : FunctionFree r
  becomes : Becomes Lighter e r

theorem Ready.rebuilt {h : Head} (ready : Ready FunctionFree weight shallow nested fuel e) (headed : e.head? = some h)
    (related : List.Forall₂ Lightened e.children parts) :
    parts.length = e.children.length ∧ Ready FunctionFree weight shallow nested fuel (e.withChildren parts) := by
  have size := related.length_eq.symm
  obtain ⟨still, same⟩ := withChildren_head headed size
  have less := lighter_rebuilt headed (related.imp fun _ _ after => after.becomes)
  refine ⟨size, ready.next ((functionFree_head still).mpr ⟨((functionFree_head headed).mp ready.kind).1, ?_⟩)
    less.lighter less.shallower⟩
  rw [same]
  exact forall_related related fun _ _ _ after => after.free

variable (complete : c.Complete)
include complete

/-- A node is refused by the guards only, when what it asks for is. -/
theorem evaluateNode_ready
    (deeper : ∀ e, Ready FunctionFree weight shallow nested fuel e →
      Permitted (Exceeds c shallow nested) (evaluate e) fun _ => True)
    (becomes : ∀ e, e.functions = 0 → Returns (evaluate e) (Lighter e))
    (ready : Ready FunctionFree weight shallow nested (fuel + 1) e)
    (related : List.Forall₂ Lightened e.children parts) :
    Permitted (Exceeds c shallow nested) (evaluateNode c evaluate e parts) (Lightened e) := by
  have comp := functionFree_compositional complete (Exceeds c shallow nested)
  have after := (lighter_descent (· = ·)).evaluateNode_becomes (c := c) becomes ready.kind.functions
    (related.imp fun _ _ after => after.becomes)
  have free : Permitted (Exceeds c shallow nested) (evaluateNode c evaluate e parts) FunctionFree := by
    rcases shape e with ⟨z, rfl⟩ | ⟨b, rfl⟩ | ⟨x, rfl⟩ | ⟨p, body, rfl⟩ | ⟨h, headed⟩
    · exact .pure ready.kind
    · exact .pure ready.kind
    · unfold evaluateNode
      refine (Judgment.permitted _).ite (fun constant => ?_) fun _ => .pure ready.kind
      exact (comp.numeric.constant constant).bind fun z known => .pure (comp.confine known comp.nan)
    · exact absurd ready.kind functionFree_lam
    · exact comp.evaluateNode (Ready.carried headed) headed ready.kind (Ready.asking functionFree_sized deeper)
        (fun parts invariant => invariant.2.asked functionFree_sized) (fun f args free => absurd free FunctionFree.app)
        (ready.rebuilt headed related)
  exact Permitted.mono (free.and after) fun _ both => ⟨both.1, both.2⟩

theorem evaluateWithin_ready (fuel : Nat) : ∀ {e : Expr}, Ready FunctionFree weight shallow nested fuel e →
    Permitted (Exceeds c shallow nested) (evaluateWithin c fuel e) (Lightened e) := by
  induction fuel with
  | zero => exact fun ready => .throw (.endless (ready.enough (Nat.zero_le _)))
  | succ fuel ih =>
    have becomes (e : Expr) (free : e.functions = 0) : Returns (evaluateWithin c fuel e) (Lighter e) :=
      ((lighter_descent (· = ·)).evaluateWithin_becomes fuel free).mono fun _ after => after.made
    have deeper (e : Expr) (ready : Ready FunctionFree weight shallow nested fuel e) :
        Permitted (Exceeds c shallow nested) (evaluateWithin c fuel e) fun _ => True :=
      Permitted.mono (ih ready) fun _ _ => trivial
    exact fun {e} => foldM_holds (.permitted _) (fun ready _ member => ready.part functionFree_sized member)
      (evaluateNode_ready complete deeper becomes)

theorem evaluate_asking :
    Asking (.permitted (Exceeds c shallow nested)) c (Expr.evaluate c)
      (Ready FunctionFree weight shallow nested allowance) :=
  Ready.asking functionFree_sized fun _ ready =>
    Permitted.mono (evaluateWithin_ready complete allowance ready) fun _ _ => trivial

theorem simplifyNode_ready {value : Computation Expr}
    (becomes : ∀ e, e.functions = 0 → Returns (again e) (Lighter e))
    (ready : Ready FunctionFree weight shallow nested allowance e)
    (valued : Permitted (Exceeds c shallow nested) value (Lightened e))
    (related : List.Forall₂ Lightened e.children parts) :
    Permitted (Exceeds c shallow nested) (simplifyNode c again e value parts) (Lightened e) := by
  have comp := functionFree_compositional complete (Exceeds c shallow nested)
  have after := (lighter_descent (· = ·)).simplifyNode_becomes (c := c) becomes ready.kind.functions
    (valued.returns.mono fun _ after => after.becomes) (related.imp fun _ _ after => after.becomes)
  have free : Permitted (Exceeds c shallow nested) (simplifyNode c again e value parts) FunctionFree := by
    rcases shape e with ⟨z, rfl⟩ | ⟨b, rfl⟩ | ⟨x, rfl⟩ | ⟨p, body, rfl⟩ | ⟨h, headed⟩
    · exact .pure ready.kind
    · exact .pure ready.kind
    · exact .pure ready.kind
    · exact absurd ready.kind functionFree_lam
    · exact comp.simplifyNode (Ready.carried headed) headed ready.kind (evaluate_asking complete)
        (fun parts invariant => invariant.2) (fun f args free => absurd free FunctionFree.app)
        (Permitted.mono valued fun _ _ => trivial) (ready.rebuilt headed related)
  exact Permitted.mono (free.and after) fun _ both => ⟨both.1, both.2⟩

/-- A pass of simplification is refused by the guards only. -/
theorem innerSimplified_ready (ready : Ready FunctionFree weight shallow nested allowance e) :
    Permitted (Exceeds c shallow nested) (innerSimplified c e) (Lightened e) := by
  refine ((evaluate_asking complete).checked ready).bind fun _ _ => ?_
  change Permitted _ (simplifyWithin c (999 + 1) e) _
  rw [simplifyWithin_foldM]
  have becomes (e : Expr) (free : e.functions = 0) : Returns (simplifyWithin c 999 e) (Lighter e) :=
    ((lighter_descent (· = ·)).simplifyWithin_becomes 999 free).mono fun _ after => after.made
  refine foldM_holds (.permitted _) (fun ready _ member => ready.part functionFree_sized member)
    (fun ready related => ?_) ready
  have more : Ready FunctionFree weight shallow nested (allowance + 1) _ :=
    ⟨ready.kind, ready.small, fun few => ready.enough (Nat.le_of_succ_le few)⟩
  exact simplifyNode_ready complete becomes ready (evaluateWithin_ready complete _ more) related

end Walks

end ComputerAlgebra.Expr
