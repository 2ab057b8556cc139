import ComputerAlgebra.Expr.Measure
import ComputerAlgebra.Proofs.Expr.Walk
import Mathlib.Algebra.Order.BigOperators.Group.List
import Mathlib.Algebra.Order.Field.Rat
import Mathlib.Algebra.Order.Ring.Cast

/-!
The nodes of an expression. What is asked of every node is asked of the root and throughout the parts.
-/

namespace ComputerAlgebra.Expr

private theorem foldr_parts (parts : List (List Expr → List Expr))
    (appends : ∀ f ∈ parts, ∀ tail, f tail = f [] ++ tail) (tail : List Expr) :
    parts.foldr (fun part tail => part tail) tail = parts.flatMap (· []) ++ tail := by
  induction parts with
  | nil => rfl
  | cons f parts ih =>
    rw [List.forall_mem_cons] at appends
    rw [List.foldr_cons, ih appends.2, appends.1, List.flatMap_cons, List.append_assoc]

private theorem nodes_onto (e : Expr) : ∀ tail,
    fold (fun e (parts : List (List Expr → List Expr)) tail =>
      e :: parts.foldr (fun part tail => part tail) tail) e tail = e.nodes ++ tail := by
  induction e using children_induction with
  | node e ih =>
    have appends : ∀ f ∈ e.children.map (fold fun e (parts : List (List Expr → List Expr)) tail =>
        e :: parts.foldr (fun part tail => part tail) tail), ∀ tail, f tail = f [] ++ tail := by
      intro f member tail
      obtain ⟨part, inside, rfl⟩ := List.mem_map.mp member
      rw [ih part inside tail]
      rfl
    intro tail
    rw [nodes, fold_eq, foldr_parts _ appends tail, foldr_parts _ appends []]
    simp

theorem nodes_eq (e : Expr) : e.nodes = e :: e.children.flatMap nodes := by
  have parts (es : List Expr) : (es.map (fold fun e (parts : List (List Expr → List Expr)) tail =>
      e :: parts.foldr (fun part tail => part tail) tail)).foldr (fun part tail => part tail) []
      = es.flatMap nodes := by
    induction es with
    | nil => rfl
    | cons e es ih => rw [List.map_cons, List.foldr_cons, ih, nodes_onto, List.flatMap_cons]
  rw [nodes, fold_eq, parts]

theorem nodes_root (e : Expr) : e ∈ e.nodes := by
  rw [nodes_eq]
  exact List.mem_cons_self

theorem nodes_part {e part n : Expr} (member : part ∈ e.children) (inside : n ∈ part.nodes) : n ∈ e.nodes := by
  rw [nodes_eq]
  exact List.mem_cons_of_mem _ (List.mem_flatMap.mpr ⟨part, member, inside⟩)

theorem nodes_trans {e n m : Expr} (inner : m ∈ n.nodes) (outer : n ∈ e.nodes) : m ∈ e.nodes := by
  induction e using children_induction with
  | node e ih =>
    rw [nodes_eq, List.mem_cons, List.mem_flatMap] at outer
    rcases outer with rfl | ⟨part, member, inside⟩
    · exact inner
    · exact nodes_part member (ih part member inside)

/-- What is no larger for the parts of a node is no larger for all nodes below it. -/
theorem nodes_le {size : Expr → Nat} (smaller : ∀ {e part : Expr}, part ∈ e.children → size part ≤ size e) {e n : Expr}
    (inside : n ∈ e.nodes) : size n ≤ size e := by
  induction e using children_induction with
  | node e ih =>
    rw [nodes_eq, List.mem_cons, List.mem_flatMap] at inside
    rcases inside with rfl | ⟨part, member, below⟩
    · exact le_rfl
    · exact (ih part member below).trans (smaller member)

def Throughout (Q : Expr → Prop) (e : Expr) : Prop := ∀ n ∈ e.nodes, Q n

instance (Q : Expr → Prop) [DecidablePred Q] : DecidablePred (Throughout Q) := fun e =>
  inferInstanceAs (Decidable (∀ n ∈ e.nodes, Q n))

theorem throughout_iff {Q : Expr → Prop} {e : Expr} :
    Throughout Q e ↔ Q e ∧ ∀ part ∈ e.children, Throughout Q part := by
  unfold Throughout
  rw [nodes_eq, List.forall_mem_cons]
  simp only [List.mem_flatMap, forall_exists_index, and_imp]
  refine and_congr_right fun _ => ?_
  exact ⟨fun all part member n => all n part member, fun all n part member => all part member n⟩

namespace Throughout
variable {Q : Expr → Prop} {e : Expr} (all : Throughout Q e)
include all

theorem root : Q e := all e (nodes_root e)

theorem part {part : Expr} (member : part ∈ e.children) : Throughout Q part :=
  fun n inside => all n (nodes_part member inside)

theorem within {n : Expr} (inside : n ∈ e.nodes) : Throughout Q n :=
  fun m inner => all m (nodes_trans inner inside)

theorem mono {Q' : Expr → Prop} (weaker : ∀ n, Q n → Q' n) : Throughout Q' e :=
  fun n inside => weaker n (all n inside)

end Throughout

end ComputerAlgebra.Expr

/-!
The count of the nodes of an expression, which is that of its parts and one more, and never below its depth.
-/

namespace ComputerAlgebra.Expr

theorem complexity_eq (e : Expr) : e.complexity = 1 + (e.children.map complexity).sum := by
  rw [complexity, fold_eq]
  rfl

theorem length_nodes (e : Expr) : e.nodes.length = e.complexity := by
  induction e using children_induction with
  | node e ih =>
    rw [nodes_eq, complexity_eq, List.length_cons, List.length_flatMap, List.map_congr_left ih, Nat.add_comm]

theorem complexity_pos (e : Expr) : 0 < e.complexity := by
  rw [complexity_eq]; omega

theorem complexity_child {e part : Expr} (member : part ∈ e.children) : part.complexity < e.complexity := by
  rw [complexity_eq e]
  have inside := List.single_le_sum (by simp) part.complexity (List.mem_map_of_mem (f := complexity) member)
  omega

@[simp] theorem complexity_num (z : Number) : (Expr.num z).complexity = 1 := rfl

@[simp] theorem complexity_unary (op : UnaryOp) (a : Expr) :
    (Expr.unary op a).complexity = 1 + a.complexity := by
  simp [complexity_eq (.unary op a), children]

@[simp] theorem complexity_binary (op : BinaryOp) (a b : Expr) :
    (Expr.binary op a b).complexity = 1 + (a.complexity + b.complexity) := by
  simp [complexity_eq (.binary op a b), children]

private theorem foldl_max_le_sum (ns : List Nat) : ∀ start : Nat, ns.foldl max start ≤ start + ns.sum := by
  induction ns with
  | nil => exact fun start => le_rfl
  | cons n ns ih =>
    intro start
    have rest := ih (max start n)
    rw [List.foldl_cons, List.sum_cons]
    omega

theorem depth_le_complexity (e : Expr) : e.depth ≤ e.complexity := by
  induction e using children_induction with
  | node e ih =>
    rw [depth_eq, complexity_eq]
    have deepest := foldl_max_le_sum (e.children.map depth) 0
    have parts : (e.children.map depth).sum ≤ (e.children.map complexity).sum :=
      List.sum_le_sum ih
    omega

end ComputerAlgebra.Expr

/-!
The limit on the depth of expressions. Whatever sort of literal the limit is, what is less deep than
an expression within it is within it too.
-/

namespace ComputerAlgebra.Expr

theorem order_finite_mono {x : BigFloat} {m n : Int} (le : m ≤ n)
    (below : x.order (.finite m) = .lt) : x.order (.finite n) = .lt := by
  cases x with
  | finite x =>
    rw [BigFloat.order] at below ⊢
    split at below
    · next less =>
      rw [← Dyadic.toRat_lt_toRat_iff, Dyadic.toRat_intCast] at less
      have wider : (m : ℚ) ≤ n := by exact_mod_cast le
      rw [if_pos]
      rw [← Dyadic.toRat_lt_toRat_iff, Dyadic.toRat_intCast]
      exact less.trans_le wider
    · split at below <;> cases below
  | infinity s => exact below
  | nan => cases below

theorem below?_mono {l : Literal} {m n : Int} (le : m ≤ n) (below : l.below? m = some true) :
    l.below? n = some true := by
  have whole {k : Int} (less : some (decide (k < m)) = some true) :
      some (decide (k < n)) = some true := by
    simp only [Option.some.injEq, decide_eq_true_iff] at less ⊢
    omega
  have inexact {x : BigFloat} (less : some (decide (x.order (.finite m) = .lt)) = some true) :
      some (decide (x.order (.finite n) = .lt)) = some true := by
    simp only [Option.some.injEq, decide_eq_true_iff] at less ⊢
    exact order_finite_mono le less
  cases l with
  | int k => exact whole below
  | bool b => exact whole below
  | fraction q =>
    change some (decide (q < (m : ℚ))) = some true at below
    change some (decide (q < (n : ℚ))) = some true
    simp only [Option.some.injEq, decide_eq_true_iff] at below ⊢
    exact below.trans_le (by exact_mod_cast le)
  | double x => exact inexact below
  | float x => exact inexact below
  | none | text | complexDouble | complexFloat | list => cases below

theorem isTooDeep_mono {c : Config} {m n : Nat} (le : m ≤ n) (deep : c.isTooDeep m = true) :
    c.isTooDeep n = true := by
  rw [Config.isTooDeep, decide_eq_true_iff] at deep ⊢
  exact below?_mono (by exact_mod_cast le) deep

theorem checkDepth_congr {c : Config} {e r : Expr} (same : r.depth = e.depth) :
    r.checkDepth c = e.checkDepth c := by
  rw [checkDepth, checkDepth, same]

/-- What is not deeper than an expression within the limit is within the limit. -/
theorem checkDepth_mono {c : Config} {e r : Expr} (shallow : e.checkDepth c = .ok ())
    (le : r.depth ≤ e.depth) : r.checkDepth c = .ok () := by
  rw [checkDepth] at shallow ⊢
  have within : c.isTooDeep e.depth = false := by
    cases deep : c.isTooDeep e.depth with
    | false => rfl
    | true => simp [deep] at shallow
  have inside : c.isTooDeep r.depth = false := by
    rw [Bool.eq_false_iff] at within ⊢
    exact fun deep => within (isTooDeep_mono le deep)
  simp [inside]

end ComputerAlgebra.Expr

/-!
How many evaluations an expression may nest inside each other. It is a depth in which only those places count
where a node asks for the value of a part on its own.
-/

namespace ComputerAlgebra.Expr

def isNatural (e : Expr) : Bool :=
  match e.integer? with
  | some n => decide (0 ≤ n)
  | none => false

theorem isNatural_number {e : Expr} (natural : e.isNatural = true) : ∃ z, e = .num z := by
  cases e with
  | num z => exact ⟨z, rfl⟩
  | _ => cases natural

theorem isNatural_whole (n : Nat) : (OfNat.ofNat n : Expr).isNatural = true := by
  have whole : (OfNat.ofNat n : Expr).integer? = some (n : Rat).num := by
    change (if (n : Rat).den = 1 then some (n : Rat).num else none) = _
    rw [if_pos (Rat.den_natCast n)]
  simp [isNatural, whole]

/-- How many evaluations may be nested inside each other on the way down an expression. A node asks for the values
of divisors and of the predicates of cases. A power may become a reciprocal unless its exponent is a natural number,
and counts for `inverse` of them. -/
def nesting (inverse : Nat) : Expr → Nat := fold fun e parts =>
  match e, parts with
  | .unary (.circular _) _, parts => parts.foldl max (inverse + 2)
  | .binary .div _ _, [a, b] => max a (b + 1)
  | .binary .pow _ m, [a, n] => max (a + if m.isNatural then 0 else inverse) n
  | .app _ _, parts => parts.foldl max 0 + (inverse + 2)
  | .piecewise _, parts => parts.foldl max 0 + 1
  | _, parts => parts.foldl max 0

section Nesting
variable {k : Nat}

@[simp] theorem nesting_num (z : Number) : (Expr.num z).nesting k = 0 := rfl

theorem nesting_whole (n : Nat) : (OfNat.ofNat n : Expr).nesting k = 0 := rfl

@[simp] theorem nesting_bool (b : Bool) : (Expr.bool b).nesting k = 0 := rfl

@[simp] theorem nesting_var (x : String) : (Expr.var x).nesting k = 0 := rfl

@[simp] theorem nesting_unary (op : UnaryOp) (a : Expr) :
    (Expr.unary op a).nesting k = max (match op with | .circular _ => k + 2 | _ => 0) (a.nesting k) := by
  cases op <;> rfl

@[simp] theorem nesting_binary (op : BinaryOp) (a b : Expr) : (Expr.binary op a b).nesting k
    = max (a.nesting k + if op = .pow ∧ b.isNatural = false then k else 0)
      (b.nesting k + if op = .div then 1 else 0) := by
  cases op with
  | pow => cases natural : b.isNatural <;> simp [nesting, fold, natural]
  | _ => simp [nesting, fold]

@[simp] theorem nesting_lam (p : String) (body : Expr) : (Expr.lam p body).nesting k = body.nesting k := by
  simp [nesting, fold]

@[simp] theorem nesting_provided (e p : Expr) :
    (Expr.provided e p).nesting k = max (e.nesting k) (p.nesting k) := by
  simp [nesting, fold]

@[simp] theorem nesting_interval (low high : Expr) :
    (Expr.interval low high).nesting k = max (low.nesting k) (high.nesting k) := by
  simp [nesting, fold]

theorem nesting_app (f : Expr) (args : List Expr) : (Expr.app f args).nesting k
    = ((f :: args).map (nesting k)).foldl max 0 + (k + 2) := by
  rw [nesting, fold_eq]
  rfl

theorem nesting_piecewise (cases : List (Expr × Expr)) : (Expr.piecewise cases).nesting k
    = ((Expr.piecewise cases).children.map (nesting k)).foldl max 0 + 1 := by
  rw [nesting, fold_eq]

theorem nesting_part {e part : Expr} (member : part ∈ e.children) : part.nesting k ≤ e.nesting k := by
  have deepest := (le_foldl_max (e.children.map (nesting k)) 0).2 _ (List.mem_map_of_mem member)
  cases e with
  | num | var | bool => cases member
  | unary op a =>
    rw [List.mem_singleton.mp member, nesting_unary]
    exact le_max_right _ _
  | binary | lam | provided | interval =>
    rcases List.mem_pair.mp member with rfl | rfl <;> simp
  | app f args =>
    rw [nesting_app]
    exact deepest.trans (Nat.le_add_right _ _)
  | piecewise cases =>
    rw [nesting_piecewise]
    exact deepest.trans (Nat.le_add_right _ _)

theorem nesting_case {cases : List (Expr × Expr)} {part : Expr} (member : part ∈ (Expr.piecewise cases).children) :
    part.nesting k < (Expr.piecewise cases).nesting k := by
  rw [nesting_piecewise]
  exact Nat.lt_succ_of_le ((le_foldl_max _ 0).2 _ (List.mem_map_of_mem member))

private theorem deepest_le {es rs : List Expr} (related : List.Forall₂ (fun e r => r.nesting k ≤ e.nesting k) es rs) :
    (rs.map (nesting k)).foldl max 0 ≤ (es.map (nesting k)).foldl max 0 := by
  refine (foldl_max_le_iff _ 0).mpr ⟨Nat.zero_le _, List.forall_mem_map.mpr ?_⟩
  exact forall_related related fun e member r lower =>
    lower.trans ((le_foldl_max _ 0).2 _ (List.mem_map_of_mem member))

/-- New parts that nest no more make a node that does not, where numbers stay what they are. -/
theorem nesting_rebuilt {e : Expr} {h : Head} {parts : List Expr} (headed : e.head? = some h)
    (related : List.Forall₂ (fun e r => r.nesting k ≤ e.nesting k ∧ ∀ z, e = .num z → r = .num z) e.children parts) :
    (e.withChildren parts).nesting k ≤ e.nesting k := by
  have lower := related.imp fun _ _ both => both.1
  have size := related.length_eq.symm
  cases e with
  | num | var | bool | lam => cases headed
  | unary op a =>
    obtain ⟨x, rfl⟩ := List.length_eq_one_iff.mp size
    simp only [children, List.forall₂_cons] at lower
    simp only [withChildren, nesting_unary]
    exact max_le_max_left _ lower.1
  | binary op a b =>
    obtain ⟨x, y, rfl⟩ := List.length_eq_two.mp size
    simp only [children, List.forall₂_cons] at related
    obtain ⟨⟨left, -⟩, ⟨right, same⟩, -⟩ := related
    -- An exponent that is a natural number is left in place.
    have exponent : (if op = .pow ∧ y.isNatural = false then k else 0) ≤ if op = .pow ∧ b.isNatural = false then k else 0 := by
      cases natural : b.isNatural with
      | false => split <;> simp_all
      | true =>
        obtain ⟨z, rfl⟩ := isNatural_number natural
        rw [same z rfl, natural]
    simp only [withChildren, nesting_binary]
    exact max_le_max (Nat.add_le_add left exponent) (Nat.add_le_add_right right _)
  | provided | interval =>
    obtain ⟨x, y, rfl⟩ := List.length_eq_two.mp size
    simp only [children, List.forall₂_cons] at lower
    simpa [withChildren] using max_le_max lower.1 lower.2.1
  | app f args =>
    cases parts with
    | nil => cases size
    | cons g rest =>
      rw [withChildren, nesting_app, nesting_app]
      exact Nat.add_le_add_right (deepest_le lower) _
  | piecewise cases =>
    have children := (withChildren_head headed size).2
    rw [withChildren] at children ⊢
    rw [nesting_piecewise, nesting_piecewise, children]
    exact Nat.add_le_add_right (deepest_le lower) 1

end Nesting

end ComputerAlgebra.Expr
