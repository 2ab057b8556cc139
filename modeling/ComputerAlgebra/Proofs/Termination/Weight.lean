import ComputerAlgebra.Proofs.Expr.Measure
import ComputerAlgebra.Proofs.Scope.Substitution
import Mathlib.Algebra.Order.BigOperators.Group.List
import Mathlib.Algebra.Order.Group.Nat
import Mathlib.Algebra.Order.Ring.Nat

/-!
Counts over the nodes of an expression: its weight, its functions, the functions among the arguments of
applications, and the free occurrences of a name. They add up over the parts of a node, and the weight is
set so that no rule of evaluation or simplification adds to it. Substitution adds to them what the value has,
once for each free occurrence that is replaced.
-/

namespace ComputerAlgebra

/-- What a node without a parameter weighs by itself. A circular function weighs as much as the exact values
that it may become, and an application more than any built-in function. -/
def Head.weight : Head → Nat
  | .app => 12
  | .unary (.circular _) => 10
  | _ => 1

theorem Head.weight_pos (h : Head) : 1 ≤ h.weight := by
  unfold weight
  split <;> omega

namespace Expr

def tally (own : Expr → Nat) : Expr → Nat := fold fun e parts => own e + parts.sum

theorem tally_eq (own : Expr → Nat) (e : Expr) :
    tally own e = own e + (e.children.map (tally own)).sum := by
  rw [tally, fold_eq]

theorem tally_head {own : Expr → Nat} {e : Expr} {h : Head} {parts : List Expr}
    (headed : e.head? = some h) (size : parts.length = e.children.length) :
    tally own (e.withChildren parts) = own (e.withChildren parts) + (parts.map (tally own)).sum := by
  rw [tally_eq, (withChildren_head headed size).2]

theorem tally_lam (own : Expr → Nat) (p : String) (body : Expr) :
    tally own (.lam p body) = own (.lam p body) + (own (.var p) + tally own body) := by
  rw [tally_eq]
  simp [children, tally_eq own (.var p)]

def ownWeight (e : Expr) : Nat :=
  match e.head? with
  | some h => h.weight
  | none => 1

def weight : Expr → Nat := tally ownWeight

def ownFunctions : Expr → Nat
  | .lam _ _ => 1
  | _ => 0

def functions : Expr → Nat := tally ownFunctions

def argumentFunctions : Expr → Nat
  | .app _ args => (args.map functions).sum
  | _ => 0

theorem argumentFunctions_other {e : Expr} (other : e.head? ≠ some .app) : e.argumentFunctions = 0 := by
  cases e <;> first | rfl | exact absurd rfl other

/-- The functions that are passed as arguments or inside of them, for each application that passes them. -/
def passed : Expr → Nat := tally argumentFunctions

def occurrences (x : String) : Expr → Nat :=
  fold fun e parts => match e with
    | .var y => if y = x then 1 else 0
    | .lam p _ => if p = x then 0 else parts.sum
    | _ => parts.sum

def ownExcess : Expr → Nat
  | .lam p body => body.occurrences p - 1
  | _ => 0

/-- The occurrences of parameters beyond the first one in each function. -/
def excess : Expr → Nat := tally ownExcess

def ownConstants : Expr → Nat
  | .lam p _ => if isConstantName p then 1 else 0
  | _ => 0

def constantParameters : Expr → Nat := tally ownConstants

section Occurrences
variable {x y : String}

theorem occurrences_var : (Expr.var y).occurrences x = if y = x then 1 else 0 := by
  rw [occurrences, fold_eq]

theorem occurrences_head {e : Expr} {h : Head} (headed : e.head? = some h) :
    e.occurrences x = (e.children.map (occurrences x)).sum := by
  rw [occurrences, fold_eq]
  cases e <;> first | rfl | cases headed

theorem occurrences_lam_self (body : Expr) : (Expr.lam x body).occurrences x = 0 := by
  rw [occurrences, fold_eq]
  simp

theorem occurrences_lam {p : String} (other : p ≠ x) (body : Expr) :
    (Expr.lam p body).occurrences x = body.occurrences x := by
  rw [occurrences, fold_eq]
  simp only [if_neg other, children, List.map_cons, List.map_nil, List.sum_cons, List.sum_nil]
  rw [show fold _ (Expr.var p) = (Expr.var p).occurrences x from rfl, occurrences_var, if_neg other]
  simp

theorem occurrences_absent {e : Expr} (absent : x ∉ e.names) : e.occurrences x = 0 := by
  induction e using children_induction with
  | node e ih =>
    rcases shape e with ⟨z, rfl⟩ | ⟨b, rfl⟩ | ⟨y, rfl⟩ | ⟨p, body, rfl⟩ | ⟨h, headed⟩
    · rfl
    · rfl
    · rw [occurrences_var, if_neg]
      rintro rfl
      simp at absent
    · rw [mem_names_lam, not_or] at absent
      rw [occurrences_lam (Ne.symm absent.1)]
      exact ih body (by simp [children]) absent.2
    · rw [occurrences_head headed]
      refine List.sum_eq_zero fun n member => ?_
      obtain ⟨part, inside, rfl⟩ := List.mem_map.mp member
      exact ih part inside fun named => absent (names_child inside named)

theorem occurrences_bound {e : Expr} (plain : isConstantName x = false) (bound : x ∉ e.freeVars) :
    e.occurrences x = 0 := by
  induction e using children_induction with
  | node e ih =>
    rcases shape e with ⟨z, rfl⟩ | ⟨b, rfl⟩ | ⟨y, rfl⟩ | ⟨p, body, rfl⟩ | ⟨h, headed⟩
    · rfl
    · rfl
    · rw [occurrences_var, if_neg]
      rintro rfl
      exact bound (mem_freeVars_var.mpr ⟨rfl, plain⟩)
    · by_cases same : p = x
      · rw [same, occurrences_lam_self]
      · rw [occurrences_lam same]
        exact ih body (by simp [children]) fun free => bound (mem_freeVars_lam.mpr ⟨free, Ne.symm same⟩)
    · rw [occurrences_head headed]
      refine List.sum_eq_zero fun n member => ?_
      obtain ⟨part, inside, rfl⟩ := List.mem_map.mp member
      exact ih part inside fun free => bound ((mem_freeVars_head headed).mpr ⟨part, inside, free⟩)

end Occurrences

/-- A count that comes to `k` for every number, truth value and constant, to no less for anything, and that
adds up over the parts of a node without a parameter. Arguments that are functions may cost `m` more each. -/
structure Additive (k m : Nat) (count : Expr → Nat) : Prop where
  num : ∀ z, count (.num z) = k
  bool : ∀ b, count (.bool b) = k
  constant : ∀ {x}, isConstantName x = true → count (.var x) = k
  least : ∀ e, k ≤ count e
  head : ∀ {e h}, e.head? = some h →
    count e = k * h.weight + m * e.argumentFunctions + (e.children.map count).sum

theorem Additive.part_le {k m : Nat} {count : Expr → Nat} (additive : Additive k m count) {e part : Expr}
    {h : Head} (headed : e.head? = some h) (member : part ∈ e.children) : count part ≤ count e := by
  rw [additive.head headed]
  exact Nat.le_add_left_of_le (List.le_sum_of_mem (List.mem_map_of_mem member))

section Counting
variable {k m : Nat} {count : Expr → Nat} (additive : Additive k m count)
include additive

theorem Additive.whole (n : Nat) : count (OfNat.ofNat n : Expr) = k := additive.num _

theorem Additive.unary (op : UnaryOp) (a : Expr) :
    count (.unary op a) = k * (Head.unary op).weight + count a := by
  simp [additive.head (e := Expr.unary op a) rfl, argumentFunctions, children]

theorem Additive.binary (op : BinaryOp) (a b : Expr) :
    count (.binary op a b) = k + (count a + count b) := by
  simp [additive.head (e := .binary op a b) rfl, argumentFunctions, children, Head.weight]

theorem Additive.provided (e p : Expr) : count (.provided e p) = k + (count e + count p) := by
  simp [additive.head (e := .provided e p) rfl, argumentFunctions, children, Head.weight]

theorem Additive.app (f : Expr) (args : List Expr) : count (.app f args)
    = k * 12 + m * (args.map functions).sum + (count f + (args.map count).sum) := by
  simp [additive.head (e := .app f args) rfl, argumentFunctions, children, Head.weight]

theorem Additive.piecewise (cases : List (Expr × Expr)) :
    count (.piecewise cases) = k + (cases.map fun s => count s.1 + count s.2).sum := by
  rw [additive.head (e := .piecewise cases) rfl]
  simp only [argumentFunctions, Head.weight, children, Nat.mul_one, Nat.mul_zero, Nat.add_zero]
  congr 1
  induction cases with
  | nil => rfl
  | cons s cases ih => simp [ih, Nat.add_assoc]

/-- An application to no arguments that are left comes to no more than one to some. -/
theorem Additive.applied_le (s : Expr) (rest : List Expr) :
    count (if rest.isEmpty then s else .app s rest)
      ≤ k * 12 + m * (rest.map functions).sum + (count s + (rest.map count).sum) := by
  split
  · omega
  · rw [additive.app]

end Counting

private theorem sum_le {count : Expr → Nat} {es rs : List Expr}
    (related : List.Forall₂ (fun e r => count r ≤ count e) es rs) :
    (rs.map count).sum ≤ (es.map count).sum := by
  induction related with
  | nil => exact le_refl _
  | cons first _ ih => exact Nat.add_le_add first ih

/-- New parts that come to no more make a node that does not. -/
theorem Additive.rebuilt_le {k : Nat} {count : Expr → Nat} (additive : Additive k 0 count) {e : Expr} {h : Head}
    {parts : List Expr} (headed : e.head? = some h)
    (related : List.Forall₂ (fun e r => count r ≤ count e) e.children parts) :
    count (e.withChildren parts) ≤ count e := by
  obtain ⟨still, new⟩ := withChildren_head headed related.length_eq.symm
  have := sum_le related
  rw [additive.head still, additive.head headed, new]
  omega

section Counts

private theorem additive_tally {k m : Nat} {own : Expr → Nat} (num : ∀ z, own (.num z) = k)
    (bool : ∀ b, own (.bool b) = k) (var : ∀ x, own (.var x) = k) (least : ∀ e, k ≤ own e)
    (head : ∀ {e h}, e.head? = some h → own e = k * h.weight + m * e.argumentFunctions) :
    Additive k m (tally own) where
  num z := by rw [tally_eq, num]; rfl
  bool b := by rw [tally_eq, bool]; rfl
  constant _ := by rw [tally_eq, var]; rfl
  least e := by
    rw [tally_eq]
    exact Nat.le_add_right_of_le (least e)
  head headed := by rw [tally_eq, head headed]

theorem ownWeight_pos (e : Expr) : 1 ≤ e.ownWeight := by
  unfold ownWeight
  split
  · exact Head.weight_pos _
  · exact le_rfl

theorem weight_additive : Additive 1 0 weight :=
  additive_tally (fun _ => rfl) (fun _ => rfl) (fun _ => rfl) ownWeight_pos
    (fun {e h} headed => by simp [ownWeight, headed])

theorem functions_additive : Additive 0 0 functions :=
  additive_tally (fun _ => rfl) (fun _ => rfl) (fun _ => rfl) (fun _ => Nat.zero_le _)
    (fun {e h} headed => by cases e <;> first | cases headed; done | simp [ownFunctions])

theorem passed_additive : Additive 0 1 passed :=
  additive_tally (fun _ => rfl) (fun _ => rfl) (fun _ => rfl) (fun _ => Nat.zero_le _)
    (fun {e h} _ => by simp)

theorem excess_additive : Additive 0 0 excess :=
  additive_tally (fun _ => rfl) (fun _ => rfl) (fun _ => rfl) (fun _ => Nat.zero_le _)
    (fun {e h} headed => by cases e <;> first | cases headed; done | simp [ownExcess])

theorem constantParameters_additive : Additive 0 0 constantParameters :=
  additive_tally (fun _ => rfl) (fun _ => rfl) (fun _ => rfl) (fun _ => Nat.zero_le _)
    (fun {e h} headed => by cases e <;> first | cases headed; done | simp [ownConstants])

theorem occurrences_additive {x : String} (plain : isConstantName x = false) :
    Additive 0 0 (occurrences x) where
  num _ := rfl
  bool _ := rfl
  constant {y} constant := by
    rw [occurrences_var, if_neg]
    rintro rfl
    rw [plain] at constant
    cases constant
  least _ := Nat.zero_le _
  head headed := by rw [occurrences_head headed]; simp

theorem weight_lam (p : String) (body : Expr) : (Expr.lam p body).weight = 2 + body.weight := by
  rw [weight, tally_lam]
  simp only [ownWeight, head?]
  omega

theorem functions_lam (p : String) (body : Expr) : (Expr.lam p body).functions = 1 + body.functions := by
  rw [functions, tally_lam]
  simp [ownFunctions]

theorem excess_lam (p : String) (body : Expr) :
    (Expr.lam p body).excess = body.occurrences p - 1 + body.excess := by
  rw [excess, tally_lam]
  simp [ownExcess]

theorem passed_lam (p : String) (body : Expr) : (Expr.lam p body).passed = body.passed := by
  rw [passed, tally_lam]
  simp [argumentFunctions]

theorem weight_pos (e : Expr) : 1 ≤ e.weight := weight_additive.least e

theorem weight_part {e part : Expr} (member : part ∈ e.children) : part.weight < e.weight := by
  rcases shape e with ⟨z, rfl⟩ | ⟨b, rfl⟩ | ⟨x, rfl⟩ | ⟨p, body, rfl⟩ | ⟨h, headed⟩
  · cases member
  · cases member
  · cases member
  · rw [weight_lam]
    simp only [children, List.mem_cons, List.not_mem_nil, or_false] at member
    rcases member with rfl | rfl
    · have := weight_pos body
      rw [show (Expr.var p).weight = 1 from rfl]
      omega
    · omega
  · rw [weight_additive.head headed]
    have := Head.weight_pos h
    have := List.le_sum_of_mem (List.mem_map_of_mem (f := weight) member)
    omega

/-- Weights count every node. -/
theorem complexity_le_weight (e : Expr) : e.complexity ≤ e.weight := by
  induction e using children_induction with
  | node e ih =>
    rw [complexity_eq, weight, tally_eq]
    exact Nat.add_le_add (ownWeight_pos e) (List.sum_le_sum ih)

theorem depth_le_weight (e : Expr) : e.depth ≤ e.weight := (depth_le_complexity e).trans (complexity_le_weight e)

theorem functions_part {e part : Expr} (member : part ∈ e.children) : part.functions ≤ e.functions := by
  rw [functions, tally_eq ownFunctions e]
  exact Nat.le_add_left_of_le (List.le_sum_of_mem (List.mem_map_of_mem member))

theorem constantParameters_lam {p : String} {body : Expr} :
    (Expr.lam p body).constantParameters = 0 ↔ isConstantName p = false ∧ body.constantParameters = 0 := by
  rw [constantParameters, tally_lam]
  simp [ownConstants]

end Counts

end Expr
end ComputerAlgebra
