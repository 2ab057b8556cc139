import ComputerAlgebra.Expr.Substitution
import Mathlib.Data.List.Basic
import Mathlib.Data.List.Forall2

/-!
Expressions by their direct parts. A property that passes from the parts of a node to the node holds
of all expressions, and the depth, the names and the free variables of a node are those of its parts
put together. `Head` is what remains of a node that binds nothing when its parts are taken out.
-/

namespace ComputerAlgebra

/-- The sort of a node with parts that is no function. -/
inductive Head where
  | unary (op : UnaryOp)
  | binary (op : BinaryOp)
  | app
  | provided
  | piecewise
  | interval
deriving DecidableEq

def Head.isOperation : Head → Bool
  | .unary _ | .binary _ => true
  | _ => false

namespace Expr

def head? : Expr → Option Head
  | .unary op _ => some (.unary op)
  | .binary op _ _ => some (.binary op)
  | .app _ _ => some .app
  | .provided _ _ => some .provided
  | .piecewise _ => some .piecewise
  | .interval _ _ => some .interval
  | .num _ | .var _ | .bool _ | .lam _ _ => none

theorem le_foldl_max (ns : List Nat) :
    ∀ start : Nat, start ≤ ns.foldl max start ∧ ∀ n ∈ ns, n ≤ ns.foldl max start := by
  induction ns with
  | nil => intro start; simp
  | cons m ns ih =>
    intro start
    obtain ⟨above, all⟩ := ih (max start m)
    refine ⟨by simp only [List.foldl_cons]; omega, ?_⟩
    intro n member
    rcases List.mem_cons.mp member with rfl | inside
    · simp only [List.foldl_cons]; omega
    · exact all n inside

theorem foldl_max_le_iff {n : Nat} (ns : List Nat) :
    ∀ start : Nat, ns.foldl max start ≤ n ↔ start ≤ n ∧ ∀ m ∈ ns, m ≤ n := by
  induction ns with
  | nil => simp
  | cons m ns ih =>
    intro start
    simp only [List.foldl_cons, ih, List.forall_mem_cons, Nat.max_le, and_assoc]

theorem depth_eq (e : Expr) : e.depth = 1 + (e.children.map depth).foldl max 0 := by
  rw [depth, fold_eq]

theorem depth_pos (e : Expr) : 0 < e.depth := by
  rw [depth_eq]; omega

theorem depth_child {e part : Expr} (member : part ∈ e.children) : part.depth < e.depth := by
  rw [depth_eq e]
  have := (le_foldl_max (e.children.map depth) 0).2 part.depth (List.mem_map_of_mem member)
  omega

theorem depth_binary (op : BinaryOp) (a b : Expr) :
    (Expr.binary op a b).depth = 1 + max a.depth b.depth := by
  simp [depth_eq (.binary op a b), children]

/-- What passes from the parts of a node to the node holds everywhere. -/
theorem children_induction {P : Expr → Prop} (node : ∀ e, (∀ part ∈ e.children, P part) → P e)
    (e : Expr) : P e := by
  induction size : e.depth using Nat.strongRecOn generalizing e with
  | _ n ih =>
    apply node
    intro part member
    exact ih part.depth (size ▸ depth_child member) part rfl

/-- A node is a leaf, a function, or the parts under a head. -/
theorem shape (e : Expr) :
    (∃ z, e = .num z) ∨ (∃ b, e = .bool b) ∨ (∃ x, e = .var x) ∨
      (∃ p body, e = .lam p body) ∨ ∃ h, e.head? = some h := by
  cases e <;> simp [head?]

private theorem flatMap_pairUp (parts : List Expr) :
    parts.length % 2 = 0 → (pairUp parts).flatMap (fun (e, p) => [e, p]) = parts := by
  induction parts using pairUp.induct with
  | case1 e p rest ih =>
    intro even
    have rest_even : rest.length % 2 = 0 := by
      simp only [List.length_cons] at even
      omega
    simpa [pairUp] using ih rest_even
  | case2 parts short =>
    intro even
    match parts, short with
    | [], _ => rfl
    | [_], _ => simp at even
    | e :: p :: rest, short => exact absurd rfl (short e p rest)

private theorem length_flatMap_pair (cases : List (Expr × Expr)) :
    (cases.flatMap fun (e, p) => [e, p]).length = 2 * cases.length := by
  induction cases with
  | nil => rfl
  | cons c cases ih =>
    rw [List.flatMap_cons, List.length_append, ih, List.length_cons, List.length_cons,
      List.length_cons, List.length_nil]
    omega

/-- Parts in the number of the old ones are the parts of the new node, and its head stays. -/
theorem withChildren_head {e : Expr} {h : Head} (headed : e.head? = some h) {parts : List Expr}
    (size : parts.length = e.children.length) :
    (e.withChildren parts).head? = some h ∧ (e.withChildren parts).children = parts := by
  cases e with
  | num | var | bool | lam => simp [head?] at headed
  | unary op a =>
    obtain ⟨x, rfl⟩ := List.length_eq_one_iff.mp size
    exact ⟨headed, rfl⟩
  | binary op a b =>
    obtain ⟨x, y, rfl⟩ := List.length_eq_two.mp size
    exact ⟨headed, rfl⟩
  | app f args =>
    cases parts with
    | nil => simp [children] at size
    | cons g rest => exact ⟨headed, rfl⟩
  | provided a p =>
    obtain ⟨x, y, rfl⟩ := List.length_eq_two.mp size
    exact ⟨headed, rfl⟩
  | piecewise cases =>
    refine ⟨headed, flatMap_pairUp parts ?_⟩
    rw [size, children, length_flatMap_pair]
    omega
  | interval low high =>
    obtain ⟨x, y, rfl⟩ := List.length_eq_two.mp size
    exact ⟨headed, rfl⟩

theorem withChildren_withChildren {e : Expr} {h : Head} (headed : e.head? = some h) {parts parts' : List Expr}
    (size : parts.length = e.children.length) (size' : parts'.length = e.children.length) :
    (e.withChildren parts).withChildren parts' = e.withChildren parts' := by
  cases e with
  | num | var | bool | lam => cases headed
  | unary op a =>
    obtain ⟨x, rfl⟩ := List.length_eq_one_iff.mp size
    obtain ⟨y, rfl⟩ := List.length_eq_one_iff.mp size'
    rfl
  | binary | provided | interval =>
    obtain ⟨x, y, rfl⟩ := List.length_eq_two.mp size
    obtain ⟨x', y', rfl⟩ := List.length_eq_two.mp size'
    rfl
  | app f args =>
    cases parts with
    | nil => cases size
    | cons g rest =>
      cases parts' with
      | nil => cases size'
      | cons => rfl
  | piecewise cases => rfl

theorem mem_join {y : String} {xs ys : List String} : y ∈ join xs ys ↔ y ∈ xs ∨ y ∈ ys := by
  simp only [join, List.mem_append, List.mem_filter, List.contains_eq_mem, Bool.not_eq_true',
    decide_eq_false_iff_not]
  tauto

private theorem mem_foldl_join {y : String} (parts : List (List String)) :
    ∀ start, y ∈ parts.foldl join start ↔ y ∈ start ∨ ∃ part ∈ parts, y ∈ part := by
  induction parts with
  | nil => intro start; simp
  | cons part parts ih =>
    intro start
    simp only [List.foldl_cons, ih, mem_join, List.mem_cons, exists_eq_or_imp]
    tauto

private theorem names_of_parts {e : Expr} (inner : ∀ x, e ≠ .var x) :
    e.names = (e.children.map names).foldl join [] := by
  rw [names, fold_eq]
  split
  · next x => exact absurd rfl (inner x)
  · rfl

@[simp] theorem names_var (x : String) : (Expr.var x).names = [x] := rfl

theorem mem_names {e : Expr} (inner : ∀ x, e ≠ .var x) {y : String} :
    y ∈ e.names ↔ ∃ part ∈ e.children, y ∈ part.names := by
  rw [names_of_parts inner, mem_foldl_join]
  simp

theorem names_child {e part : Expr} (member : part ∈ e.children) {y : String}
    (named : y ∈ part.names) : y ∈ e.names := by
  have inner : ∀ x, e ≠ .var x := by
    rintro x rfl
    simp [children] at member
  exact (mem_names inner).mpr ⟨part, member, named⟩

@[simp] theorem mem_names_lam {p y : String} {body : Expr} :
    y ∈ (Expr.lam p body).names ↔ y = p ∨ y ∈ body.names := by
  rw [mem_names (by simp)]
  simp [children]

@[simp] theorem mem_freeVars_var {x y : String} :
    y ∈ (Expr.var x).freeVars ↔ y = x ∧ isConstantName x = false := by
  rw [freeVars, fold_eq]
  cases constant : isConstantName x <;> simp [constant]

theorem mem_freeVars_lam {p y : String} {body : Expr} :
    y ∈ (Expr.lam p body).freeVars ↔ y ∈ body.freeVars ∧ y ≠ p := by
  rw [show (Expr.lam p body).freeVars = ([(Expr.var p).freeVars, body.freeVars].foldl join []).filter
    (· ≠ p) by rw [freeVars, fold_eq]; rfl]
  simp only [List.mem_filter, mem_foldl_join, decide_eq_true_eq, List.mem_cons, exists_eq_or_imp,
    mem_freeVars_var]
  simp
  tauto

theorem mem_freeVars_head {e : Expr} {h : Head} (headed : e.head? = some h) {y : String} :
    y ∈ e.freeVars ↔ ∃ part ∈ e.children, y ∈ part.freeVars := by
  have parts : e.freeVars = (e.children.map freeVars).foldl join [] := by
    rw [freeVars, fold_eq]
    cases e <;> simp_all [head?]
  rw [parts, mem_foldl_join]
  simp

theorem freeVars_named {e : Expr} : ∀ {y}, y ∈ e.freeVars → y ∈ e.names := by
  induction e using children_induction with
  | node e ih =>
    intro y free
    rcases shape e with ⟨z, rfl⟩ | ⟨b, rfl⟩ | ⟨x, rfl⟩ | ⟨p, body, rfl⟩ | ⟨h, headed⟩
    · simp [freeVars, fold] at free
    · simp [freeVars, fold] at free
    · simp [(mem_freeVars_var.mp free).1]
    · have inside := (mem_freeVars_lam.mp free).1
      exact mem_names_lam.mpr (.inr (ih body (by simp [children]) inside))
    · obtain ⟨part, member, inside⟩ := (mem_freeVars_head headed).mp free
      exact names_child member (ih part member inside)

theorem freeVars_variable {e : Expr} : ∀ {y}, y ∈ e.freeVars → isConstantName y = false := by
  induction e using children_induction with
  | node e ih =>
    intro y free
    rcases shape e with ⟨z, rfl⟩ | ⟨b, rfl⟩ | ⟨x, rfl⟩ | ⟨p, body, rfl⟩ | ⟨h, headed⟩
    · simp [freeVars, fold] at free
    · simp [freeVars, fold] at free
    · obtain ⟨rfl, plain⟩ := mem_freeVars_var.mp free
      exact plain
    · exact ih body (by simp [children]) (mem_freeVars_lam.mp free).1
    · obtain ⟨part, member, inside⟩ := (mem_freeVars_head headed).mp free
      exact ih part member inside

end Expr
end ComputerAlgebra
