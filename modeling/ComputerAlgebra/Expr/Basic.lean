import ComputerAlgebra.Number.Order

/-!
Expression trees. `children` lists the direct parts of a node and `withChildren` puts new ones in
their place; `fold` and `foldM` work a tree from the leaves up and give each node the results of its
parts. Equality of trees is decidable.
-/

namespace ComputerAlgebra

inductive Circular where
  | sin | cos | tan | cotan | sec | cosec
  | arcsin | arccos | arctan | arccotan | arcsec | arccosec
deriving DecidableEq

inductive UnaryOp where
  | factorial | phi | signum | abs
  | circular (f : Circular)
  | not
deriving DecidableEq

inductive BinaryOp where
  | sum | minus | mul | div | pow | log
  | and | or | xor | implies | equals
  | order (test : Comparison)
  | mem
deriving DecidableEq

inductive Expr where
  | num (z : Number)
  | var (name : String)
  | bool (b : Bool)
  | unary (op : UnaryOp) (a : Expr)
  | binary (op : BinaryOp) (a b : Expr)
  | lam (parameter : String) (body : Expr)
  | app (head : Expr) (arguments : List Expr)
  /-- An expression that is undefined where the predicate fails. -/
  | provided (expression predicate : Expr)
  /-- The expression of the first case whose predicate holds. -/
  | piecewise (cases : List (Expr × Expr))
  | interval (low high : Expr)

namespace Expr

instance : Inhabited Expr := ⟨.num 0⟩
instance (n : Nat) : OfNat Expr n := ⟨.num (.real (.rational n))⟩

/-- The direct parts of a node in order; the parameter of a function is one of them. -/
def children : Expr → List Expr
  | .num _ | .var _ | .bool _ => []
  | .unary _ a => [a]
  | .binary _ a b => [a, b]
  | .lam p body => [.var p, body]
  | .app f args => f :: args
  | .provided e p => [e, p]
  | .piecewise cases => cases.flatMap fun (e, p) => [e, p]
  | .interval low high => [low, high]

/-- Pairs the elements of a list by twos; an odd one at the end is dropped. -/
def pairUp : List Expr → List (Expr × Expr)
  | e :: p :: rest => (e, p) :: pairUp rest
  | _ => []

/-- The node with its direct parts replaced. A list that does not fit leaves it unchanged. -/
def withChildren : Expr → List Expr → Expr
  | .unary op _, [a] => .unary op a
  | .binary op _ _, [a, b] => .binary op a b
  | .lam _ _, [.var p, body] => .lam p body
  | .app _ _, f :: args => .app f args
  | .provided _ _, [e, p] => .provided e p
  | .piecewise _, parts => .piecewise (pairUp parts)
  | .interval _ _, [low, high] => .interval low high
  | e, _ => e

section Fold
variable {α : Type} (step : Expr → List α → α) (stepM : Expr → List α → Computation α)

mutual
/-- The result of `step` at the root, given the results at the direct parts. -/
def fold : Expr → α
  | .num z => step (.num z) []
  | .var x => step (.var x) []
  | .bool b => step (.bool b) []
  | .unary op a => step (.unary op a) [fold a]
  | .binary op a b => step (.binary op a b) [fold a, fold b]
  | .lam p body => step (.lam p body) [step (.var p) [], fold body]
  | .app f args => step (.app f args) (fold f :: foldList args)
  | .provided e p => step (.provided e p) [fold e, fold p]
  | .piecewise cases => step (.piecewise cases) (foldCases cases)
  | .interval low high => step (.interval low high) [fold low, fold high]
def foldList : List Expr → List α
  | [] => []
  | e :: rest => fold e :: foldList rest
def foldCases : List (Expr × Expr) → List α
  | [] => []
  | (e, p) :: rest => fold e :: fold p :: foldCases rest
end

mutual
/-- Like `fold`, from left to right; the first fault ends the work. -/
def foldM : Expr → Computation α
  | .num z => stepM (.num z) []
  | .var x => stepM (.var x) []
  | .bool b => stepM (.bool b) []
  | .unary op a => do stepM (.unary op a) [← foldM a]
  | .binary op a b => do
    let x ← foldM a
    let y ← foldM b
    stepM (.binary op a b) [x, y]
  | .lam p body => do
    let x ← stepM (.var p) []
    let y ← foldM body
    stepM (.lam p body) [x, y]
  | .app f args => do
    let x ← foldM f
    let xs ← foldListM args
    stepM (.app f args) (x :: xs)
  | .provided e p => do
    let x ← foldM e
    let y ← foldM p
    stepM (.provided e p) [x, y]
  | .piecewise cases => do stepM (.piecewise cases) (← foldCasesM cases)
  | .interval low high => do
    let x ← foldM low
    let y ← foldM high
    stepM (.interval low high) [x, y]
def foldListM : List Expr → Computation (List α)
  | [] => return []
  | e :: rest => do
    let x ← foldM e
    let xs ← foldListM rest
    return x :: xs
def foldCasesM : List (Expr × Expr) → Computation (List α)
  | [] => return []
  | (e, p) :: rest => do
    let x ← foldM e
    let y ← foldM p
    let xs ← foldCasesM rest
    return x :: y :: xs
end

theorem foldList_eq_map (es : List Expr) : foldList step es = es.map (fold step) := by
  induction es with
  | nil => rfl
  | cons e es ih => simp [foldList, ih]

theorem foldCases_eq_map (cases : List (Expr × Expr)) :
    foldCases step cases = (cases.flatMap fun (e, p) => [e, p]).map (fold step) := by
  induction cases with
  | nil => rfl
  | cons c cases ih => obtain ⟨e, p⟩ := c; simp [foldCases, ih]

theorem fold_eq (e : Expr) : fold step e = step e (e.children.map (fold step)) := by
  cases e <;> simp [fold, children, foldList_eq_map, foldCases_eq_map]

end Fold

mutual
def beq : Expr → Expr → Bool
  | .num z, .num w => z = w
  | .var x, .var y => x = y
  | .bool b, .bool c => b = c
  | .unary op a, .unary op' a' => op = op' && beq a a'
  | .binary op a b, .binary op' a' b' => op = op' && beq a a' && beq b b'
  | .lam p body, .lam p' body' => p = p' && beq body body'
  | .app f args, .app f' args' => beq f f' && beqList args args'
  | .provided e p, .provided e' p' => beq e e' && beq p p'
  | .piecewise cases, .piecewise cases' => beqCases cases cases'
  | .interval low high, .interval low' high' => beq low low' && beq high high'
  | _, _ => false
def beqList : List Expr → List Expr → Bool
  | [], [] => true
  | e :: rest, e' :: rest' => beq e e' && beqList rest rest'
  | _, _ => false
def beqCases : List (Expr × Expr) → List (Expr × Expr) → Bool
  | [], [] => true
  | (e, p) :: rest, (e', p') :: rest' => beq e e' && beq p p' && beqCases rest rest'
  | _, _ => false
end

mutual
theorem beq_refl : ∀ e : Expr, beq e e = true
  | .num _ | .var _ | .bool _ => by simp [beq]
  | .unary _ a => by simp [beq, beq_refl a]
  | .binary _ a b => by simp [beq, beq_refl a, beq_refl b]
  | .lam _ body => by simp [beq, beq_refl body]
  | .app f args => by simp [beq, beq_refl f, beqList_refl args]
  | .provided e p => by simp [beq, beq_refl e, beq_refl p]
  | .piecewise cases => by simp [beq, beqCases_refl cases]
  | .interval low high => by simp [beq, beq_refl low, beq_refl high]
theorem beqList_refl : ∀ es : List Expr, beqList es es = true
  | [] => rfl
  | e :: rest => by simp [beqList, beq_refl e, beqList_refl rest]
theorem beqCases_refl : ∀ cases : List (Expr × Expr), beqCases cases cases = true
  | [] => rfl
  | (e, p) :: rest => by simp [beqCases, beq_refl e, beq_refl p, beqCases_refl rest]
end

mutual
theorem eq_of_beq : ∀ {e e' : Expr}, beq e e' = true → e = e'
  | .num _, e', h | .var _, e', h | .bool _, e', h => by cases e' <;> simp_all [beq]
  | .unary _ a, e', h => by
    cases e' <;> simp only [beq, Bool.and_eq_true, decide_eq_true_eq, Bool.false_eq_true] at h
    rw [h.1, eq_of_beq h.2]
  | .binary _ a b, e', h => by
    cases e' <;> simp only [beq, Bool.and_eq_true, decide_eq_true_eq, Bool.false_eq_true] at h
    rw [h.1.1, eq_of_beq h.1.2, eq_of_beq h.2]
  | .lam _ body, e', h => by
    cases e' <;> simp only [beq, Bool.and_eq_true, decide_eq_true_eq, Bool.false_eq_true] at h
    rw [h.1, eq_of_beq h.2]
  | .app f args, e', h => by
    cases e' <;> simp only [beq, Bool.and_eq_true, Bool.false_eq_true] at h
    rw [eq_of_beq h.1, eq_of_beqList h.2]
  | .provided e p, e', h => by
    cases e' <;> simp only [beq, Bool.and_eq_true, Bool.false_eq_true] at h
    rw [eq_of_beq h.1, eq_of_beq h.2]
  | .piecewise cases, e', h => by
    cases e' <;> simp only [beq, Bool.false_eq_true] at h
    rw [eq_of_beqCases h]
  | .interval low high, e', h => by
    cases e' <;> simp only [beq, Bool.and_eq_true, Bool.false_eq_true] at h
    rw [eq_of_beq h.1, eq_of_beq h.2]
theorem eq_of_beqList : ∀ {es es' : List Expr}, beqList es es' = true → es = es'
  | [], es', h => by cases es' <;> simp_all [beqList]
  | e :: rest, es', h => by
    cases es' <;> simp only [beqList, Bool.and_eq_true, Bool.false_eq_true] at h
    rw [eq_of_beq h.1, eq_of_beqList h.2]
theorem eq_of_beqCases : ∀ {cs cs' : List (Expr × Expr)}, beqCases cs cs' = true → cs = cs'
  | [], cs', h => by cases cs' <;> simp_all [beqCases]
  | (e, p) :: rest, cs', h => by
    cases cs' with
    | nil => simp [beqCases] at h
    | cons c cs' =>
      obtain ⟨e', p'⟩ := c
      simp only [beqCases, Bool.and_eq_true] at h
      rw [eq_of_beq h.1.1, eq_of_beq h.1.2, eq_of_beqCases h.2]
end

theorem beq_iff_eq {e e' : Expr} : beq e e' = true ↔ e = e' :=
  ⟨eq_of_beq, fun h => h ▸ beq_refl e⟩

instance : DecidableEq Expr := fun _ _ => decidable_of_iff _ beq_iff_eq

end Expr
end ComputerAlgebra
