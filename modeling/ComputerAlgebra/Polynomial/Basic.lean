import ComputerAlgebra.Expr.Order

/-!
Sparse polynomials with rational coefficients over expressions as atoms. A monomial lists its atoms
in the order of `Expr.cmp` with positive powers. A polynomial lists its monomials in the order in
which they first came up, each of them once and none with the coefficient zero.
-/

namespace ComputerAlgebra

abbrev Monomial := List (Expr × Nat)

namespace Monomial

def mul : Monomial → Monomial → Monomial
  | [], ys => ys
  | xs, [] => xs
  | (a, m) :: xs, (b, n) :: ys =>
    match a.cmp b with
    | .lt => (a, m) :: mul xs ((b, n) :: ys)
    | .gt => (b, n) :: mul ((a, m) :: xs) ys
    | .eq => (a, m + n) :: mul xs ys

def degree (m : Monomial) : Nat := m.foldr (·.2 + ·) 0

def cmp : Monomial → Monomial → Ordering
  | [], [] => .eq
  | [], _ :: _ => .lt
  | _ :: _, [] => .gt
  | (a, m) :: xs, (b, n) :: ys => ((a.cmp b).then (compare m n)).then (cmp xs ys)

end Monomial

abbrev Polynomial := List (Monomial × Rat)

namespace Polynomial

structure Placed where
  monomial : Monomial
  coefficient : Rat
  position : Nat

/-- Adds up neighbours with the same monomial; the sum keeps the first position. -/
def mergeRun (s : Placed) : List Placed → List Placed
  | [] => [s]
  | t :: rest =>
    if s.monomial.cmp t.monomial = .eq then
      mergeRun ⟨s.monomial, s.coefficient + t.coefficient, s.position⟩ rest
    else s :: mergeRun t rest

def mergeRuns : List Placed → List Placed
  | [] => []
  | s :: rest => mergeRun s rest

/-- Collects like terms. The terms are sorted to bring equal monomials together, and put back in the
order in which their monomials first came up. -/
def collect (terms : List (Monomial × Rat)) : Polynomial :=
  let placed := terms.mapIdx fun i (m, q) => (⟨m, q, i⟩ : Placed)
  let sorted := placed.mergeSort fun s t => s.monomial.cmp t.monomial != .gt
  let ordered := (mergeRuns sorted).mergeSort fun s t => s.position ≤ t.position
  (ordered.map fun t => (t.monomial, t.coefficient)).filter fun t => t.2 ≠ 0

def constant (q : Rat) : Polynomial := if q = 0 then [] else [([], q)]

def atom (e : Expr) : Polynomial := [([(e, 1)], 1)]

def add (p q : Polynomial) : Polynomial := collect (p ++ q)

def scale (k : Rat) (p : Polynomial) : Polynomial := p.map fun (m, q) => (m, k * q)

def products (p q : Polynomial) : List (Monomial × Rat) :=
  p.flatMap fun (m, a) => q.map fun (n, b) => (m.mul n, a * b)

/-- The largest count of terms; none when there is no bound. -/
abbrev Limit := Option TermBound

/-- The product; none when it is too large for the given count of terms. -/
def mul? (limit : Limit) (p q : Polynomial) : Option Polynomial :=
  if limit.any fun (l : TermBound) => l.square < (p.length * q.length : Nat) then none
  else
    let product := collect (products p q)
    if limit.any fun (l : TermBound) => l.count < product.length then none else some product

def powLoop? (limit : Limit) (result square : Polynomial) (n : Nat) : Option Polynomial :=
  if _h : n = 0 then some result
  else do
    let result ← if n % 2 = 1 then mul? limit result square else some result
    if n / 2 = 0 then return result
    else powLoop? limit result (← mul? limit square square) (n / 2)
termination_by n
decreasing_by omega

def pow? (limit : Limit) (p : Polynomial) (n : Nat) : Option Polynomial :=
  powLoop? limit (constant 1) p n

end Polynomial
end ComputerAlgebra
