import ComputerAlgebra.Proofs.Expr.Assignment
import ComputerAlgebra.Proofs.Rational.Evaluation

/-!
Assigning fractions to the variables of a rational expression: what comes out is a rational expression
in the other variables, and its value is the value of the expression at the assignment.
-/

namespace ComputerAlgebra.Expr

variable {c : Config} {ρ : Assignment}

theorem names_assigned {e : Expr} : ∀ {v : Rat}, valueAt? ρ e = some v →
    ∀ y ∈ e.names, (ρ y).isSome = true := by
  induction e using children_induction with
  | node e ih =>
    intro v value y named
    cases e with
    | num => simp [names, fold] at named
    | var x =>
      rw [names_var, List.mem_singleton] at named
      simp [named, (valueAt?_var.mp value).2]
    | binary op a b =>
      obtain ⟨⟨x, left⟩, z, right⟩ := value_operands value
      obtain ⟨part, member, inside⟩ := (mem_names (by simp)).mp named
      rcases List.mem_pair.mp member with rfl | rfl
      · exact ih _ member left y inside
      · exact ih _ member right y inside
    | bool | unary | lam | app | provided | piecewise | interval => simp [valueAt?] at value

section Assigning

/-- The second expression is the first with a fraction put for a variable. -/
structure Assigned (x : String) (q : Rat) (e r : Expr) : Prop where
  rational : IsRational r
  names : ∀ y ∈ r.names, y ∈ e.names ∧ y ≠ x
  value : ∀ ρ, valueAt? ρ r = valueAt? (Function.update ρ x (some q)) e

variable {x : String} {q : Rat}

private theorem walk_binary {op : BinaryOp} {a b a' b' : Expr} {depth : Nat}
    (left : substituteWithin (.var x) (.num (.ofRat q)) [] depth a = .ok a')
    (right : substituteWithin (.var x) (.num (.ofRat q)) [] depth b = .ok b') :
    substituteWithin (.var x) (.num (.ofRat q)) [] (depth + 1) (.binary op a b) =
      .ok (.binary op a' b') := by
  rw [substituteWithin_head (h := .binary op) rfl]
  simp only [children, List.mapM_cons, List.mapM_nil, left, right]
  rfl

private theorem assigned_names {op : BinaryOp} {a b a' b' : Expr} (left : Assigned x q a a')
    (right : Assigned x q b b') :
    ∀ y ∈ (Expr.binary op a' b').names, y ∈ (Expr.binary op a b).names ∧ y ≠ x := by
  intro y named
  obtain ⟨part, member, inside⟩ := (mem_names (by simp)).mp named
  rcases List.mem_pair.mp member with rfl | rfl
  · obtain ⟨old, other⟩ := left.names y inside
    have child : a ∈ (Expr.binary op a b).children := by simp [children]
    exact ⟨names_child child old, other⟩
  · obtain ⟨old, other⟩ := right.names y inside
    have child : b ∈ (Expr.binary op a b).children := by simp [children]
    exact ⟨names_child child old, other⟩

theorem assigned_num (z : Rat) : Assigned x q (.num (.ofRat z)) (.num (.ofRat z)) :=
  ⟨.num z, fun y named => by simp [names, fold] at named, fun _ => rfl⟩

private theorem walk_num (z : Number) (depth : Nat) :
    substituteWithin (.var x) (.num (.ofRat q)) [] depth (.num z) = .ok (.num z) := by
  cases depth with
  | zero => rfl
  | succ depth => simp [substituteWithin, children, withChildren]; rfl

/-- What is shown of every rational expression, whatever bound on the depth the walk starts with. -/
private def Walks (x : String) (q : Rat) (e : Expr) : Prop :=
  ∀ depth : Nat, e.depth ≤ depth →
    ∃ r, substituteWithin (.var x) (.num (.ofRat q)) [] depth e = .ok r ∧ Assigned x q e r

private theorem walks_num (z : Rat) : Walks x q (.num (.ofRat z)) :=
  fun depth _ => ⟨_, walk_num _ depth, assigned_num z⟩

private theorem walks_var {y : String} (plain : isConstantName y = false) : Walks x q (.var y) := by
  intro depth low
  obtain ⟨depth, rfl⟩ : ∃ d, depth = d + 1 := ⟨depth - 1, by have := depth_pos (.var y); omega⟩
  by_cases same : y = x
  · subst same
    refine ⟨.num (.ofRat q), by simp [substituteWithin], .num q, ?_, ?_⟩
    · intro z named
      simp [names, fold] at named
    · intro ρ
      simp [valueAt?, plain]
      rfl
  · refine ⟨.var y, by simp [substituteWithin, children, withChildren, same]; rfl, .var plain, ?_, ?_⟩
    · intro z named
      rw [names_var, List.mem_singleton] at named
      rw [named]
      exact ⟨by simp, same⟩
    · intro ρ
      simp [valueAt?, same]

private theorem walks_operands {op : BinaryOp} {a b : Expr} (left : Walks x q a)
    (right : Walks x q b) {depth : Nat} (low : (Expr.binary op a b).depth ≤ depth) :
    ∃ a' b', substituteWithin (.var x) (.num (.ofRat q)) [] depth (.binary op a b) =
      .ok (.binary op a' b') ∧ Assigned x q a a' ∧ Assigned x q b b' := by
  have first : a.depth < (Expr.binary op a b).depth := depth_child (by simp [children])
  have second : b.depth < (Expr.binary op a b).depth := depth_child (by simp [children])
  obtain ⟨depth, rfl⟩ : ∃ d, depth = d + 1 := ⟨depth - 1, by omega⟩
  obtain ⟨a', walka, assigneda⟩ := left depth (by omega)
  obtain ⟨b', walkb, assignedb⟩ := right depth (by omega)
  exact ⟨a', b', walk_binary walka walkb, assigneda, assignedb⟩

private theorem walks {e : Expr} (rational : IsRational e) : Walks x q e := by
  induction rational with
  | num z => exact walks_num z
  | var plain => exact walks_var plain
  | sum _ _ iha ihb =>
    intro depth low
    obtain ⟨a', b', walk, left, right⟩ := walks_operands iha ihb low
    refine ⟨_, walk, .sum left.rational right.rational, assigned_names left right, fun ρ => ?_⟩
    simp only [valueAt?, left.value, right.value]
  | minus _ _ iha ihb =>
    intro depth low
    obtain ⟨a', b', walk, left, right⟩ := walks_operands iha ihb low
    refine ⟨_, walk, .minus left.rational right.rational, assigned_names left right, fun ρ => ?_⟩
    simp only [valueAt?, left.value, right.value]
  | mul _ _ iha ihb =>
    intro depth low
    obtain ⟨a', b', walk, left, right⟩ := walks_operands iha ihb low
    refine ⟨_, walk, .mul left.rational right.rational, assigned_names left right, fun ρ => ?_⟩
    simp only [valueAt?, left.value, right.value]
  | div _ _ iha ihb =>
    intro depth low
    obtain ⟨a', b', walk, left, right⟩ := walks_operands iha ihb low
    refine ⟨_, walk, .div left.rational right.rational, assigned_names left right, fun ρ => ?_⟩
    simp only [valueAt?, left.value, right.value]
  | @pow a _ n ih =>
    intro depth low
    have smaller : a.depth < (Expr.binary .pow a (.num (.ofInt n))).depth :=
      depth_child (by simp [children])
    obtain ⟨depth, rfl⟩ : ∃ d, depth = d + 1 := ⟨depth - 1, by omega⟩
    obtain ⟨a', walk, left⟩ := ih depth (by omega)
    refine ⟨_, walk_binary walk (walk_num _ _), .pow left.rational n,
      assigned_names left (assigned_num n), fun ρ => ?_⟩
    simp only [valueAt?, left.value]

theorem substitute_rational {e : Expr} (rational : IsRational e) (x : String) (q : Rat) :
    ∃ r, e.substitute (.var x) (.num (.ofRat q)) = .ok r ∧ Assigned x q e r :=
  walks rational e.depth (le_refl e.depth)

def assign (s : List (String × Rat)) (e : Expr) : Except Fault Expr :=
  s.foldlM (fun e (x, q) => e.substitute (.var x) (.num (.ofRat q))) e

/-- The assignment that a list of fractions for variables stands for; the first one for a variable
counts. -/
def Assignment.ofList (s : List (String × Rat)) : Assignment := fun x => s.lookup x

theorem assign_rational (s : List (String × Rat)) : ∀ {e : Expr}, IsRational e →
    ∃ r, e.assign s = .ok r ∧ IsRational r ∧
      (∀ y ∈ r.names, y ∈ e.names ∧ y ∉ s.map Prod.fst) ∧
      valueAt? (fun _ => none) r = valueAt? (Assignment.ofList s) e := by
  induction s with
  | nil =>
    intro e rational
    exact ⟨e, rfl, rational, fun y named => ⟨named, by simp⟩, rfl⟩
  | cons pair s ih =>
    obtain ⟨x, q⟩ := pair
    intro e rational
    obtain ⟨r, substituted, assigned⟩ := substitute_rational rational x q
    obtain ⟨r', rest, rational', names, value⟩ := ih assigned.rational
    refine ⟨r', ?_, rational', ?_, ?_⟩
    · change (e.substitute (.var x) (.num (.ofRat q)) >>= fun e => e.assign s) = _
      rw [substituted]
      exact rest
    · intro y named
      obtain ⟨inside, unassigned⟩ := names y named
      obtain ⟨old, other⟩ := assigned.names y inside
      exact ⟨old, by simpa [other] using unassigned⟩
    · rw [value, assigned.value]
      congr 1
      funext y
      by_cases same : y = x
      · simp [Assignment.ofList, same]
      · have different : (y == x) = false := by simpa using same
        simp [Assignment.ofList, same, List.lookup_cons, different]

theorem assign_depth {s : List (String × Rat)} {e t : Expr} (assigned : e.assign s = .ok t) :
    t.depth = e.depth := by
  let literals := s.map fun (x, q) => (x, Expr.num (.ofRat q))
  have substituted : e.substituteAll literals = .ok t := by
    rw [substituteAll, List.foldlM_map]
    exact assigned
  refine substituteAll_depth (fun p member => ?_) substituted
  obtain ⟨⟨x, q⟩, -, rfl⟩ := List.mem_map.mp member
  exact .inl ⟨_, rfl⟩

end Assigning
end ComputerAlgebra.Expr
