import ComputerAlgebra.Proofs.Expr.Assignment
import ComputerAlgebra.Proofs.Expr.Measure

/-!
Values for all variables at once. In an expression without functions, putting values for variables one after
the other is the same as filling them all in on one walk.
-/

namespace ComputerAlgebra.Expr

variable {f g : String → Option Expr} {e : Expr}

/-- Puts the given expressions for variables, all at once; the other variables stay. -/
def fill (f : String → Option Expr) : Expr → Expr :=
  fold fun e parts => match e with
    | .var x => (f x).getD e
    | _ => e.withChildren parts

theorem fill_var (x : String) : fill f (.var x) = (f x).getD (.var x) := rfl

theorem fill_head {h : Head} (headed : e.head? = some h) : fill f e = e.withChildren (e.children.map (fill f)) := by
  rw [fill, fold_eq]
  cases e <;> first | rfl | cases headed

theorem fill_leaf {v : Expr} (literal : IsLiteral v) : fill f v = v := by
  rcases literal with ⟨z, rfl⟩ | ⟨b, rfl⟩ <;> rfl

theorem fill_unary (op : UnaryOp) (a : Expr) : fill f (.unary op a) = .unary op (fill f a) := rfl

theorem fill_binary (op : BinaryOp) (a b : Expr) :
    fill f (.binary op a b) = .binary op (fill f a) (fill f b) := rfl

theorem fill_piecewise (cases : List (Expr × Expr)) :
    fill f (.piecewise cases) = .piecewise (cases.map fun k => (fill f k.1, fill f k.2)) := by
  rw [fill_head rfl, children, withChildren]
  congr 1
  induction cases with
  | nil => rfl
  | cons k cases ih => simpa [pairUp] using ih

def LambdaFree (e : Expr) : Prop := Throughout (fun n => ∀ p body, n ≠ .lam p body) e

theorem lambdaFree_literal {v : Expr} (literal : IsLiteral v) : LambdaFree v := by
  rcases literal with ⟨z, rfl⟩ | ⟨b, rfl⟩ <;> exact throughout_iff.mpr ⟨by simp, by simp [children]⟩

theorem lambdaFree_head {h : Head} (headed : e.head? = some h) (parts : ∀ part ∈ e.children, LambdaFree part) :
    LambdaFree e := by
  refine throughout_iff.mpr ⟨?_, parts⟩
  rintro p body rfl
  cases headed

private theorem children_fill {h : Head} (headed : e.head? = some h) :
    (fill f e).head? = some h ∧ (fill f e).children = e.children.map (fill f) := by
  rw [fill_head headed]
  exact withChildren_head headed (List.length_map _)

theorem LambdaFree.fill (free : LambdaFree e) (values : ∀ x v, f x = some v → IsLiteral v) :
    LambdaFree (e.fill f) := by
  induction e using children_induction with
  | node e ih =>
    rcases shape e with ⟨z, rfl⟩ | ⟨b, rfl⟩ | ⟨x, rfl⟩ | ⟨p, body, rfl⟩ | ⟨h, headed⟩
    · exact free
    · exact free
    · rw [fill_var]
      cases found : f x with
      | none => exact free
      | some v => exact lambdaFree_literal (values x v found)
    · exact absurd rfl (free.root p body)
    · obtain ⟨headed', parts⟩ := children_fill (f := f) headed
      refine lambdaFree_head headed' ?_
      rw [parts, List.forall_mem_map]
      exact fun part member => ih part member (free.part member)

/-- What is filled in twice is what is filled in first, and elsewhere what comes second. -/
theorem fill_fill (free : LambdaFree e) (values : ∀ x v, f x = some v → IsLiteral v) :
    (e.fill f).fill g = e.fill fun x => (f x).or (g x) := by
  induction e using children_induction with
  | node e ih =>
    rcases shape e with ⟨z, rfl⟩ | ⟨b, rfl⟩ | ⟨x, rfl⟩ | ⟨p, body, rfl⟩ | ⟨h, headed⟩
    · rfl
    · rfl
    · simp only [fill_var]
      cases found : f x with
      | none => rfl
      | some v => exact fill_leaf (values x v found)
    · exact absurd rfl (free.root p body)
    · obtain ⟨headed', parts⟩ := children_fill (f := f) headed
      rw [fill_head headed', parts, fill_head headed, fill_head headed,
        withChildren_withChildren headed (by simp) (by simp), List.map_map]
      congr 1
      exact List.map_congr_left fun part member => ih part member (free.part member)

private theorem pairUp_children (cases : List (Expr × Expr)) : pairUp (Expr.piecewise cases).children = cases := by
  induction cases with
  | nil => rfl
  | cons k cases ih => simpa [children, pairUp] using ih

theorem withChildren_children (e : Expr) : e.withChildren e.children = e := by
  cases e with
  | piecewise cases => exact congrArg Expr.piecewise (pairUp_children cases)
  | num | var | bool | unary | binary | lam | app | provided | interval => rfl

theorem fill_nothing (free : LambdaFree e) : e.fill (fun _ => none) = e := by
  induction e using children_induction with
  | node e ih =>
    rcases shape e with ⟨z, rfl⟩ | ⟨b, rfl⟩ | ⟨x, rfl⟩ | ⟨p, body, rfl⟩ | ⟨h, headed⟩
    · rfl
    · rfl
    · rfl
    · exact absurd rfl (free.root p body)
    · rw [fill_head headed, List.map_congr_left fun part member => ih part member (free.part member), List.map_id',
        withChildren_children]

/-- Putting a value for a variable fills it in. -/
theorem substituteWithin_fill (x : String) (v : Expr) (depth : Nat) : ∀ {e : Expr}, LambdaFree e → e.depth ≤ depth →
    substituteWithin (.var x) v [] depth e = .ok (e.fill fun y => if y = x then some v else none) := by
  induction depth with
  | zero =>
    intro e _ low
    have := depth_pos e
    omega
  | succ depth ih =>
    intro e free low
    rcases shape e with ⟨z, rfl⟩ | ⟨b, rfl⟩ | ⟨y, rfl⟩ | ⟨p, body, rfl⟩ | ⟨h, headed⟩
    · rfl
    · rfl
    · by_cases same : y = x
      · simp [substituteWithin, fill_var, same]
      · simp [substituteWithin, fill_var, same, children, withChildren]
        rfl
    · exact absurd rfl (free.root p body)
    · have each : ∀ part ∈ e.children, ∃ r, substituteWithin (.var x) v [] depth part = .ok r ∧
          id r = part.fill fun y => if y = x then some v else none := by
        intro part member
        have := depth_child member
        exact ⟨_, ih (free.part member) (by omega), rfl⟩
      obtain ⟨rs, substituted, same⟩ := mapM_answers e.children each
      rw [List.map_id] at same
      rw [substituteWithin_head headed, substituted, fill_head headed, same]
      rfl

theorem substitute_fill {x : String} {v : Expr} (free : LambdaFree e) (literal : IsLiteral v) :
    e.substitute (.var x) v = .ok (e.fill fun y => if y = x then some v else none) := by
  rw [substitute, literal.freeVars]
  exact substituteWithin_fill x v e.depth free (le_refl _)

/-- Values that are put for variables one after the other are those of a walk that fills in the first one for
each variable. -/
theorem substituteAll_fill {s : List (String × Expr)} (literals : ∀ p ∈ s, IsLiteral p.2) :
    ∀ {e : Expr}, LambdaFree e → e.substituteAll s = .ok (e.fill fun x => s.lookup x) := by
  induction s with
  | nil =>
    intro e free
    exact congrArg Except.ok (fill_nothing free).symm
  | cons pair s ih =>
    obtain ⟨x, v⟩ := pair
    rw [List.forall_mem_cons] at literals
    intro e free
    have single (y : String) (w : Expr) (found : (if y = x then some v else none) = some w) : IsLiteral w := by
      split at found
      · cases found
        exact literals.1
      · cases found
    change (e.substitute (.var x) v >>= fun e => e.substituteAll s) = _
    rw [substitute_fill free literals.1]
    change (e.fill _).substituteAll s = _
    rw [ih literals.2 (free.fill single), fill_fill free single]
    congr 2
    funext y
    by_cases same : y = x
    · simp [same]
    · have different : (y == x) = false := by simpa using same
      simp [same, List.lookup_cons, different]

end ComputerAlgebra.Expr
