import ComputerAlgebra.Proofs.Expr.Measure
import ComputerAlgebra.Proofs.Scope.Compositional
import ComputerAlgebra.Proofs.Scope.Substitution

/-!
Expressions in which no condition stands where it would be moved out past a number: not inside an operand of an
arithmetic operation, and not inside an argument, which a function may put into such a place. `Tame` says
this, and that all numbers are admitted; renaming and substitution keep it.
-/

namespace ComputerAlgebra.Expr

def operands : Expr → List Expr
  | .unary op a => if op = .not then [] else [a]
  | .binary op a b => if op.isStatement then [] else [a, b]
  | .app _ args => args
  | _ => []

theorem operands_part {e part : Expr} (member : part ∈ e.operands) : part ∈ e.children := by
  unfold operands at member
  split at member
  · split at member
    · cases member
    · exact member
  · split at member
    · cases member
    · exact member
  · exact List.mem_cons_of_mem _ member
  · cases member

def Unconditional (e : Expr) : Prop := Throughout (·.condition = none) e

/-- No condition stands inside an operand of arithmetic or inside an argument. -/
def Shielded (e : Expr) : Prop := Throughout (fun n => ∀ part ∈ n.operands, Unconditional part) e

instance : DecidablePred Unconditional := fun e =>
  inferInstanceAs (Decidable (Throughout (·.condition = none) e))

instance : DecidablePred Shielded := fun e =>
  inferInstanceAs (Decidable (Throughout (fun n => ∀ part ∈ n.operands, Unconditional part) e))

def OfNumbers (N : Number → Prop) (e : Expr) : Prop := Throughout (fun n => ∀ z, n = .num z → N z) e

/-- Admitted numbers, and conditions where they are allowed: nowhere or where nothing has to be moved past
a number. -/
structure Tame (N : Number → Prop) (allowed : Bool) (e : Expr) : Prop where
  numbers : OfNumbers N e
  conditions : if allowed then Shielded e else Unconditional e

namespace Tame
variable {N : Number → Prop} {allowed : Bool} {e : Expr}

theorem shielded_of_unconditional (bare : Unconditional e) : Shielded e :=
  fun _ inside _ member => (Throughout.within bare inside).part (operands_part member)

theorem relax (tame : Tame N false e) : Tame N allowed e := by
  cases allowed with
  | false => exact tame
  | true => exact ⟨tame.numbers, shielded_of_unconditional tame.conditions⟩

theorem iff_parts : Tame N allowed e ↔ ((∀ z, e = .num z → N z) ∧ (e.condition ≠ none → allowed = true)) ∧
    (∀ part ∈ e.children, Tame N allowed part) ∧ ∀ part ∈ e.operands, Tame N false part := by
  constructor
  · rintro ⟨numbers, conditions⟩
    have inside {part : Expr} (member : part ∈ e.children) : OfNumbers N part := numbers.part member
    cases allowed with
    | false =>
      have bare : Unconditional e := conditions
      refine ⟨⟨numbers.root, fun given => absurd bare.root given⟩, fun part member => ?_, fun part member => ?_⟩
      · exact ⟨inside member, bare.part member⟩
      · exact ⟨inside (operands_part member), bare.part (operands_part member)⟩
    | true =>
      have shielded : Shielded e := conditions
      refine ⟨⟨numbers.root, fun _ => rfl⟩, fun part member => ?_, fun part member => ?_⟩
      · exact ⟨inside member, shielded.part member⟩
      · exact ⟨inside (operands_part member), shielded.root part member⟩
  · rintro ⟨⟨number, condition⟩, parts, operands⟩
    refine ⟨throughout_iff.mpr ⟨number, fun part member => (parts part member).numbers⟩, ?_⟩
    cases allowed with
    | false =>
      have bare : e.condition = none := by
        by_contra given
        cases condition given
      exact throughout_iff.mpr ⟨bare, fun part member => (parts part member).conditions⟩
    | true =>
      refine throughout_iff.mpr ⟨fun part member => ?_, fun part member => (parts part member).conditions⟩
      exact (operands part member).conditions

variable {a b : Expr}

theorem num {z : Number} : Tame N allowed (.num z) ↔ N z := by
  rw [iff_parts]
  simp [children, operands, condition]

theorem bool (t : Bool) : Tame N allowed (.bool t) := by
  rw [iff_parts]
  simp [children, operands, condition]

theorem var (x : String) : Tame N allowed (.var x) := by
  rw [iff_parts]
  simp [children, operands, condition]

theorem operation {op : UnaryOp} (arithmetic : op ≠ .not) : Tame N allowed (.unary op a) ↔ Tame N false a := by
  rw [iff_parts]
  simp only [children, operands, condition, if_neg arithmetic]
  simpa using relax

theorem negation : Tame N allowed (.unary .not a) ↔ Tame N allowed a := by
  rw [iff_parts]
  simp [children, operands, condition]

theorem arithmetic {op : BinaryOp} (arithmetic : op.isStatement = false) :
    Tame N allowed (.binary op a b) ↔ Tame N false a ∧ Tame N false b := by
  rw [iff_parts]
  simp only [children, operands, condition, arithmetic]
  simpa using fun left right => ⟨relax left, relax right⟩

theorem statement {op : BinaryOp} (statement : op.isStatement = true) :
    Tame N allowed (.binary op a b) ↔ Tame N allowed a ∧ Tame N allowed b := by
  rw [iff_parts]
  simp [children, operands, condition, statement]

theorem lam {p : String} {body : Expr} : Tame N allowed (.lam p body) ↔ Tame N allowed body := by
  rw [iff_parts]
  simp [children, operands, condition, var]

theorem app {args : List Expr} :
    Tame N allowed (.app a args) ↔ Tame N allowed a ∧ ∀ arg ∈ args, Tame N false arg := by
  rw [iff_parts]
  simp only [children, operands, condition, List.forall_mem_cons]
  constructor
  · rintro ⟨-, ⟨head, -⟩, all⟩
    exact ⟨head, all⟩
  · rintro ⟨head, all⟩
    exact ⟨by simp, ⟨head, fun arg member => relax (all arg member)⟩, all⟩

theorem provided : Tame N allowed (.provided a b) ↔ allowed = true ∧ Tame N allowed a ∧ Tame N allowed b := by
  rw [iff_parts]
  simp [children, operands, condition]

theorem interval : Tame N allowed (.interval a b) ↔ Tame N allowed a ∧ Tame N allowed b := by
  rw [iff_parts]
  simp [children, operands, condition]

theorem piecewise {cases : List (Expr × Expr)} :
    Tame N allowed (.piecewise cases) ↔ ∀ entry ∈ cases, Tame N allowed entry.1 ∧ Tame N allowed entry.2 := by
  rw [iff_parts]
  simp only [children, operands, condition, List.mem_flatMap, List.mem_cons, List.not_mem_nil, or_false]
  constructor
  · rintro ⟨-, all, -⟩ entry member
    exact ⟨all _ ⟨entry, member, .inl rfl⟩, all _ ⟨entry, member, .inr rfl⟩⟩
  · intro all
    refine ⟨by simp, ?_, by simp⟩
    rintro part ⟨entry, member, rfl | rfl⟩
    · exact (all entry member).1
    · exact (all entry member).2

end Tame

section Rebuilding
variable {N : Number → Prop} {e : Expr} {parts : List Expr}

def AsTame (N : Number → Prop) (e r : Expr) : Prop := ∀ allowed, Tame N allowed e → Tame N allowed r

/-- New parts as tame as the old ones make a node as tame as the old one. -/
theorem asTame_withChildren {h : Head} (headed : e.head? = some h)
    (related : List.Forall₂ (AsTame N) e.children parts) : AsTame N e (e.withChildren parts) := by
  intro allowed tame
  cases e with
  | num | var | bool | lam => cases headed
  | unary op a =>
    obtain ⟨x, rfl⟩ := List.length_eq_one_iff.mp related.length_eq.symm
    obtain ⟨first, -⟩ := List.forall₂_cons.mp related
    by_cases negated : op = .not
    · subst negated
      exact Tame.negation.mpr (first _ (Tame.negation.mp tame))
    · exact (Tame.operation negated).mpr (first _ ((Tame.operation negated).mp tame))
  | binary op a b =>
    obtain ⟨x, y, rfl⟩ := List.length_eq_two.mp related.length_eq.symm
    obtain ⟨first, rest⟩ := List.forall₂_cons.mp related
    obtain ⟨second, -⟩ := List.forall₂_cons.mp rest
    cases sort : op.isStatement with
    | false =>
      obtain ⟨left, right⟩ := (Tame.arithmetic sort).mp tame
      exact (Tame.arithmetic sort).mpr ⟨first _ left, second _ right⟩
    | true =>
      obtain ⟨left, right⟩ := (Tame.statement sort).mp tame
      exact (Tame.statement sort).mpr ⟨first _ left, second _ right⟩
  | app f args =>
    cases related with
    | cons first rest =>
      obtain ⟨head, all⟩ := Tame.app.mp tame
      refine Tame.app.mpr ⟨first _ head, ?_⟩
      exact forall_related rest fun arg member _ kept => kept _ (all arg member)
  | provided a p =>
    obtain ⟨x, y, rfl⟩ := List.length_eq_two.mp related.length_eq.symm
    obtain ⟨first, rest⟩ := List.forall₂_cons.mp related
    obtain ⟨second, -⟩ := List.forall₂_cons.mp rest
    obtain ⟨open_, left, right⟩ := Tame.provided.mp tame
    exact Tame.provided.mpr ⟨open_, first _ left, second _ right⟩
  | interval a b =>
    obtain ⟨x, y, rfl⟩ := List.length_eq_two.mp related.length_eq.symm
    obtain ⟨first, rest⟩ := List.forall₂_cons.mp related
    obtain ⟨second, -⟩ := List.forall₂_cons.mp rest
    obtain ⟨left, right⟩ := Tame.interval.mp tame
    exact Tame.interval.mpr ⟨first _ left, second _ right⟩
  | piecewise cases =>
    have all : ∀ part ∈ parts, Tame N allowed part :=
      forall_related related fun part member _ kept => kept _ ((Tame.iff_parts.mp tame).2.1 part member)
    exact Tame.piecewise.mpr (Compositional.pairUp all)

theorem asTame_rename (p q : String) (e : Expr) : AsTame N e (rename p q e) := by
  induction e using children_induction with
  | node e ih =>
    rcases shape e with ⟨z, rfl⟩ | ⟨b, rfl⟩ | ⟨x, rfl⟩ | ⟨r, body, rfl⟩ | ⟨h, headed⟩
    · exact fun _ tame => tame
    · exact fun _ tame => tame
    · intro allowed _
      rw [rename_var]
      split <;> exact Tame.var _
    · intro allowed tame
      rw [rename_lam]
      split
      · exact tame
      · exact Tame.lam.mpr (ih body (by simp [children]) _ (Tame.lam.mp tame))
    · rw [rename_head headed]
      refine asTame_withChildren headed ?_
      rw [List.forall₂_map_right_iff]
      exact List.forall₂_same.mpr fun part member => ih part member

theorem asTame_substitute {x : String} {v e r : Expr} (value : Tame N false v)
    (result : e.substitute (.var x) v = .ok r) : AsTame N e r := by
  have rules : SubstitutionRules x v (AsTame N) :=
    { value := fun _ _ => value.relax
      number := fun _ _ tame => tame
      truth := fun _ _ tame => tame
      other := fun _ _ tame => tame
      absent := fun _ _ tame => tame
      renamed := fun _ _ _ _ _ _ below _ tame =>
        Tame.lam.mpr (below _ (asTame_rename _ _ _ _ (Tame.lam.mp tame)))
      under := fun _ _ below _ tame => Tame.lam.mpr (below _ (Tame.lam.mp tame))
      headed := fun headed related => asTame_withChildren headed related }
  exact rules.substitute result

end Rebuilding

end ComputerAlgebra.Expr
