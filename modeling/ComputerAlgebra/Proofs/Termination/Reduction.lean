import ComputerAlgebra.Proofs.Termination.Descent
import ComputerAlgebra.Proofs.Termination.FirstOrder
import ComputerAlgebra.Proofs.Termination.Substitution

/-!
Expressions in which no function uses its parameter more than once. An argument is never copied, so each
reduction takes weight away.
-/

namespace ComputerAlgebra.Expr

/-- Functions use their parameters once at most, and the parameters are variables. -/
structure Affine (e : Expr) : Prop where
  wellNamed : e.constantParameters = 0
  once : e.excess = 0

namespace Affine

theorem lam {p : String} {body : Expr} : Affine (.lam p body) ↔
    (isConstantName p = false ∧ body.occurrences p ≤ 1) ∧ Affine body := by
  constructor
  · rintro ⟨wellNamed, once⟩
    obtain ⟨plain, inner⟩ := constantParameters_lam.mp wellNamed
    rw [excess_lam] at once
    exact ⟨⟨plain, by omega⟩, inner, by omega⟩
  · rintro ⟨⟨plain, once⟩, inner⟩
    have := inner.once
    exact ⟨constantParameters_lam.mpr ⟨plain, inner.wellNamed⟩, by rw [excess_lam]; omega⟩

theorem part {e part : Expr} (affine : Affine e) (member : part ∈ e.children) : Affine part := by
  rcases shape e with ⟨z, rfl⟩ | ⟨b, rfl⟩ | ⟨x, rfl⟩ | ⟨p, body, rfl⟩ | ⟨h, headed⟩
  · cases member
  · cases member
  · cases member
  · simp only [children, List.mem_cons, List.not_mem_nil, or_false] at member
    rcases member with rfl | rfl
    · exact ⟨rfl, rfl⟩
    · exact (lam.mp affine).2
  · have named := constantParameters_additive.part_le headed member
    have used := excess_additive.part_le headed member
    exact ⟨by have := affine.wellNamed; omega, by have := affine.once; omega⟩

/-- What may become of an affine expression: an affine one that weighs no more and in which no variable
occurs more often. -/
structure Next (e r : Expr) : Prop where
  affine : Affine r
  lighter : r.weight ≤ e.weight
  rarer : ∀ {x}, isConstantName x = false → r.occurrences x ≤ e.occurrences x

private theorem reduced {f r : Expr} {args : List Expr} (affine : Affine (.app f args))
    (taken : beta? f args = .ok (some r)) : Next (.app f args) r ∧ r.weight < (Expr.app f args).weight := by
  obtain ⟨p, body, a, rest, s, rfl, rfl, answer, rfl⟩ := beta?_cases taken
  obtain ⟨⟨plain, once⟩, inner⟩ := lam.mp (affine.part (List.mem_cons_self : Expr.lam p body ∈ _))
  have counts := substituted inner.wellNamed answer
  have replaced (n : Nat) : body.occurrences p * n ≤ n := by
    simpa using Nat.mul_le_mul_right n once
  have lighter : (if rest.isEmpty then s else .app s rest).weight < (Expr.app (.lam p body) (a :: rest)).weight := by
    refine (weight_additive.applied_le s rest).trans_lt ?_
    rw [weight_additive.app, weight_lam, List.map_cons, List.sum_cons, List.map_cons, List.sum_cons]
    have := counts.weight
    have := replaced a.weight
    omega
  have whole := affine.wellNamed
  have used := affine.once
  rw [constantParameters_additive.app, constantParameters, tally_lam] at whole
  rw [excess_additive.app, excess_lam] at used
  simp only [List.map_cons, List.sum_cons] at whole used
  refine ⟨⟨⟨?_, ?_⟩, lighter.le, fun {x} other => ?_⟩, lighter⟩
  · have := constantParameters_additive.applied_le s rest
    have := counts.constants
    have := replaced a.constantParameters
    simp only [constantParameters] at *
    omega
  · have := excess_additive.applied_le s rest
    have := counts.excess
    have := replaced a.excess
    omega
  · have := (occurrences_additive other).applied_le s rest
    have given := counts.occurrences other
    have := replaced (a.occurrences x)
    rw [(occurrences_additive other).app]
    simp only [List.map_cons, List.sum_cons]
    by_cases same : x = p
    · rw [if_pos same] at given
      omega
    · rw [if_neg same] at given
      rw [occurrences_lam (Ne.symm same)]
      omega

theorem within {e r : Expr} (affine : Affine e) (small : Within 1 e r) : Next e r where
  affine := ⟨Nat.le_zero.mp (affine.wellNamed ▸ small.le constantParameters_additive),
    Nat.le_zero.mp (affine.once ▸ small.le excess_additive)⟩
  lighter := small.le weight_additive
  rarer plain := small.le (occurrences_additive plain)

/-- Affine expressions descend by their weight. -/
theorem descent (same : Expr → Expr → Prop) [DecidableRel same] : Descent same Affine Next weight where
  parameter affine := (lam.mp affine).1.1
  parts affine member := ⟨affine.part member, weight_part member⟩
  kept _ next := ⟨next.affine, next.lighter⟩
  trans first second := ⟨second.affine, second.lighter.trans first.lighter,
    fun plain => (second.rarer plain).trans (first.rarer plain)⟩
  within := within
  node {e h parts} affine headed becomes := by
    have related : List.Forall₂ Next e.children parts := becomes.imp fun _ _ after => after.made
    have wellNamed := constantParameters_additive.rebuilt_le headed
      (related.imp fun e r next => (next.affine.wellNamed ▸ Nat.zero_le _ : r.constantParameters ≤ _))
    have once := excess_additive.rebuilt_le headed
      (related.imp fun e r next => (next.affine.once ▸ Nat.zero_le _ : r.excess ≤ _))
    exact ⟨⟨Nat.le_zero.mp (affine.wellNamed ▸ wellNamed), Nat.le_zero.mp (affine.once ▸ once)⟩,
      weight_additive.rebuilt_le headed (related.imp fun _ _ next => next.lighter),
      fun plain => (occurrences_additive plain).rebuilt_le headed (related.imp fun _ _ next => next.rarer plain)⟩
  lam {p body r} affine next := by
    obtain ⟨⟨plain, once⟩, _⟩ := lam.mp affine
    refine ⟨lam.mpr ⟨⟨plain, (next.rarer plain).trans once⟩, next.affine⟩, ?_, fun {x} other => ?_⟩
    · rw [weight_lam, weight_lam]
      exact Nat.add_le_add_left next.lighter 2
    · by_cases same : p = x
      · rw [same, occurrences_lam_self, occurrences_lam_self]
      · rw [occurrences_lam same, occurrences_lam same]
        exact next.rarer other
  eta {p f} affine absent := by
    obtain ⟨⟨plain, once⟩, inner⟩ := lam.mp affine
    have member : f ∈ (Expr.app f [.var p]).children := by simp [children]
    refine ⟨inner.part member, ?_, fun {x} other => ?_⟩
    · have := weight_part member
      rw [weight_lam]
      omega
    · by_cases same : p = x
      · rw [occurrences_bound other (same ▸ absent)]
        exact Nat.zero_le _
      · rw [occurrences_lam same]
        exact (occurrences_additive other).part_le rfl member
  reduced {self f args r} affine step := by
    rcases variant_reduceOnce?_cases step with ⟨name, rfl, known⟩ | taken
    · exact ⟨within affine (within_builtin? name args r known), weight_builtin? known⟩
    · exact reduced affine taken

end Affine
end ComputerAlgebra.Expr

/-!
The end of reduction. Evaluation and simplification come to an end when no function uses its parameter more
than once, and when no function is passed as an argument. A function that applies its parameter to itself and
puts something around the result has no end: no application is reached again, so the test for that never holds.
-/

namespace ComputerAlgebra.Expr

/-- Evaluation and a pass of simplification are done within `n` reductions inside each other: it makes no
difference what would be done beyond. -/
structure Ends (c : Config) (n : Nat) (e : Expr) : Prop where
  evaluation : ∀ stop, Variant.evaluateWithin (· = ·) c stop n e = evaluateWithin c n e
  simplification : ∀ stop stop',
    Variant.simplifyWithin (· = ·) c (Variant.evaluateWithin (· = ·) c stop n) stop' n e
      = Variant.simplifyWithin (· = ·) c (evaluateWithin c n) Variant.endless n e

theorem Descent.ends {fine : Expr → Prop} {next : Expr → Expr → Prop} {rank : Expr → Nat}
    (d : Descent (· = ·) fine next rank) {c : Config} {n : Nat} {e : Expr} (holds : fine e)
    (enough : rank e < n) : Ends c n e := by
  have evaluation (stop : Expr → Computation Expr) :
      Below fine next rank n (Variant.evaluateWithin (· = ·) c stop n) (Expr.evaluateWithin c n) := by
    rw [← evaluateWithin_trees]
    exact d.evaluateWithin stop _ n
  exact ⟨fun stop => (evaluation stop e holds enough).eq,
    fun stop stop' => (d.simplifyWithin stop' _ n (le_refl n) (evaluation stop) e holds enough).eq⟩

/-- Evaluation and simplification end when functions use their parameters once at most, and when functions are
not passed as arguments. -/
theorem reduction_ends {e : Expr} (given : Affine e ∨ FirstOrder e) : ∃ n, ∀ m ≥ n, ∀ c, Ends c m e := by
  rcases given with affine | firstOrder
  · exact ⟨e.weight + 1, fun m enough c => (Affine.descent _).ends affine enough⟩
  · exact ⟨FirstOrder.rank e + 1, fun m enough c => (FirstOrder.descent _).ends firstOrder enough⟩

/-- The square of a number is of first order, and the application of a variable function to an argument is
affine. -/
theorem reduction_ends_square :
    ∃ square call : Expr, square = .app (.lam "x" (.binary .mul (.var "x") (.var "x"))) [3] ∧
      call = .app (.lam "f" (.app (.var "f") [2])) [.lam "x" (.binary .sum (.var "x") 1)] ∧
      FirstOrder square ∧ ¬Affine square ∧ Affine call ∧ ¬FirstOrder call ∧
      (∃ n, ∀ m ≥ n, ∀ c, Ends c m square) ∧ (∃ n, ∀ m ≥ n, ∀ c, Ends c m call) := by
  refine ⟨_, _, rfl, rfl, ⟨by decide, by decide⟩, ?_, ⟨by decide, by decide⟩, ?_, ?_, ?_⟩
  · exact fun affine => absurd affine.once (by decide)
  · exact fun firstOrder => absurd firstOrder.ground (by decide)
  · exact reduction_ends (.inr ⟨by decide, by decide⟩)
  · exact reduction_ends (.inl ⟨by decide, by decide⟩)

section Endless

def negatedSelf : Expr := .lam "x" (.unary .not (.app (.var "x") [.var "x"]))

def selfCall : Expr := .app negatedSelf [negatedSelf]

variable (c : Config) (evaluate : Expr → Computation Expr)

theorem foldM_negatedSelf : foldM (Variant.evaluateNode (· = ·) c evaluate) negatedSelf = pure negatedSelf := by
  have call : Variant.evaluateNode (· = ·) c evaluate (.app (.var "x") [.var "x"]) [.var "x", .var "x"]
      = pure (.app (.var "x") [.var "x"]) := by
    simp only [Variant.evaluateNode, condition?]
    rw [liftConditions_bare (by simp [condition])]
    rfl
  have negation : Variant.evaluateNode (· = ·) c evaluate (.unary .not (.app (.var "x") [.var "x"]))
      [.app (.var "x") [.var "x"]] = pure (.unary .not (.app (.var "x") [.var "x"])) := by
    simp only [Variant.evaluateNode, condition?]
    rw [liftConditions_bare (by simp [condition])]
    rfl
  have function : Variant.evaluateNode (· = ·) c evaluate negatedSelf
      [.var "x", .unary .not (.app (.var "x") [.var "x"])] = pure negatedSelf := by
    simp only [negatedSelf, Variant.evaluateNode, condition?]
    rw [liftConditions_bare (by simp [condition])]
    rfl
  have parameter : Variant.evaluateNode (· = ·) c evaluate (.var "x") [] = pure (.var "x") := rfl
  unfold negatedSelf at function ⊢
  simp only [foldM, foldListM, parameter, pure_bind, call, negation, function]

theorem foldM_selfCall : foldM (Variant.evaluateNode (· = ·) c evaluate) selfCall
    = do return confine c selfCall (← evaluate (.unary .not selfCall)) (.num .nan) := by
  have rule : Variant.evaluationRule (· = ·) c evaluate selfCall [negatedSelf, negatedSelf]
      = do return some (← evaluate (.unary .not selfCall)) := rfl
  unfold selfCall at rule ⊢
  simp only [foldM, foldListM, foldM_negatedSelf, pure_bind]
  simp only [Variant.evaluateNode, condition?]
  rw [liftConditions_bare (by simp [condition, negatedSelf]), rule]
  simp

theorem foldM_not_selfCall : foldM (Variant.evaluateNode (· = ·) c evaluate) (.unary .not selfCall)
    = foldM (Variant.evaluateNode (· = ·) c evaluate) selfCall >>= fun r =>
        Variant.evaluateNode (· = ·) c evaluate (.unary .not selfCall) [r] := by
  rfl

/-- What begins with a failure fails. -/
private theorem fails {α β : Type} {m : Computation α} {f : α → Computation β} {u w : FloatUnit} {fault : Fault}
    (failed : m u = .error fault w) : (m >>= f) u = .error fault w := by
  change EStateM.bind m f u = _
  rw [EStateM.bind, failed]

theorem selfCall_fails (n : Nat) (u : FloatUnit) :
    Variant.evaluateWithin (· = ·) c Variant.endless n selfCall u = .error .endlessReduction u := by
  induction n with
  | zero => rfl
  | succ n ih =>
    rw [Variant.evaluateWithin, foldM_selfCall]
    refine fails ?_
    cases n with
    | zero => rfl
    | succ n =>
      rw [Variant.evaluateWithin] at ih ⊢
      rw [foldM_not_selfCall]
      exact fails ih

theorem selfCall_stops (n : Nat) :
    Variant.evaluateWithin (· = ·) c (fun _ => pure (.num .nan)) n selfCall = pure (.num .nan) := by
  have negation (evaluate : Expr → Computation Expr) :
      Variant.evaluateNode (· = ·) c evaluate (.unary .not selfCall) [.num .nan] = pure (.num .nan) := by
    simp only [Variant.evaluateNode, condition?]
    rw [liftConditions_bare (by simp [condition])]
    rfl
  induction n with
  | zero => rfl
  | succ n ih =>
    rw [Variant.evaluateWithin, foldM_selfCall]
    have deeper : Variant.evaluateWithin (· = ·) c (fun _ => pure (.num .nan)) n (.unary .not selfCall)
        = pure (.num .nan) := by
      cases n with
      | zero => rfl
      | succ n =>
        rw [Variant.evaluateWithin] at ih ⊢
        rw [foldM_not_selfCall, ih, pure_bind, negation]
    rw [deeper, pure_bind, confine_nan]

/-- An argument that is not used. -/
theorem foldM_unused (argument : Expr) (evaluate : Expr → Computation Expr) :
    foldM (Variant.evaluateNode (· = ·) c evaluate) (.app (.lam "y" 0) [argument])
      = foldM (Variant.evaluateNode (· = ·) c evaluate) argument >>= fun a =>
        Variant.evaluateNode (· = ·) c evaluate (.app (.lam "y" 0) [argument]) [.lam "y" 0, a] := by
  have function : foldM (Variant.evaluateNode (· = ·) c evaluate) (.lam "y" 0) = pure (.lam "y" 0) := by
    have node : Variant.evaluateNode (· = ·) c evaluate (.lam "y" 0) [.var "y", 0] = pure (.lam "y" 0) := by
      simp only [Variant.evaluateNode, condition?]
      rw [liftConditions_bare (by simp [condition])]
      rfl
    rw [foldM_eq]
    exact node
  rw [foldM, function, foldListM, foldListM]
  simp only [pure_bind, bind_assoc]

theorem unusedCall_fails (n : Nat) (u : FloatUnit) :
    Variant.evaluateWithin (· = ·) c Variant.endless n (.app (.lam "y" 0) [selfCall]) u
      = .error .endlessReduction u := by
  cases n with
  | zero => rfl
  | succ n =>
    have failed := selfCall_fails c (n + 1) u
    rw [Variant.evaluateWithin] at failed ⊢
    rw [foldM_unused]
    exact fails failed

/-- If giving up at the end of the steps is replaced by NaN, the call returns. -/
theorem unusedCall_stops (n : Nat) : ∃ r, Variant.evaluateWithin (· = ·) c (fun _ => pure (.num .nan)) n
    (.app (.lam "y" 0) [selfCall]) = pure r := by
  cases n with
  | zero => exact ⟨_, rfl⟩
  | succ n =>
    have stopped := selfCall_stops c (n + 1)
    have body : ∃ r, Variant.evaluateWithin (· = ·) c (fun _ => pure (.num .nan)) n 0 = pure r := by
      cases n with
      | zero => exact ⟨_, rfl⟩
      | succ n => exact ⟨_, rfl⟩
    obtain ⟨r, done⟩ := body
    rw [Variant.evaluateWithin] at stopped ⊢
    rw [foldM_unused, stopped, pure_bind]
    generalize Variant.evaluateWithin (· = ·) c (fun _ => pure (.num .nan)) n = evaluate at done
    have rule : Variant.evaluationRule (· = ·) c evaluate (.app (.lam "y" 0) [selfCall])
        [.lam "y" 0, .num .nan] = do return some (← evaluate 0) := rfl
    simp only [Variant.evaluateNode, condition?]
    rw [liftConditions_bare (by simp [condition]), rule, done]
    exact ⟨_, rfl⟩

/-- A call that does not use its argument goes on forever when the argument does. -/
theorem unused_argument_endless :
    ∃ e : Expr, e = .app (.lam "y" 0) [.app negatedSelf [negatedSelf]] ∧
      (∀ n c, ¬Ends c n e) ∧ ∀ u, e.evaled .default u = .error .endlessReduction u := by
  refine ⟨_, rfl, fun n c ends => ?_, fun u => ?_⟩
  · obtain ⟨r, stopped⟩ := unusedCall_stops c n
    have failed := unusedCall_fails c n ⟨0⟩
    have same := ends.evaluation fun _ => pure (.num .nan)
    rw [← evaluateWithin_trees] at same
    unfold selfCall at stopped failed
    rw [← same, stopped] at failed
    cases failed
  · have failed := unusedCall_fails .default allowance u
    rw [evaled_eq (by decide +kernel), evaluate, ← evaluateWithin_trees]
    exact failed

end Endless

end ComputerAlgebra.Expr
