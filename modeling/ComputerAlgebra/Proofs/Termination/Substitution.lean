import ComputerAlgebra.Proofs.Termination.Weight

/-!
What renaming and substitution do to the counts. A parameter that is renamed keeps its occurrences, and the
value that is put for a variable counts once for each free occurrence.
-/

namespace ComputerAlgebra.Expr

section Renaming
variable {p q y : String}

private theorem map_rename {count : Expr → Nat} {e : Expr}
    (same : ∀ part ∈ e.children, count (rename p q part) = count part) :
    ((e.children.map (rename p q)).map count).sum = (e.children.map count).sum := by
  rw [List.map_map]
  exact congrArg List.sum (List.map_congr_left same)

theorem occurrences_rename {e : Expr} (fresh : q ∉ e.names) (other : y ≠ q) :
    (rename p q e).occurrences y = if y = p then 0 else e.occurrences y := by
  induction e using children_induction with
  | node e ih =>
    rcases shape e with ⟨z, rfl⟩ | ⟨b, rfl⟩ | ⟨x, rfl⟩ | ⟨r, body, rfl⟩ | ⟨h, headed⟩
    · split <;> rfl
    · split <;> rfl
    · rw [rename_var]
      split
      · next same =>
        rw [occurrences_var, if_neg (Ne.symm other), occurrences_var, same]
        split <;> first | rfl | (rw [if_neg]; exact Ne.symm ‹_›)
      · next apart =>
        rw [occurrences_var]
        split <;> simp_all
    · rw [mem_names_lam, not_or] at fresh
      have inner := ih body (by simp [children]) fresh.2
      rw [rename_lam]
      by_cases own : r = y
      · subst own
        split <;> simp [occurrences_lam_self]
      · rw [occurrences_lam own]
        split
        · next same => rw [occurrences_lam own, if_neg (by rintro rfl; exact own same)]
        · rw [occurrences_lam own, inner]
    · have size : (e.children.map (rename p q)).length = e.children.length := by simp
      obtain ⟨still, parts⟩ := withChildren_head headed size
      have inner (part : Expr) (member : part ∈ e.children) :=
        ih part member fun named => fresh (names_child member named)
      rw [rename_head headed, occurrences_head still, parts, List.map_map, occurrences_head headed]
      split
      · next same =>
        refine List.sum_eq_zero fun n member => ?_
        obtain ⟨part, inside, rfl⟩ := List.mem_map.mp member
        rw [Function.comp_apply, inner part inside, if_pos same]
      · next apart =>
        refine congrArg List.sum (List.map_congr_left fun part inside => ?_)
        rw [Function.comp_apply, inner part inside, if_neg apart]

theorem occurrences_rename_new {e : Expr} (fresh : q ∉ e.names) :
    (rename p q e).occurrences q = e.occurrences p := by
  induction e using children_induction with
  | node e ih =>
    rcases shape e with ⟨z, rfl⟩ | ⟨b, rfl⟩ | ⟨x, rfl⟩ | ⟨r, body, rfl⟩ | ⟨h, headed⟩
    · rfl
    · rfl
    · rw [names_var, List.mem_singleton] at fresh
      rw [rename_var, occurrences_var]
      split
      · rw [occurrences_var, if_pos rfl]
      · rw [occurrences_var, if_neg (Ne.symm fresh)]
    · rw [mem_names_lam, not_or] at fresh
      rw [rename_lam]
      split
      · next same =>
        subst same
        rw [occurrences_lam_self, occurrences_lam (Ne.symm fresh.1), occurrences_absent fresh.2]
      · next apart =>
        rw [occurrences_lam (Ne.symm fresh.1), occurrences_lam apart]
        exact ih body (by simp [children]) fresh.2
    · have size : (e.children.map (rename p q)).length = e.children.length := by simp
      obtain ⟨still, parts⟩ := withChildren_head headed size
      rw [rename_head headed, occurrences_head still, parts, List.map_map, occurrences_head headed]
      refine congrArg List.sum (List.map_congr_left fun part inside => ?_)
      exact ih part inside fun named => fresh (names_child inside named)

/-- A count stays when its share of each node does. -/
private theorem tally_rename {own : Expr → Nat} (var : ∀ x y, own (.var x) = own (.var y))
    (lam : ∀ r body, q ∉ (Expr.lam r body).names → r ≠ p →
      own (.lam r (rename p q body)) = own (.lam r body))
    (head : ∀ {e h}, e.head? = some h → q ∉ e.names →
      own (e.withChildren (e.children.map (rename p q))) = own e)
    {e : Expr} (fresh : q ∉ e.names) : tally own (rename p q e) = tally own e := by
  induction e using children_induction with
  | node e ih =>
    rcases shape e with ⟨z, rfl⟩ | ⟨b, rfl⟩ | ⟨x, rfl⟩ | ⟨r, body, rfl⟩ | ⟨h, headed⟩
    · rfl
    · rfl
    · rw [rename_var]
      split
      · rw [tally_eq, tally_eq own (.var x), var q x]
        rfl
      · rfl
    · rw [rename_lam]
      split
      · rfl
      · next other =>
        rw [tally_lam, tally_lam, lam r body fresh other]
        rw [mem_names_lam, not_or] at fresh
        rw [ih body (by simp [children]) fresh.2]
    · have size : (e.children.map (rename p q)).length = e.children.length := by simp
      rw [rename_head headed, tally_head headed size, head headed fresh, tally_eq own e]
      congr 1
      exact map_rename fun part member => ih part member fun named => fresh (names_child member named)

theorem weight_rename {e : Expr} (fresh : q ∉ e.names) : (rename p q e).weight = e.weight := by
  refine tally_rename (fun _ _ => rfl) (fun _ _ _ _ => rfl) (fun {e h} headed _ => ?_) fresh
  have size : (e.children.map (rename p q)).length = e.children.length := by simp
  rw [ownWeight, ownWeight, (withChildren_head headed size).1, headed]

theorem functions_rename {e : Expr} (fresh : q ∉ e.names) : (rename p q e).functions = e.functions := by
  refine tally_rename (fun _ _ => rfl) (fun _ _ _ _ => rfl) (fun {e h} headed _ => ?_) fresh
  cases e <;> first | cases headed; done | rfl

theorem constantParameters_rename {e : Expr} (fresh : q ∉ e.names) :
    (rename p q e).constantParameters = e.constantParameters := by
  refine tally_rename (fun _ _ => rfl) (fun _ _ _ _ => rfl) (fun {e h} headed _ => ?_) fresh
  cases e <;> first | cases headed; done | rfl

theorem excess_rename {e : Expr} (fresh : q ∉ e.names) : (rename p q e).excess = e.excess := by
  refine tally_rename (fun _ _ => rfl) (fun r body fresh other => ?_) (fun {e h} headed _ => ?_) fresh
  · rw [mem_names_lam, not_or] at fresh
    rw [ownExcess, ownExcess, occurrences_rename fresh.2 (Ne.symm fresh.1), if_neg other]
  · cases e <;> first | cases headed; done | rfl

theorem passed_rename {e : Expr} (fresh : q ∉ e.names) : (rename p q e).passed = e.passed := by
  refine tally_rename (fun _ _ => rfl) (fun _ _ _ _ => rfl) (fun {e h} headed fresh => ?_) fresh
  cases e with
  | app f args =>
    have same (arg : Expr) (member : arg ∈ args) : (rename p q arg).functions = arg.functions :=
      functions_rename fun named => fresh (names_child (by simp [children, member]) named)
    simp only [children, List.map_cons, withChildren, argumentFunctions, List.map_map]
    exact congrArg List.sum (List.map_congr_left same)
  | _ => first | cases headed; done | rfl

end Renaming

section Substitution
variable {x : String} {v : Expr}

/-- The counts after a value has been put for a variable: those from before, and those of the value for each
occurrence that was free. -/
structure Substituted (x : String) (v e r : Expr) : Prop where
  weight : r.weight ≤ e.weight + e.occurrences x * v.weight
  functions : r.functions ≤ e.functions + e.occurrences x * v.functions
  constants : r.constantParameters ≤ e.constantParameters + e.occurrences x * v.constantParameters
  excess : r.excess ≤ e.excess + e.occurrences x * v.excess
  passed : v.functions = 0 → r.passed ≤ e.passed + e.occurrences x * v.passed
  occurrences : ∀ {y}, isConstantName y = false →
    r.occurrences y ≤ (if y = x then 0 else e.occurrences y) + e.occurrences x * v.occurrences y

private theorem sum_substituted {count before each : Expr → Nat} {k : Nat} {es rs : List Expr}
    (related : List.Forall₂ (fun e r => count r ≤ before e + each e * k) es rs) :
    (rs.map count).sum ≤ (es.map before).sum + (es.map each).sum * k := by
  induction related with
  | nil => simp
  | cons first _ ih =>
    simp only [List.map_cons, List.sum_cons, Nat.add_mul]
    omega

theorem Substituted.same {e : Expr} (absent : e.occurrences x = 0) : Substituted x v e e := by
  refine ⟨?_, ?_, ?_, ?_, ?_, ?_⟩
  case refine_6 =>
    intro y _
    split
    · next same => simp [same, absent]
    · simp
  all_goals simp [absent]

private theorem tally_substituted {own : Expr → Nat} {e : Expr} {h : Head} {parts : List Expr}
    (headed : e.head? = some h) (size : parts.length = e.children.length)
    (owned : own (e.withChildren parts) ≤ own e)
    (related : List.Forall₂ (fun e r => tally own r ≤ tally own e + e.occurrences x * tally own v)
      e.children parts) :
    tally own (e.withChildren parts) ≤ tally own e + e.occurrences x * tally own v := by
  have parts := sum_substituted related
  rw [tally_head headed size, tally_eq own e, occurrences_head headed]
  omega

theorem Substituted.headed {e : Expr} {h : Head} {parts : List Expr} (headed : e.head? = some h)
    (related : List.Forall₂ (Substituted x v) e.children parts) :
    Substituted x v e (e.withChildren parts) := by
  have size : parts.length = e.children.length := related.length_eq.symm
  have same : (e.withChildren parts).head? = e.head? := by rw [(withChildren_head headed size).1, headed]
  refine ⟨?_, ?_, ?_, ?_, ?_, ?_⟩
  · refine tally_substituted headed size ?_ (related.imp fun _ _ part => part.weight)
    rw [ownWeight, ownWeight, same]
  · refine tally_substituted headed size ?_ (related.imp fun _ _ part => part.functions)
    generalize e.withChildren parts = r at same
    cases r <;> simp_all [ownFunctions, head?]
  · refine tally_substituted headed size ?_ (related.imp fun _ _ part => part.constants)
    generalize e.withChildren parts = r at same
    cases r <;> simp_all [ownConstants, head?]
  · refine tally_substituted headed size ?_ (related.imp fun _ _ part => part.excess)
    generalize e.withChildren parts = r at same
    cases r <;> simp_all [ownExcess, head?]
  · intro none
    refine tally_substituted headed size ?_ (related.imp fun _ _ part => part.passed none)
    cases e with
    | app f args =>
      cases related with
      | cons first rest =>
        have more := sum_substituted (rest.imp fun _ _ part => part.functions)
        rw [none, Nat.mul_zero, Nat.add_zero] at more
        exact more
    | _ =>
      rw [argumentFunctions_other]
      · exact Nat.zero_le _
      · rw [same]
        simp [head?]
  · intro y proper
    obtain ⟨still, new⟩ := withChildren_head headed size
    rw [occurrences_head still, new, occurrences_head headed, occurrences_head headed]
    have sums := sum_substituted (related.imp fun _ _ part => part.occurrences proper)
    by_cases same : y = x
    · simpa [same] using sums
    · simpa [same] using sums

theorem substituted_under {p : String} {body r : Expr} (plain : isConstantName p = false) (other : x ≠ p)
    (free : p ∉ v.freeVars) (inner : Substituted x v body r) :
    Substituted x v (.lam p body) (.lam p r) := by
  have outside : v.occurrences p = 0 := occurrences_bound plain free
  have replaced : (Expr.lam p body).occurrences x = body.occurrences x := occurrences_lam (Ne.symm other) body
  have own := inner.occurrences plain
  rw [if_neg (Ne.symm other), outside, Nat.mul_zero, Nat.add_zero] at own
  refine ⟨?_, ?_, ?_, ?_, fun none => ?_, fun {y} proper => ?_⟩ <;> rw [replaced]
  · have := inner.weight
    simp only [weight, tally_lam, ownWeight, head?] at this ⊢
    omega
  · have := inner.functions
    simp only [functions, tally_lam, ownFunctions] at this ⊢
    omega
  · have := inner.constants
    simp only [constantParameters, tally_lam, ownConstants] at this ⊢
    omega
  · have := inner.excess
    simp only [excess, tally_lam, ownExcess] at this ⊢
    omega
  · have := inner.passed none
    simp only [passed, tally_lam, argumentFunctions] at this ⊢
    omega
  · by_cases same : p = y
    · rw [same, occurrences_lam_self]
      exact Nat.zero_le _
    · rw [occurrences_lam same, occurrences_lam same]
      exact inner.occurrences proper

/-- A new name for the parameter changes no count. -/
theorem substituted_renamed {p q : String} {body r : Expr} (plain : isConstantName p = false)
    (plain' : isConstantName q = false) (other : x ≠ p) (apart : q ≠ x)
    (fresh : q ∉ (Expr.lam p body).names) (outside : q ∉ v.names)
    (inner : Substituted x v (rename p q body) r) : Substituted x v (.lam p body) (.lam q r) := by
  rw [mem_names_lam, not_or] at fresh
  have replaced : (rename p q body).occurrences x = (Expr.lam p body).occurrences x := by
    rw [occurrences_rename fresh.2 (Ne.symm apart), if_neg other, occurrences_lam (Ne.symm other)]
  have own := inner.occurrences plain'
  rw [if_neg apart, occurrences_absent outside, Nat.mul_zero, Nat.add_zero, occurrences_rename_new fresh.2] at own
  refine ⟨?_, ?_, ?_, ?_, fun none => ?_, fun {y} proper => ?_⟩
  · have := inner.weight
    rw [replaced, weight_rename fresh.2] at this
    simp only [weight, tally_lam, ownWeight, head?] at this ⊢
    omega
  · have := inner.functions
    rw [replaced, functions_rename fresh.2] at this
    simp only [functions, tally_lam, ownFunctions] at this ⊢
    omega
  · have := inner.constants
    rw [replaced, constantParameters_rename fresh.2] at this
    simp only [constantParameters, tally_lam, ownConstants, plain, plain'] at this ⊢
    omega
  · have := inner.excess
    rw [replaced, excess_rename fresh.2] at this
    simp only [excess, tally_lam, ownExcess] at this ⊢
    omega
  · have := inner.passed none
    rw [replaced, passed_rename fresh.2] at this
    simp only [passed, tally_lam, argumentFunctions] at this ⊢
    omega
  · have := inner.occurrences proper
    rw [replaced] at this
    by_cases same : q = y
    · rw [same, occurrences_lam_self]
      exact Nat.zero_le _
    rw [occurrences_rename fresh.2 (Ne.symm same)] at this
    rw [occurrences_lam same]
    refine this.trans (Nat.add_le_add_right ?_ _)
    by_cases old : p = y
    · simp [old]
    · rw [occurrences_lam old, if_neg (Ne.symm old)]

/-- Substitution in an expression whose functions have wellNamed for parameters. -/
theorem substituted {e r : Expr} (wellNamed : e.constantParameters = 0)
    (result : e.substitute (.var x) v = .ok r) : Substituted x v e r := by
  have rules : SubstitutionRules x v fun e r => e.constantParameters = 0 → Substituted x v e r :=
    { value := by
        intro _
        refine ⟨?_, ?_, ?_, ?_, fun _ => ?_, fun _ => ?_⟩ <;> simp [occurrences_var]
      number := fun _ _ => .same rfl
      truth := fun _ _ => .same rfl
      other := fun different _ => .same (by rw [occurrences_var, if_neg different])
      absent := by
        rintro p body (rfl | missing) _
        · exact .same (occurrences_lam_self body)
        · exact .same (occurrences_absent missing)
      renamed := by
        rintro p q body r other _ apart fresh outside ⟨taken, rfl⟩ inner wellNamed
        obtain ⟨plain, body_named⟩ := constantParameters_lam.mp wellNamed
        refine substituted_renamed plain (freshName_variable p taken) other apart fresh outside (inner ?_)
        rwa [constantParameters_rename fun named => fresh (mem_names_lam.mpr (.inr named))]
      under := by
        intro p body r other free inner wellNamed
        obtain ⟨plain, body_named⟩ := constantParameters_lam.mp wellNamed
        exact substituted_under plain other free (inner body_named)
      headed := by
        intro e h parts headed related wellNamed
        have each (part : Expr) (member : part ∈ e.children) : part.constantParameters = 0 :=
          Nat.le_zero.mp (wellNamed ▸ constantParameters_additive.part_le headed member)
        refine Substituted.headed headed ?_
        exact ((List.forall₂_and_left _ _).mpr ⟨each, related⟩).imp fun _ _ both => both.2 both.1 }
  exact rules.substitute result wellNamed

end Substitution

end ComputerAlgebra.Expr
