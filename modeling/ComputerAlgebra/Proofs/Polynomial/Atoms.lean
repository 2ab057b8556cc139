import ComputerAlgebra.Polynomial.Conversion

/-!
The atoms of polynomials. No operation brings in an atom that its operands do not have.
-/

namespace ComputerAlgebra

namespace Monomial

def Over (P : Expr → Prop) (m : Monomial) : Prop := ∀ f ∈ m, P f.1

variable {P : Expr → Prop}

theorem over_mul {m n : Monomial} : Over P m → Over P n → Over P (m.mul n) := by
  induction m, n using Monomial.mul.induct with
  | case1 ys =>
    intro _ right
    simpa [mul] using right
  | case2 xs nonempty =>
    intro left _
    cases xs with
    | nil => exact fun _ impossible => by simp [mul] at impossible
    | cons => simpa [mul] using left
  | case3 a m xs b n ys below ih =>
    intro left right
    simp only [Over, List.forall_mem_cons] at left
    rw [mul, below, Over, List.forall_mem_cons]
    exact ⟨left.1, ih left.2 right⟩
  | case4 a m xs b n ys above ih =>
    intro left right
    simp only [Over, List.forall_mem_cons] at right
    rw [mul, above, Over, List.forall_mem_cons]
    exact ⟨right.1, ih left right.2⟩
  | case5 a m xs b n ys same ih =>
    intro left right
    simp only [Over, List.forall_mem_cons] at left right
    rw [mul, same, Over, List.forall_mem_cons]
    exact ⟨left.1, ih left.2 right.2⟩

end Monomial

namespace Polynomial

def Over (P : Expr → Prop) (p : Polynomial) : Prop := ∀ t ∈ p, t.1.Over P

variable {P : Expr → Prop} {p q r : Polynomial}

theorem mergeRun_monomial (rest : List Placed) : ∀ (s : Placed), ∀ t ∈ mergeRun s rest,
    ∃ s' ∈ s :: rest, s'.monomial = t.monomial := by
  induction rest with
  | nil =>
    intro s t member
    exact ⟨t, member, rfl⟩
  | cons s' rest ih =>
    intro s t member
    unfold mergeRun at member
    split at member
    · obtain ⟨source, inside, same⟩ := ih _ t member
      rcases List.mem_cons.mp inside with rfl | deeper
      · exact ⟨s, by simp, same⟩
      · exact ⟨source, by simp [deeper], same⟩
    · rcases List.mem_cons.mp member with rfl | later
      · exact ⟨t, by simp, rfl⟩
      · obtain ⟨source, inside, same⟩ := ih s' t later
        exact ⟨source, List.mem_cons_of_mem s inside, same⟩

theorem collect_monomial {terms : List (Monomial × Rat)} :
    ∀ t ∈ collect terms, ∃ s ∈ terms, s.1 = t.1 := by
  intro t member
  simp only [collect, List.mem_filter, List.mem_map, List.mem_mergeSort] at member
  obtain ⟨⟨s, merged, rfl⟩, -⟩ := member
  let placed := terms.mapIdx fun i t => (⟨t.1, t.2, i⟩ : Placed)
  obtain ⟨source, inside, same⟩ : ∃ source ∈ placed, source.monomial = s.monomial := by
    generalize sorted : placed.mergeSort (fun s t => s.monomial.cmp t.monomial != .gt) = items
      at merged
    cases items with
    | nil => simp [mergeRuns] at merged
    | cons first rest =>
      obtain ⟨source, inside, same⟩ := mergeRun_monomial rest first s merged
      rw [← sorted, List.mem_mergeSort] at inside
      exact ⟨source, inside, same⟩
  obtain ⟨i, bound, rfl⟩ := List.mem_mapIdx.mp inside
  exact ⟨terms[i], List.getElem_mem bound, same⟩

theorem over_collect {terms : List (Monomial × Rat)} (known : Over P terms) :
    Over P (collect terms) := by
  intro t member
  obtain ⟨s, inside, same⟩ := collect_monomial t member
  rw [← same]
  exact known s inside

theorem over_constant (k : Rat) : Over P (constant k) := by
  unfold constant
  split <;> simp [Over, Monomial.Over]

theorem over_atom {e : Expr} (holds : P e) : Over P (atom e) := by
  simpa [Over, atom, Monomial.Over] using holds

theorem over_add (left : Over P p) (right : Over P q) : Over P (add p q) := by
  apply over_collect
  intro t member
  rcases List.mem_append.mp member with inside | inside
  · exact left t inside
  · exact right t inside

theorem over_scale {k : Rat} (known : Over P p) : Over P (scale k p) := by
  intro t member
  obtain ⟨s, inside, rfl⟩ := List.mem_map.mp member
  exact known s inside

theorem over_mul? {limit : Limit} (left : Over P p) (right : Over P q)
    (found : mul? limit p q = some r) : Over P r := by
  unfold mul? at found
  split at found
  · cases found
  · simp only [Option.ite_none_left_eq_some, Option.some.injEq] at found
    rw [← found.2]
    apply over_collect
    intro t member
    obtain ⟨s, inside, others⟩ := List.mem_flatMap.mp member
    obtain ⟨s', inside', rfl⟩ := List.mem_map.mp others
    exact Monomial.over_mul (left s inside) (right s' inside')

/-- One round of binary powering: the last binary digit of the exponent decides whether the square
goes into the result, and the other digits are left for the square of the square. -/
theorem powLoop?_step {limit : Limit} {result square : Polynomial} {n : Nat} (positive : n ≠ 0)
    (found : powLoop? limit result square n = some r) :
    ∃ next, (n % 2 = 1 ∧ mul? limit result square = some next ∨ n % 2 = 0 ∧ result = next) ∧
      (n / 2 = 0 ∧ next = r ∨ ∃ doubled, mul? limit square square = some doubled ∧
        powLoop? limit next doubled (n / 2) = some r) := by
  have finish : ∀ next, (if n / 2 = 0 then pure next
      else do powLoop? limit next (← mul? limit square square) (n / 2)) = some r →
      n / 2 = 0 ∧ next = r ∨ ∃ doubled, mul? limit square square = some doubled ∧
        powLoop? limit next doubled (n / 2) = some r := by
    intro next rest
    split at rest
    · next last => exact .inl ⟨last, Option.some.inj rest⟩
    · exact .inr (Option.bind_eq_some_iff.mp rest)
  unfold powLoop? at found
  rw [dif_neg positive] at found
  dsimp only at found
  split at found
  · next odd =>
    obtain ⟨next, multiplied, rest⟩ := Option.bind_eq_some_iff.mp found
    exact ⟨next, .inl ⟨odd, multiplied⟩, finish next rest⟩
  · exact ⟨result, .inr ⟨by omega, rfl⟩, finish result found⟩

/-- What products keep, powers keep. -/
theorem pow?_keeps {limit : Limit} {Q : Polynomial → Prop} (one : Q (constant 1))
    (times : ∀ {p q r}, Q p → Q q → mul? limit p q = some r → Q r) {n : Nat} (base : Q p)
    (found : pow? limit p n = some r) : Q r := by
  have loop (n : Nat) : ∀ {result square : Polynomial}, Q result → Q square →
      powLoop? limit result square n = some r → Q r := by
    induction n using Nat.strongRecOn with
    | ind n ih =>
      intro result square first second found
      by_cases zero : n = 0
      · rw [powLoop?, dif_pos zero] at found
        cases found
        exact first
      · obtain ⟨next, digit, rest⟩ := powLoop?_step zero found
        have known : Q next := by
          rcases digit with ⟨-, multiplied⟩ | ⟨-, rfl⟩
          · exact times first second multiplied
          · exact first
        rcases rest with ⟨-, rfl⟩ | ⟨doubled, squared, looped⟩
        · exact known
        · exact ih (n / 2) (by omega) known (times second second squared) looped
  exact loop n one base found

/-- Where there are always products, and what keeps them, there are powers. -/
theorem pow?_exists {limit : Limit} {Q : Polynomial → Prop} (one : Q (constant 1))
    (times : ∀ {p q}, Q p → Q q → ∃ r, mul? limit p q = some r ∧ Q r) (base : Q p) (n : Nat) :
    ∃ r, pow? limit p n = some r ∧ Q r := by
  have loop (n : Nat) : ∀ {result square : Polynomial}, Q result → Q square →
      ∃ r, powLoop? limit result square n = some r ∧ Q r := by
    induction n using Nat.strongRecOn with
    | ind n ih =>
      intro result square first second
      unfold powLoop?
      by_cases zero : n = 0
      · exact ⟨result, dif_pos zero, first⟩
      · rw [dif_neg zero]
        have rest {next : Polynomial} (known : Q next) : ∃ r, (if n / 2 = 0 then pure next
            else do powLoop? limit next (← mul? limit square square) (n / 2)) = some r ∧ Q r := by
          split
          · exact ⟨next, rfl, known⟩
          · obtain ⟨doubled, squared, twice⟩ := times second second
            rw [squared]
            exact ih (n / 2) (by omega) known twice
        dsimp only
        split
        · obtain ⟨next, multiplied, known⟩ := times first second
          rw [multiplied]
          exact rest known
        · exact rest first
  exact loop n one base

theorem over_pow? {limit : Limit} {n : Nat} (known : Over P p) (found : pow? limit p n = some r) :
    Over P r :=
  pow?_keeps (over_constant 1) over_mul? known found

/-- The float unit is read for the keys of the atoms alone. -/
theorem keyedTerms_congr {u v : FloatUnit}
    (same : ∀ t ∈ p, ∀ f ∈ t.1, f.1.canonicalKey u = f.1.canonicalKey v) :
    keyedTerms u p = keyedTerms v p := by
  have factors (m : Monomial) (q : Rat)
      (same : ∀ f ∈ m, f.1.canonicalKey u = f.1.canonicalKey v) :
      KeyedTerm.ofTerm u m q = KeyedTerm.ofTerm v m q := by
    unfold KeyedTerm.ofTerm
    congr 2
    exact List.map_congr_left fun f inside =>
      congrArg (KeyedFactor.mk · f.1 f.2) (same f inside)
  unfold keyedTerms
  congr 1
  exact List.map_congr_left fun t member => factors t.1 t.2 (same t member)

theorem toExpr_congr {u v : FloatUnit}
    (same : ∀ t ∈ p, ∀ f ∈ t.1, f.1.canonicalKey u = f.1.canonicalKey v) :
    toExpr u p = toExpr v p := by
  rw [toExpr, toExpr, keyedTerms_congr same]

theorem toExpr_atom (u : FloatUnit) (e : Expr) : toExpr u (atom e) = e := by
  have terms : keyedTerms u (atom e) = [KeyedTerm.ofTerm u [(e, 1)] 1] := by
    simp [keyedTerms, atom]
  simp [toExpr, terms, KeyedTerm.product?, termExpr, factorExpr, KeyedTerm.ofTerm]

end Polynomial
end ComputerAlgebra
