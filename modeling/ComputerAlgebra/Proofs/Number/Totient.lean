import ComputerAlgebra.Number.Functions
import ComputerAlgebra.Proofs.Rational.Value
import Mathlib.Data.Nat.Totient
import Mathlib.Tactic.NormNum.Prime

/-!
Euler's totient by trial division. At each divisor the prime factors below it are stripped off, and the result
is the totient of the stripped part times what is left; so every division of the result is exact, and what is
left below the square of the divisor is one or a prime. Within the bound on divisors the loop is refused only
where a large part without small factors is left.
-/

namespace ComputerAlgebra.Number

section Rough
variable {bound s m : Nat}

/-- What is left of a number without its prime factors up to a bound. -/
def roughPart (bound n : Nat) : Nat := (n.primeFactorsList.filter (bound < ·)).prod

theorem roughPart_le (bound : Nat) (positive : 0 < m) : roughPart bound m ≤ m := by
  have part : roughPart bound m ∣ m.primeFactorsList.prod := List.filter_sublist.prod_dvd_prod
  rw [Nat.prod_primeFactorsList positive.ne'] at part
  exact Nat.le_of_dvd positive part

/-- A factor with small prime factors alone is left out. -/
theorem roughPart_mul (smooth : ∀ p, Nat.Prime p → p ∣ s → p ≤ bound) (stripped : 0 < s) (positive : 0 < m) :
    roughPart bound (s * m) = roughPart bound m := by
  have factors := (Nat.perm_primeFactorsList_mul stripped.ne' positive.ne').filter (bound < ·)
  have none_left : s.primeFactorsList.filter (bound < ·) = [] := by
    rw [List.filter_eq_nil_iff]
    intro p member
    obtain ⟨prime, divides⟩ := (Nat.mem_primeFactorsList stripped.ne').mp member
    simpa using smooth p prime divides
  rw [roughPart, factors.prod_eq, List.filter_append, none_left, List.nil_append, roughPart]

/-- A number with large prime factors alone is left as it is. -/
theorem roughPart_self (rough : ∀ p, Nat.Prime p → p ∣ m → bound < p) (positive : 0 < m) :
    roughPart bound m = m := by
  have all_left : m.primeFactorsList.filter (bound < ·) = m.primeFactorsList := by
    rw [List.filter_eq_self]
    intro p member
    obtain ⟨prime, divides⟩ := (Nat.mem_primeFactorsList positive.ne').mp member
    simpa using rough p prime divides
  rw [roughPart, all_left, Nat.prod_primeFactorsList positive.ne']

end Rough

section Strip
variable {d m : Nat}

/-- Stripping takes off the powers of the divisor. -/
theorem stripFactor_power (divisor : 1 < d) (positive : 0 < m) :
    ∃ a, m = d ^ a * stripFactor d m ∧ ¬d ∣ stripFactor d m := by
  fun_induction stripFactor d m with
  | case1 m divides ih =>
    have exact_quotient : d * (m / d) = m := Nat.mul_div_cancel' (Nat.dvd_of_mod_eq_zero divides.2.2)
    obtain ⟨a, power, gone⟩ := ih (Nat.pos_of_ne_zero fun zero => by simp [zero] at exact_quotient; omega)
    refine ⟨a + 1, ?_, gone⟩
    rw [pow_succ', mul_assoc, ← power, exact_quotient]
  | case2 m stopped =>
    refine ⟨0, (one_mul m).symm, fun divides => stopped ⟨divisor, positive, Nat.mod_eq_zero_of_dvd divides⟩⟩

end Strip

section Trial
variable {n d m r s : Nat}

/-- The state of trial division at the divisor `d`. The prime factors below `d` make up the stripped part `s`,
`m` is left, and the result is the totient of the stripped part times what is left. -/
structure Trial (n d m r s : Nat) : Prop where
  positive : 0 < n
  divisor : d = 2 ∨ 3 ≤ d ∧ d % 2 = 1
  split : n = s * m
  smooth : ∀ p, Nat.Prime p → p ∣ s → p < d
  rough : ∀ p, Nat.Prime p → p ∣ m → d ≤ p
  result : r = s.totient * m

def nextDivisor (d : Nat) : Nat := if d = 2 then 3 else d + 2

theorem nextDivisor_le (divisor : d = 2 ∨ 3 ≤ d ∧ d % 2 = 1) (rough : ∀ p, Nat.Prime p → p ∣ m → d ≤ p)
    (other : ¬d ∣ m) {p : Nat} (prime : Nat.Prime p) (divides : p ∣ m) : nextDivisor d ≤ p := by
  have above := rough p prime divides
  have apart : p ≠ d := fun same => other (same ▸ divides)
  unfold nextDivisor
  split
  · omega
  · have odd := prime.eq_two_or_odd
    omega

theorem Trial.start (positive : 0 < n) : Trial n 2 n n 1 where
  positive := positive
  divisor := .inl rfl
  split := (one_mul n).symm
  smooth p prime divides := absurd (Nat.dvd_one.mp divides) prime.ne_one
  rough p prime _ := prime.two_le
  result := by rw [Nat.totient_one, one_mul]

theorem lt_nextDivisor (d : Nat) : d < nextDivisor d := by
  unfold nextDivisor
  split <;> omega

variable (state : Trial n d m r s)
include state

theorem Trial.parts_pos : 0 < s ∧ 0 < m := by
  have positive := state.positive
  rw [state.split] at positive
  exact CanonicallyOrderedAdd.mul_pos.mp positive

theorem Trial.coprime : s.Coprime m :=
  Nat.coprime_of_dvd fun p prime first second => (state.smooth p prime first).not_ge (state.rough p prime second)

theorem Trial.two_le : 2 ≤ d := by
  have divisor := state.divisor
  omega

theorem Trial.next_divisor : nextDivisor d = 2 ∨ 3 ≤ nextDivisor d ∧ nextDivisor d % 2 = 1 := by
  have divisor := state.divisor
  unfold nextDivisor
  split <;> omega

/-- A divisor of what is left is a prime. -/
theorem Trial.prime (divides : d ∣ m) : Nat.Prime d := by
  have least := Nat.minFac_prime (Nat.ne_of_gt state.two_le)
  have above := state.rough d.minFac least ((Nat.minFac_dvd d).trans divides)
  rw [← le_antisymm (Nat.minFac_le (by have := state.two_le; omega)) above]
  exact least

theorem Trial.pass (other : ¬d ∣ m) : Trial n (nextDivisor d) m r s where
  positive := state.positive
  divisor := state.next_divisor
  split := state.split
  smooth p prime divides := (state.smooth p prime divides).trans (lt_nextDivisor d)
  rough _ prime divides := nextDivisor_le state.divisor state.rough other prime divides
  result := state.result

/-- A divisor of what is left is stripped off with all its powers. -/
theorem Trial.strip (divides : d ∣ m) :
    ∃ s', Trial n (nextDivisor d) (stripFactor d m) (r - r / d) s' := by
  have prime := state.prime divides
  obtain ⟨a, power, gone⟩ := stripFactor_power prime.one_lt state.parts_pos.2
  generalize stripFactor d m = m' at power gone
  obtain ⟨b, rfl⟩ : ∃ b, a = b + 1 := by
    refine Nat.exists_eq_succ_of_ne_zero fun zero => gone ?_
    rwa [power, zero, pow_zero, one_mul] at divides
  refine ⟨s * d ^ (b + 1), state.positive, state.next_divisor, ?_, fun p other factor => ?_,
    fun p other factor => ?_, ?_⟩
  · rw [state.split, power, mul_assoc]
  · rcases other.dvd_mul.mp factor with first | second
    · exact (state.smooth p other first).trans (lt_nextDivisor d)
    · rw [(Nat.prime_dvd_prime_iff_eq other prime).mp (other.dvd_of_dvd_pow second)]
      exact lt_nextDivisor d
  · refine nextDivisor_le state.divisor (fun p other factor => ?_) gone other factor
    exact state.rough p other (power ▸ factor.mul_left _)
  · have coprime : s.Coprime (d ^ (b + 1)) := state.coprime.coprime_dvd_right ⟨m', power⟩
    have share : r / d = s.totient * d ^ b * m' := by
      refine Nat.div_eq_of_eq_mul_right prime.pos ?_
      rw [state.result, power]
      ring
    rw [share, state.result, power, Nat.totient_mul coprime, Nat.totient_prime_pow prime (Nat.succ_pos b),
      Nat.succ_sub_one, Nat.mul_sub_one, Nat.mul_sub, Nat.sub_mul]
    congr 1
    ring

/-- What is left below the square of the divisor is one or a prime, and the loop ends with the totient. -/
theorem Trial.totient_last (small : m < d * d) : (if 1 < m then r - r / m else r) = n.totient := by
  rw [state.split, Nat.totient_mul state.coprime, state.result]
  split
  · next left =>
    have prime : Nat.Prime m := by
      by_contra composite
      have least := state.rough m.minFac (Nat.minFac_prime left.ne') (Nat.minFac_dvd m)
      have square := Nat.minFac_sq_le_self state.parts_pos.2 composite
      exact (Nat.mul_le_mul least least).not_gt (lt_of_le_of_lt (by rwa [← sq]) small)
    rw [Nat.mul_div_cancel _ state.parts_pos.2, Nat.totient_prime prime, Nat.mul_sub_one]
  · next one =>
    have unit : m = 1 := le_antisymm (not_lt.mp one) state.parts_pos.2
    rw [unit, Nat.totient_one]

theorem Trial.exact_last : m ∣ r := by
  rw [state.result]
  exact Nat.dvd_mul_left m _

theorem Trial.exact_share (divides : d ∣ m) : d ∣ r := divides.trans state.exact_last

/-- What is left holds the part of the number without the prime factors that have been tried. -/
theorem Trial.roughPart_rest {bound : Nat} (tried : d ≤ bound + 1) : roughPart bound n = roughPart bound m := by
  rw [state.split]
  refine roughPart_mul (fun p prime divides => ?_) state.parts_pos.1 state.parts_pos.2
  have below := state.smooth p prime divides
  omega

/-- Once all divisors up to a bound have been tried, it is what is left. -/
theorem Trial.roughPart_tried {bound : Nat} (tried : d = bound + 1) : roughPart bound n = m := by
  rw [state.roughPart_rest tried.le]
  refine roughPart_self (fun p prime divides => ?_) state.parts_pos.2
  have above := state.rough p prime divides
  omega

end Trial

section Checked
variable {a d m : Nat}

def exactQuotient? (a d : Nat) : Option Nat := if 0 < d ∧ d ∣ a then some (a / d) else none

theorem exactQuotient?_eq_some {q : Nat} : exactQuotient? a d = some q ↔ (0 < d ∧ d ∣ a) ∧ a / d = q := by
  rw [exactQuotient?, Option.ite_none_right_eq_some, Option.some_inj]

theorem exactQuotient?_exact (positive : 0 < d) (divides : d ∣ a) : exactQuotient? a d = some (a / d) :=
  if_pos ⟨positive, divides⟩

def checkedStrip? (d n : Nat) : Option Nat :=
  if _h : 1 < d ∧ 0 < n ∧ n % d = 0 then
    if d ∣ n then checkedStrip? d (n / d) else none
  else some n
termination_by n
decreasing_by exact Nat.div_lt_self _h.2.1 _h.1

theorem checkedStrip?_eq (d n : Nat) : checkedStrip? d n = some (stripFactor d n) := by
  fun_induction stripFactor d n with
  | case1 n divides ih =>
    rw [checkedStrip?, dif_pos divides, if_pos (Nat.dvd_of_mod_eq_zero divides.2.2)]
    exact ih
  | case2 n stopped => rw [checkedStrip?, dif_neg stopped]

/-- Trial division with every division checked to be exact. There is no answer where one is not. -/
def checkedLoop? : Nat → Nat → Nat → Nat → Option (Option Nat)
  | 0, _, _, _ => some none
  | fuel + 1, divisor, n, result =>
    if n < divisor * divisor then
      if 1 < n then (exactQuotient? result n).map fun share => some (result - share)
      else some (some result)
    else if maxTotientDivisor < divisor then some none
    else if n % divisor = 0 then do
      let rest ← checkedStrip? divisor n
      let share ← exactQuotient? result divisor
      checkedLoop? fuel (nextDivisor divisor) rest (result - share)
    else checkedLoop? fuel (nextDivisor divisor) n result

/-- The checks change no answer. -/
theorem totientLoop_of_checkedLoop? {fuel d m r : Nat} {answer : Option Nat} :
    checkedLoop? fuel d m r = some answer → totientLoop fuel d m r = answer := by
  induction fuel generalizing d m r with
  | zero =>
    rintro ⟨⟩
    rfl
  | succ fuel ih =>
    intro checked
    unfold checkedLoop? at checked
    unfold totientLoop
    split at checked
    · next small =>
      rw [if_pos small]
      split at checked
      · next left =>
        rw [if_pos left]
        obtain ⟨share, quotient, rfl⟩ := Option.map_eq_some_iff.mp checked
        rw [(exactQuotient?_eq_some.mp quotient).2]
      · next one =>
        rw [if_neg one]
        exact Option.some.inj checked
    · next large =>
      rw [if_neg large]
      split at checked
      · next beyond =>
        rw [if_pos beyond]
        exact Option.some.inj checked
      · next within =>
        rw [if_neg within]
        dsimp only
        split at checked
        · next divides =>
          rw [if_pos divides]
          rw [checkedStrip?_eq, Option.bind_eq_bind, Option.bind_some] at checked
          obtain ⟨share, quotient, rest⟩ := Option.bind_eq_some_iff.mp checked
          rw [← (exactQuotient?_eq_some.mp quotient).2] at rest
          exact ih rest
        · next other =>
          rw [if_neg other]
          exact ih checked

/-- The largest divisor that is tried is even, so the one after it is reached exactly. -/
private theorem nextDivisor_within (divisor : d = 2 ∨ 3 ≤ d ∧ d % 2 = 1) (within : d ≤ maxTotientDivisor) :
    nextDivisor d ≤ maxTotientDivisor + 1 := by
  have largest : maxTotientDivisor = 1000000 := rfl
  unfold nextDivisor
  split <;> omega

/-- From every state of trial division all divisions are exact, and the loop ends with the totient unless a
part without small factors is left that is too large to be known as a prime. -/
theorem Trial.checkedLoop?_eq {n : Nat} (fuel : Nat) : ∀ {d m r s : Nat}, Trial n d m r s →
    d ≤ maxTotientDivisor + 1 → maxTotientDivisor + 2 ≤ d + fuel →
    checkedLoop? fuel d m r =
      some (if roughPart maxTotientDivisor n < (maxTotientDivisor + 1) ^ 2 then some n.totient else none) := by
  induction fuel with
  | zero =>
    intro d m r s _ tried allowed
    omega
  | succ fuel ih =>
    intro d m r s state tried allowed
    have allowed_next : maxTotientDivisor + 2 ≤ nextDivisor d + fuel := by
      have later := lt_nextDivisor d
      omega
    unfold checkedLoop?
    split
    · next small =>
      have known : roughPart maxTotientDivisor n < (maxTotientDivisor + 1) ^ 2 := by
        calc roughPart maxTotientDivisor n = roughPart maxTotientDivisor m := state.roughPart_rest tried
          _ ≤ m := roughPart_le maxTotientDivisor state.parts_pos.2
          _ < d * d := small
          _ ≤ (maxTotientDivisor + 1) * (maxTotientDivisor + 1) := Nat.mul_le_mul tried tried
          _ = _ := (sq _).symm
      rw [if_pos known, ← state.totient_last small, exactQuotient?_exact state.parts_pos.2 state.exact_last]
      split <;> rfl
    · next large =>
      split
      · next beyond =>
        have last : d = maxTotientDivisor + 1 := by omega
        rw [state.roughPart_tried last, ← last, sq, if_neg large]
      · next within =>
        have tried_next := nextDivisor_within state.divisor (not_lt.mp within)
        split
        · next divides =>
          have factor := Nat.dvd_of_mod_eq_zero divides
          obtain ⟨s', stripped⟩ := state.strip factor
          rw [checkedStrip?_eq, exactQuotient?_exact (state.prime factor).pos (state.exact_share factor)]
          exact ih stripped tried_next allowed_next
        · next other =>
          exact ih (state.pass fun factor => other (Nat.mod_eq_zero_of_dvd factor)) tried_next allowed_next

theorem checkedLoop?_start {n : Nat} (positive : 0 < n) : checkedLoop? maxTotientDivisor 2 n n =
    some (if roughPart maxTotientDivisor n < (maxTotientDivisor + 1) ^ 2 then some n.totient else none) :=
  Trial.checkedLoop?_eq maxTotientDivisor (.start positive) (by decide) (by omega)

/-- The totient is found unless a large part without small factors is left. -/
theorem totient?_eq {n : Nat} (positive : 0 < n) : totient? n =
    if roughPart maxTotientDivisor n < (maxTotientDivisor + 1) ^ 2 then some n.totient else none :=
  totientLoop_of_checkedLoop? (checkedLoop?_start positive)

end Checked

/-- The totient of a positive number is the count of the numbers up to it that are coprime to it. It is
refused exactly if the part without the prime factors up to 1000000 is 1000001 squared or more, and the loop
with every division checked to be exact gives the same answer. -/
theorem phi?_totient {n : Nat} (positive : 1 ≤ n) :
    (∀ z, phi? (ofInt n) = some z → z = ofInt ((Finset.Icc 1 n).filter n.Coprime).card) ∧
    (phi? (ofInt n) = none ↔ 1000001 ^ 2 ≤ roughPart 1000000 n) ∧
    checkedLoop? maxTotientDivisor 2 n n = some (totient? n) := by
  have largest : maxTotientDivisor = 1000000 := rfl
  have answered : phi? (ofInt n) =
      (if roughPart 1000000 n < 1000001 ^ 2 then some n.totient else none).map fun t : Nat => ofInt t := by
    have whole : (ofInt n).integer? = some (n : Int) := integer?_eq_some.mpr rfl
    rw [phi?, whole]
    dsimp only
    rw [if_neg (by omega), Int.toNat_natCast, totient?_eq positive, largest]
    split <;> rfl
  have count : ((Finset.Icc 1 n).filter n.Coprime).card = n.totient := by
    have interval : Finset.Icc 1 n = Finset.Ico 1 (1 + n) := by
      ext a
      simp only [Finset.mem_Icc, Finset.mem_Ico]
      omega
    rw [interval, Nat.filter_coprime_Ico_eq_totient]
  refine ⟨fun z found => ?_, ?_, ?_⟩
  · rw [answered, Option.map_eq_some_iff] at found
    obtain ⟨t, given, rfl⟩ := found
    rw [Option.ite_none_right_eq_some, Option.some_inj] at given
    rw [count, given.2]
  · rw [answered, Option.map_eq_none_iff, ← not_lt]
    split <;> simp_all
  · rw [checkedLoop?_start positive, totient?_eq positive]

/-- The totient of 36 is 12, and that of the square of the prime 1000003 is refused. -/
theorem phi?_totient_square : phi? (ofInt 36) = some (ofInt 12) ∧ phi? (ofInt (1000003 ^ 2)) = none := by
  constructor
  · obtain ⟨counted, refused, -⟩ := phi?_totient (n := 36) (by decide)
    cases found : phi? (ofInt 36) with
    | none =>
      have large := (refused.mp found).trans (roughPart_le 1000000 (by decide))
      omega
    | some z =>
      have twelve : ((Finset.Icc 1 36).filter (Nat.Coprime 36)).card = 12 := by decide
      rw [counted z found, twelve]
      rfl
  · obtain ⟨-, refused, -⟩ := phi?_totient (n := 1000003 ^ 2) (by decide)
    have prime : Nat.Prime 1000003 := by norm_num
    refine refused.mpr ?_
    rw [roughPart_self (fun p factor divides => ?_) (by decide)]
    · exact Nat.pow_le_pow_left (by omega) 2
    · rw [(Nat.prime_dvd_prime_iff_eq factor prime).mp (factor.dvd_of_dvd_pow divides)]
      omega

end ComputerAlgebra.Number
