import ComputerAlgebra.Proofs.Termination.Descent
import ComputerAlgebra.Proofs.Termination.Substitution
import Mathlib.Algebra.Order.Ring.Basic
import Mathlib.Tactic.Linarith

/-!
Expressions in which functions are not passed as arguments. A reduction may copy its argument, but there is no
function in what is copied, so each reduction takes a function away and at most squares the weight.
-/

namespace ComputerAlgebra.Expr

/-- Nothing occurs more often than there is weight. -/
theorem occurrences_le_weight (x : String) (e : Expr) : e.occurrences x ≤ e.weight := by
  induction e using children_induction with
  | node e ih =>
    rcases shape e with ⟨z, rfl⟩ | ⟨b, rfl⟩ | ⟨y, rfl⟩ | ⟨p, body, rfl⟩ | ⟨h, headed⟩
    · exact Nat.zero_le _
    · exact Nat.zero_le _
    · rw [occurrences_var]
      split
      · exact weight_pos _
      · exact Nat.zero_le _
    · rw [weight_lam]
      have inner := ih body (by simp [children])
      by_cases same : p = x
      · rw [same, occurrences_lam_self]
        exact Nat.zero_le _
      · rw [occurrences_lam same]
        omega
    · rw [occurrences_head headed, weight_additive.head headed]
      exact Nat.le_add_left_of_le (List.sum_le_sum ih)

section Powers

/-- Sums of powers, with exponents that add up. -/
private theorem add_le_pow {a a' b b' d d' : Nat} (first : a' ≤ a ^ 2 ^ d) (second : b' ≤ b ^ 2 ^ d')
    (pos : 1 ≤ a) (pos' : 1 ≤ b) : a' + b' ≤ (a + b) ^ 2 ^ (d + d') := by
  have left : a ^ 2 ^ d ≤ a ^ 2 ^ (d + d') :=
    Nat.pow_le_pow_right pos (Nat.pow_le_pow_right (by omega) (Nat.le_add_right d d'))
  have right : b ^ 2 ^ d' ≤ b ^ 2 ^ (d + d') :=
    Nat.pow_le_pow_right pos' (Nat.pow_le_pow_right (by omega) (Nat.le_add_left d' d))
  have both := pow_add_pow_le (Nat.zero_le a) (Nat.zero_le b) (Nat.two_pow_pos (d + d')).ne'
  omega

private theorem le_pow_two_pow {n : Nat} (pos : 1 ≤ n) (d : Nat) : n ≤ n ^ 2 ^ d := by
  calc n = n ^ 1 := (pow_one n).symm
    _ ≤ n ^ 2 ^ d := Nat.pow_le_pow_right pos (Nat.one_le_two_pow)

end Powers

/-- No function is passed as an argument or inside of one, and the parameters are variables. -/
structure FirstOrder (e : Expr) : Prop where
  wellNamed : e.constantParameters = 0
  ground : e.passed = 0

namespace FirstOrder

theorem lam {p : String} {body : Expr} :
    FirstOrder (.lam p body) ↔ isConstantName p = false ∧ FirstOrder body := by
  constructor
  · rintro ⟨wellNamed, ground⟩
    obtain ⟨plain, inner⟩ := constantParameters_lam.mp wellNamed
    exact ⟨plain, inner, passed_lam p body ▸ ground⟩
  · rintro ⟨plain, inner⟩
    exact ⟨constantParameters_lam.mpr ⟨plain, inner.wellNamed⟩, (passed_lam p body).trans inner.ground⟩

theorem part {e part : Expr} (firstOrder : FirstOrder e) (member : part ∈ e.children) : FirstOrder part := by
  rcases shape e with ⟨z, rfl⟩ | ⟨b, rfl⟩ | ⟨x, rfl⟩ | ⟨p, body, rfl⟩ | ⟨h, headed⟩
  · cases member
  · cases member
  · cases member
  · simp only [children, List.mem_cons, List.not_mem_nil, or_false] at member
    rcases member with rfl | rfl
    · exact ⟨rfl, rfl⟩
    · exact (lam.mp firstOrder).2
  · have named := constantParameters_additive.part_le headed member
    have passed := passed_additive.part_le headed member
    exact ⟨by have := firstOrder.wellNamed; omega, by have := firstOrder.ground; omega⟩

/-- What may become of an expression: one with fewer functions, whose weight has been squared at most once for
each function that is gone. -/
structure Next (e r : Expr) : Prop where
  firstOrder : FirstOrder r
  fewer : r.functions ≤ e.functions
  bounded : r.weight ≤ e.weight ^ 2 ^ (e.functions - r.functions)

/-- Two to the functions is how often the weight may be squared. -/
def rank (e : Expr) : Nat := (e.weight + 2) ^ 2 ^ e.functions

theorem rank_lt_of_lighter {e r : Expr} (lighter : r.weight < e.weight) (fewer : r.functions ≤ e.functions) :
    rank r < rank e := by
  calc rank r < (e.weight + 2) ^ 2 ^ r.functions :=
        Nat.pow_lt_pow_left (by omega) (Nat.two_pow_pos _).ne'
    _ ≤ rank e := Nat.pow_le_pow_right (by omega) (Nat.pow_le_pow_right (by omega) fewer)

theorem rank_le_of_next {e r : Expr} (next : Next e r) : rank r ≤ rank e := by
  have split : e.functions - r.functions + r.functions = e.functions := Nat.sub_add_cancel next.fewer
  have step : r.weight + 2 ≤ (e.weight + 2) ^ 2 ^ (e.functions - r.functions + 0) :=
    add_le_pow next.bounded (show 2 ≤ 2 ^ 2 ^ 0 by norm_num) (weight_pos e) (by omega)
  calc rank r ≤ ((e.weight + 2) ^ 2 ^ (e.functions - r.functions)) ^ 2 ^ r.functions :=
        Nat.pow_le_pow_left step _
    _ = rank e := by rw [← pow_mul, ← pow_add, split, rank]

theorem within {e r : Expr} (firstOrder : FirstOrder e) (small : Within 1 e r) : Next e r where
  firstOrder := ⟨Nat.le_zero.mp (firstOrder.wellNamed ▸ small.le constantParameters_additive),
    Nat.le_zero.mp (firstOrder.ground ▸ small.le passed_additive)⟩
  fewer := small.le functions_additive
  bounded := (small.le weight_additive).trans (le_pow_two_pow (weight_pos e) _)

private theorem sums_bounded {es rs : List Expr} (related : List.Forall₂ Next es rs) :
    (rs.map functions).sum ≤ (es.map functions).sum ∧ ∀ {c : Nat}, 1 ≤ c →
      c + (rs.map weight).sum ≤
        (c + (es.map weight).sum) ^ 2 ^ ((es.map functions).sum - (rs.map functions).sum) := by
  induction related with
  | nil => exact ⟨le_refl _, fun pos => le_pow_two_pow (by omega) _⟩
  | @cons e r es rs first _ ih =>
    have fewer := first.fewer
    obtain ⟨others, bound⟩ := ih
    refine ⟨Nat.add_le_add fewer others, fun {c} pos => ?_⟩
    have both := add_le_pow first.bounded (bound pos) (weight_pos e) (by omega)
    simp only [List.map_cons, List.sum_cons]
    calc c + (r.weight + (rs.map weight).sum) = r.weight + (c + (rs.map weight).sum) := by omega
      _ ≤ _ := both
      _ = _ := by
        congr 1
        · omega
        · congr 1
          omega

/-- A body that weighs `b` with `n` copies of an argument that weighs `a` is within the square of the
application. -/
private theorem copied_le {a b n r s : Nat} (copied : s ≤ b + n * a) (few : n ≤ b) :
    12 + (s + r) ≤ (12 + (2 + b + (a + r))) ^ 2 := by
  have := Nat.mul_le_mul_right a few
  nlinarith [Nat.zero_le (b * r), Nat.zero_le (a * r), Nat.zero_le (b * a)]

private theorem reduced {f r : Expr} {args : List Expr} (firstOrder : FirstOrder (.app f args))
    (taken : beta? f args = .ok (some r)) :
    Next (.app f args) r ∧ rank r < rank (.app f args) := by
  obtain ⟨p, body, a, rest, s, rfl, rfl, answer, rfl⟩ := beta?_cases taken
  obtain ⟨plain, inner⟩ := lam.mp (firstOrder.part (List.mem_cons_self : Expr.lam p body ∈ _))
  have argument := firstOrder.part (show a ∈ (Expr.app (.lam p body) (a :: rest)).children by simp [children])
  have counts := substituted inner.wellNamed answer
  have named := firstOrder.wellNamed
  have ground := firstOrder.ground
  rw [constantParameters_additive.app] at named
  rw [passed_additive.app] at ground
  simp only [List.map_cons, List.sum_cons] at named ground
  have none : a.functions = 0 := by omega
  have whole : (Expr.app (.lam p body) (a :: rest)).weight
      = 12 + (2 + body.weight + (a.weight + (rest.map weight).sum)) := by
    rw [weight_additive.app, weight_lam]
    simp only [List.map_cons, List.sum_cons]
    omega
  have functions_whole : (Expr.app (.lam p body) (a :: rest)).functions
      = 1 + body.functions + (rest.map functions).sum := by
    rw [functions_additive.app, functions_lam]
    simp only [List.map_cons, List.sum_cons]
    omega
  generalize (Expr.app (.lam p body) (a :: rest)) = e at whole functions_whole
  have bounded : (if rest.isEmpty then s else .app s rest).weight ≤ e.weight ^ 2 := by
    have applied := weight_additive.applied_le s rest
    have square := copied_le (r := (rest.map weight).sum) counts.weight (occurrences_le_weight p body)
    rw [whole]
    omega
  have fewer : (if rest.isEmpty then s else .app s rest).functions + 1 ≤ e.functions := by
    have applied := functions_additive.applied_le s rest
    have gone := counts.functions
    rw [none] at gone
    omega
  have wellNamed := constantParameters_additive.applied_le s rest
  have passed := passed_additive.applied_le s rest
  generalize (if rest.isEmpty then s else .app s rest) = r at bounded fewer wellNamed passed
  have nothing := counts.constants
  have still := counts.passed none
  rw [argument.wellNamed, inner.wellNamed] at nothing
  rw [argument.ground, inner.ground] at still
  have step : 2 ^ r.functions * 2 ≤ 2 ^ e.functions := by
    rw [← pow_succ]
    exact Nat.pow_le_pow_right (by omega) fewer
  refine ⟨⟨⟨by omega, by omega⟩, by omega, bounded.trans ?_⟩, ?_⟩
  · refine Nat.pow_le_pow_right (weight_pos e) ?_
    calc 2 = 2 ^ 1 := rfl
      _ ≤ 2 ^ (e.functions - r.functions) := Nat.pow_le_pow_right (by omega) (by omega)
  · have square : r.weight + 2 < (e.weight + 2) ^ 2 := by nlinarith [weight_pos e]
    calc rank r < ((e.weight + 2) ^ 2) ^ 2 ^ r.functions :=
          Nat.pow_lt_pow_left square (Nat.two_pow_pos _).ne'
      _ = (e.weight + 2) ^ (2 ^ r.functions * 2) := by rw [← pow_mul, Nat.mul_comm]
      _ ≤ rank e := Nat.pow_le_pow_right (by omega) step

/-- Where no argument has a function in it, none has one afterwards. -/
private theorem arguments_ground {e : Expr} {h : Head} {parts : List Expr} (headed : e.head? = some h)
    (related : List.Forall₂ Next e.children parts) (ground : e.argumentFunctions = 0) :
    (e.withChildren parts).argumentFunctions = 0 := by
  cases e with
  | app f args =>
    cases related with
    | cons first rest =>
      have fewer := (sums_bounded rest).1
      simp only [argumentFunctions] at ground
      simp only [withChildren, argumentFunctions]
      omega
  | _ =>
    rw [argumentFunctions_other]
    rw [(withChildren_head headed related.length_eq.symm).1, ← headed]
    simp [head?]

/-- Expressions of first order descend by their rank. -/
theorem descent (same : Expr → Expr → Prop) [DecidableRel same] : Descent same FirstOrder Next rank where
  parameter firstOrder := (lam.mp firstOrder).1
  parts firstOrder member := ⟨firstOrder.part member, rank_lt_of_lighter (weight_part member) (functions_part member)⟩
  kept _ next := ⟨next.firstOrder, rank_le_of_next next⟩
  trans {e r s} first second := by
    refine ⟨second.firstOrder, second.fewer.trans first.fewer, ?_⟩
    have steps : e.functions - r.functions + (r.functions - s.functions) = e.functions - s.functions := by
      have := first.fewer
      have := second.fewer
      omega
    calc s.weight ≤ r.weight ^ 2 ^ (r.functions - s.functions) := second.bounded
      _ ≤ (e.weight ^ 2 ^ (e.functions - r.functions)) ^ 2 ^ (r.functions - s.functions) :=
        Nat.pow_le_pow_left first.bounded _
      _ = e.weight ^ 2 ^ (e.functions - s.functions) := by rw [← pow_mul, ← pow_add, steps]
  within := within
  node {e h parts} firstOrder headed becomes := by
    have related : List.Forall₂ Next e.children parts := becomes.imp fun _ _ after => after.made
    obtain ⟨still, new⟩ := withChildren_head headed related.length_eq.symm
    obtain ⟨fewer, bounded⟩ := sums_bounded related
    have wellNamed := constantParameters_additive.rebuilt_le headed
      (related.imp fun e r next => (next.firstOrder.wellNamed ▸ Nat.zero_le _ : r.constantParameters ≤ _))
    have total : (e.withChildren parts).functions = (parts.map functions).sum := by
      simp [functions_additive.head still, new]
    have before : e.functions = (e.children.map functions).sum := by simp [functions_additive.head headed]
    refine ⟨⟨Nat.le_zero.mp (firstOrder.wellNamed ▸ wellNamed), ?_⟩, by omega, ?_⟩
    · have ground := firstOrder.ground
      have each : (parts.map passed).sum = 0 := by
        refine List.sum_eq_zero fun n member => ?_
        obtain ⟨part, inside, rfl⟩ := List.mem_map.mp member
        exact forall_related related (fun _ _ _ next => next.firstOrder.ground) part inside
      rw [passed_additive.head still, new, each, Nat.add_zero, Nat.zero_mul, Nat.zero_add, Nat.one_mul]
      exact arguments_ground headed related (by rw [passed_additive.head headed] at ground; omega)
    · rw [weight_additive.head still, weight_additive.head headed, new, total, before]
      simpa using bounded h.weight_pos
  lam {p body r} firstOrder next := by
    obtain ⟨plain, _⟩ := lam.mp firstOrder
    have fewer := next.fewer
    refine ⟨lam.mpr ⟨plain, next.firstOrder⟩, ?_, ?_⟩
    · rw [functions_lam, functions_lam]
      omega
    · have bound := add_le_pow (show 2 ≤ 2 ^ 2 ^ 0 by norm_num) next.bounded (by omega) (weight_pos body)
      rw [weight_lam, weight_lam, functions_lam, functions_lam]
      refine bound.trans (le_of_eq ?_)
      congr 2
      omega
  eta {p f} firstOrder absent := by
    have member : f ∈ (Expr.app f [.var p]).children := by simp [children]
    have inner := (lam.mp firstOrder).2
    have lighter := weight_part member
    have fewer := functions_part member
    refine ⟨inner.part member, ?_, ?_⟩
    · rw [functions_lam]
      omega
    · refine le_trans ?_ (le_pow_two_pow (weight_pos _) _)
      rw [weight_lam]
      omega
  reduced {self f args r} firstOrder step := by
    rcases variant_reduceOnce?_cases step with ⟨name, rfl, known⟩ | taken
    · have small : Within 1 _ r := within_builtin? name args r known
      exact ⟨within firstOrder small, rank_lt_of_lighter (weight_builtin? known) (small.le functions_additive)⟩
    · exact reduced firstOrder taken

end FirstOrder
end ComputerAlgebra.Expr
