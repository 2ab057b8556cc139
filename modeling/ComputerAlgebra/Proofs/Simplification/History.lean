import Mathlib.Data.Rat.Defs
import Mathlib.Tactic.Linarith
import Mathlib.Tactic.NormNum
import ComputerAlgebra.Proofs.Simplification.Rounds

/-!
How many rounds simplification takes. The rounds are run again with all candidates that they have found,
and each round that is begun is noted, also one that fails. After a round the loop goes on only if the
best score has become lower. Scores are whole numbers of half points, so twice the score of the first
candidate bounds the rounds, whatever the level allows.
-/

namespace ComputerAlgebra.Expr

def simplicity (e : Expr) : ℚ := e.score / 2

theorem score_eq (e : Expr) : e.score = e.ownScore + (e.children.map score).sum := by
  rw [score, fold_eq]
  rfl

theorem four_le_ownScore (e : Expr) : 4 ≤ e.ownScore := by
  have real (r : RealNumber) : 4 ≤ r.score := by
    unfold RealNumber.score
    dsimp only
    omega
  have number (z : Number) : 4 ≤ z.score := by
    cases z with
    | real r => exact real r
    | complex re im =>
      rw [Number.score]
      omega
  unfold ownScore
  split
  · exact number _
  all_goals first | omega | (split <;> omega)

theorem four_le_score (e : Expr) : 4 ≤ e.score := by
  rw [score_eq]
  exact Nat.le_add_right_of_le (four_le_ownScore e)

section Simplest

private theorem foldl_simplest_score (candidates : List Expr) : ∀ first : Expr,
    candidates.foldl (fun (best, least) e =>
      let s := e.score
      if s < least then (e, s) else (best, least)) (first, first.score)
      = (simplest first candidates, (simplest first candidates).score) := by
  induction candidates with
  | nil => exact fun _ => rfl
  | cons e candidates ih =>
    intro first
    unfold simplest
    rw [List.foldl_cons]
    dsimp only
    split
    · exact ih e
    · exact ih first

theorem simplest_append (first : Expr) (es fs : List Expr) :
    simplest first (es ++ fs) = simplest (simplest first es) fs := by
  rw [simplest, List.foldl_append, foldl_simplest_score]
  rfl

theorem simplest_cons (first e : Expr) (rest : List Expr) :
    simplest first (e :: rest) = simplest (if e.score < first.score then e else first) rest := by
  unfold simplest
  rw [List.foldl_cons]
  dsimp only
  split <;> rfl

/-- The first candidate gives way only to a lower score. -/
theorem simplest_lower (candidates : List Expr) : ∀ first : Expr,
    simplest first candidates = first ∨ (simplest first candidates).score < first.score := by
  induction candidates with
  | nil => exact fun _ => .inl rfl
  | cons e candidates ih =>
    intro first
    rw [simplest_cons]
    split
    · next lower =>
      rcases ih e with same | less
      · rw [same]
        exact .inr lower
      · exact .inr (less.trans lower)
    · exact ih first

theorem simplest_score_le {first e : Expr} {rest : List Expr} (member : e ∈ first :: rest) :
    (simplest first rest).score ≤ e.score := by
  have below (best : Expr) (later : List Expr) : (simplest best later).score ≤ best.score := by
    rcases simplest_lower later best with same | lower
    · rw [same]
    · exact lower.le
  rcases List.mem_cons.mp member with rfl | later
  · exact below e rest
  · obtain ⟨es, fs, rfl⟩ := List.append_of_mem later
    rw [simplest_append, simplest_cons]
    refine (below _ fs).trans ?_
    split
    · exact le_refl _
    · next higher => exact not_lt.mp higher

end Simplest

/-- The candidates of a call so far, with the first of them apart. -/
structure History where
  first : Expr
  later : List Expr

namespace History

def start (e : Expr) : History := ⟨e, []⟩

def best (h : History) : Expr := simplest h.first h.later

def add (h : History) (es : List Expr) : History := ⟨h.first, h.later ++ es⟩

@[simp] theorem best_start (e : Expr) : (start e).best = e := rfl

@[simp] theorem first_add (h : History) (es : List Expr) : (h.add es).first = h.first := rfl

@[simp] theorem best_add (h : History) (es : List Expr) : (h.add es).best = simplest h.best es :=
  simplest_append h.first h.later es

/-- The second history has grown from the first, and its best candidate is strictly simpler. -/
def Improves (h next : History) : Prop :=
  (∃ es, next = h.add es) ∧ next.best.simplicity < h.best.simplicity

theorem improves_add {h : History} {es : List Expr} (changed : (h.add es).best ≠ h.best) :
    h.Improves (h.add es) := by
  refine ⟨⟨es, rfl⟩, ?_⟩
  rw [best_add] at changed ⊢
  have lower := (simplest_lower es h.best).resolve_left changed
  unfold simplicity
  have cast : ((simplest h.best es).score : ℚ) < h.best.score := by exact_mod_cast lower
  linarith

end History

/-- A computation that notes the histories with which its rounds begin. What has been noted stays when
a round fails. -/
abbrev Observed := EStateM Fault (FloatUnit × List History)

namespace Observed

def of {α : Type} (m : Computation α) : Observed α := fun (u, noted) =>
  match m u with
  | .ok a w => .ok a (w, noted)
  | .error f w => .error f (w, noted)

def note (h : History) : Observed Unit := modify fun (u, noted) => (u, noted ++ [h])

def rounds (c : Config) : Nat → History → Observed History
  | 0, h => return h
  | n + 1, h => do
    note h
    let next := h.add (← of (candidates c h.best))
    if next.best = h.best then return next else rounds c n next

def settledOrBest (c : Config) (level : Int) (e : Expr) : Observed (History × Bool) := do
  if e.children.isEmpty then return (.start e, true)
  let first ← of (e.innerSimplified c)
  if first.children.isEmpty then return (.start first, true)
  return (← rounds c level.natAbs (.start first), false)

def simplifyCompact (c : Config) (level : Int) (e : Expr) : Observed Expr := do
  of (checkDepth c e)
  return (← settledOrBest c level e).1.best

def simplify (c : Config) (level : Int) (e : Expr) : Observed Expr := do
  of (checkDepth c e)
  let (h, settled) ← settledOrBest c level e
  if settled || level ≤ 0 then return h.best
  let expanded ← of (h.best.expand c)
  if expanded = h.best then return h.best
  return (h.add [← simplifyCompact c level expanded]).best

end Observed

def withNotes {α : Type} (noted : List History) :
    EStateM.Result Fault FloatUnit α → EStateM.Result Fault (FloatUnit × List History) α
  | .ok a w => .ok a (w, noted)
  | .error f w => .error f (w, noted)

/-- The notes of one loop: they begin with the first candidate alone, each history after that improves on
the one before it, and there are no more of them than the score of the first candidate allows. -/
structure Measured (first : Expr) (noted : List History) : Prop where
  begins : ∀ h ∈ noted.head?, h = .start first
  improves : noted.IsChain History.Improves
  bounded : (noted.length : ℚ) ≤ 2 * first.simplicity + 1

def Improving (h : History) (noted : List History) : Prop :=
  (∀ h' ∈ noted.head?, h' = h) ∧ noted.IsChain History.Improves

namespace Improving

theorem nil (h : History) : Improving h [] := ⟨by simp, .nil⟩

theorem single (h : History) : Improving h [h] := ⟨by simp, .singleton h⟩

theorem cons {h next : History} {noted : List History} (step : h.Improves next)
    (rest : Improving next noted) : Improving h (h :: noted) := by
  cases noted with
  | nil => exact single h
  | cons h' noted =>
    obtain rfl : h' = next := rest.1 h' rfl
    exact ⟨by simp, List.isChain_cons_cons.mpr ⟨step, rest.2⟩⟩

/-- Each round but the last lowers the best score by half a point or more. -/
theorem length_le {noted : List History} : ∀ {h : History}, Improving h noted →
    noted.length ≤ h.best.score + 1 := by
  induction noted with
  | nil => exact fun _ => Nat.zero_le _
  | cons h' noted ih =>
    rintro h ⟨begins, chain⟩
    obtain rfl : h' = h := begins h' rfl
    cases noted with
    | nil => simp
    | cons next noted =>
      rw [List.isChain_cons_cons] at chain
      have rest : (next :: noted).length ≤ next.best.score + 1 := ih ⟨by simp, chain.2⟩
      have lower : next.best.score < h'.best.score := by
        have points := chain.1.2
        unfold simplicity at points
        have cast : (next.best.score : ℚ) < h'.best.score := by linarith
        exact_mod_cast cast
      rw [List.length_cons]
      omega

theorem measured {e : Expr} {noted : List History} (given : Improving (.start e) noted) :
    Measured e noted := by
  refine ⟨given.1, given.2, ?_⟩
  have count : (noted.length : ℚ) ≤ e.score + 1 := by exact_mod_cast given.length_le
  unfold simplicity
  linarith

end Improving

/-- Begun with the unit `u`, the observed computation does as the plain one does, whose results are those
of the observed one seen through `view`. What it notes satisfies `P`, and its results `Q`. -/
def Observes {α β : Type} (u : FloatUnit) (m : Observed α) (view : α → β) (m' : Computation β)
    (P : List History → Prop) (Q : α → FloatUnit → Prop) : Prop :=
  ∀ before, ∃ noted, P noted ∧
    ((∃ a w, m (u, before) = .ok a (w, before ++ noted) ∧ m' u = .ok (view a) w ∧ Q a w) ∨
      ∃ f w, m (u, before) = .error f (w, before ++ noted) ∧ m' u = .error f w)

namespace Observes

variable {α β α' β' : Type} {u : FloatUnit} {m : Observed α} {view : α → β} {m' : Computation β}
  {view' : α' → β'} {P R S : List History → Prop} {Q : α → FloatUnit → Prop}
  {Q' : α' → FloatUnit → Prop}

theorem pure {a : α} {b : β} (seen : view a = b) (none : P []) (holds : Q a u) :
    Observes u (pure a) view (pure b) P Q := by
  intro before
  refine ⟨[], none, .inl ⟨a, u, ?_, ?_, holds⟩⟩
  · rw [List.append_nil]
    rfl
  · rw [seen]
    rfl

/-- A plain part notes nothing. -/
theorem of {m : Computation α} :
    Observes u (Observed.of m) id m (· = []) fun a w => m u = .ok a w := by
  intro before
  refine ⟨[], rfl, ?_⟩
  rw [List.append_nil]
  unfold Observed.of
  dsimp only
  cases run : m u with
  | ok a w => exact .inl ⟨a, w, rfl, rfl, rfl⟩
  | error f w => exact .inr ⟨f, w, rfl, rfl⟩

theorem bind {f : α → Observed α'} {f' : β → Computation β'} (first : Observes u m view m' P Q)
    (next : ∀ a w, Q a w → Observes w (f a) view' (f' (view a)) R Q')
    (alone : ∀ own, P own → S own) (both : ∀ own rest, P own → R rest → S (own ++ rest)) :
    Observes u (m >>= f) view' (m' >>= f') S Q' := by
  intro before
  change ∃ noted, S noted ∧
    ((∃ b w, EStateM.bind m f (u, before) = .ok b (w, before ++ noted)
        ∧ EStateM.bind m' f' u = .ok (view' b) w ∧ Q' b w) ∨
      ∃ fault w, EStateM.bind m f (u, before) = .error fault (w, before ++ noted)
        ∧ EStateM.bind m' f' u = .error fault w)
  unfold EStateM.bind
  obtain ⟨own, owned, ⟨a, w, run, run', holds⟩ | ⟨fault, w, run, run'⟩⟩ := first before
  · obtain ⟨rest, rested, outcome⟩ := next a w holds (before ++ own)
    refine ⟨own ++ rest, both own rest owned rested, ?_⟩
    rw [run, run', ← List.append_assoc]
    exact outcome
  · refine ⟨own, alone own owned, .inr ⟨fault, w, ?_, ?_⟩⟩
    · rw [run]
    · rw [run']

/-- What goes on after a plain part notes all there is to note. -/
theorem of_bind {m : Computation α} {f : α → Observed α'} {f' : α → Computation β'} (none : P [])
    (next : ∀ a w, m u = .ok a w → Observes w (f a) view' (f' a) P Q') :
    Observes u (Observed.of m >>= f) view' (m >>= f') P Q' := by
  refine bind of next ?_ ?_
  · rintro _ rfl
    exact none
  · rintro _ rest rfl given
    exact given

theorem note {h : History} {f : Unit → Observed α} (rest : Observes u (f ()) view m' P Q)
    (added : ∀ noted, P noted → S (h :: noted)) :
    Observes u (Observed.note h >>= f) view m' S Q := by
  intro before
  obtain ⟨noted, holds, outcome⟩ := rest (before ++ [h])
  rw [List.append_assoc, List.singleton_append] at outcome
  exact ⟨h :: noted, added noted holds, outcome⟩

theorem mono (given : Observes u m view m' P Q) (noted : ∀ own, P own → S own) :
    Observes u m view m' S Q := by
  intro before
  obtain ⟨own, holds, outcome⟩ := given before
  exact ⟨own, noted own holds, outcome⟩

end Observes

/-- The loop that keeps its whole history does what the loop does that keeps the best candidate, and after
each round that it goes on from, the best score is lower. -/
theorem observes_rounds (c : Config) (n : Nat) : ∀ (h : History) (u : FloatUnit),
    Observes u (Observed.rounds c n h) History.best (rounds c n h.best) (Improving h)
      fun _ _ => True := by
  induction n with
  | zero => exact fun h u => .pure rfl (.nil h) trivial
  | succ n ih =>
    intro h u
    refine .note (P := fun noted => Improving h (h :: noted)) ?_ fun _ noted => noted
    refine .of_bind (.single h) fun es v _ => ?_
    dsimp only
    rw [History.best_add]
    split
    · next same =>
      refine .pure ?_ (.single h) trivial
      rw [History.best_add, same]
    · next changed =>
      rw [← History.best_add]
      refine (ih (h.add es) v).mono fun noted improving => ?_
      refine improving.cons (History.improves_add ?_)
      rwa [History.best_add]

/-- The notes of the loop of a call on `e` that begins with the unit `u`, if it comes to a loop. -/
def LoopNotes (c : Config) (e : Expr) (u : FloatUnit) (noted : List History) : Prop :=
  noted = [] ∨ ∃ first v, e.innerSimplified c u = .ok first v ∧ Measured first noted

/-- The notes of the call on the expanded form of what the first loop has found, which only a positive
level makes. -/
def ExpandedNotes (c : Config) (level : Int) (noted : List History) : Prop :=
  noted = [] ∨ 0 < level ∧ ∃ (best expanded : Expr) (u v : FloatUnit),
    best.expand c u = .ok expanded v ∧ LoopNotes c expanded v noted

private theorem observes_depth {α β : Type} {c : Config} {e : Expr} {u : FloatUnit} {m : Observed α}
    {m' : Computation β} {view : α → β} {P : List History → Prop} {Q : α → FloatUnit → Prop}
    (none : P []) (next : Observes u m view m' P Q) :
    Observes u (do Observed.of (checkDepth c e); m) view (do checkDepth c e; m') P Q := by
  refine .of_bind none fun _ v depth => ?_
  cases shallow : e.checkDepth c with
  | ok =>
    rw [shallow] at depth
    cases depth
    exact next
  | error f =>
    rw [shallow] at depth
    cases depth

theorem observes_settledOrBest (c : Config) (level : Int) (e : Expr) (u : FloatUnit) :
    Observes u (Observed.settledOrBest c level e) (fun r => (r.1.best, r.2)) (settledOrBest c level e)
      (LoopNotes c e u) fun _ _ => True := by
  unfold Observed.settledOrBest settledOrBest
  split
  · exact .pure rfl (.inl rfl) trivial
  refine .of_bind (.inl rfl) fun first v reduced => ?_
  split
  · exact .pure rfl (.inl rfl) trivial
  refine .bind (observes_rounds c level.natAbs (.start first) v)
    (fun h w _ => .pure (P := (· = [])) rfl rfl trivial) ?_ ?_
  · exact fun noted improving => .inr ⟨first, v, reduced, improving.measured⟩
  · rintro noted _ improving rfl
    rw [List.append_nil]
    exact .inr ⟨first, v, reduced, improving.measured⟩

theorem observes_simplifyCompact (c : Config) (level : Int) (e : Expr) (u : FloatUnit) :
    Observes u (Observed.simplifyCompact c level e) id (simplifyCompact c level e) (LoopNotes c e u)
      fun _ _ => True := by
  refine observes_depth (.inl rfl) ?_
  refine .bind (observes_settledOrBest c level e u)
    (fun h w _ => .pure (P := (· = [])) rfl rfl trivial) (fun _ noted => noted) ?_
  rintro noted _ loop rfl
  rwa [List.append_nil]

theorem observes_simplify (c : Config) (level : Int) (e : Expr) (u : FloatUnit) :
    Observes u (Observed.simplify c level e) id (simplify c level e)
      (fun noted => ∃ own again, noted = own ++ again ∧ LoopNotes c e u own
        ∧ ExpandedNotes c level again)
      fun _ _ => True := by
  refine observes_depth ⟨[], [], rfl, .inl rfl, .inl rfl⟩ ?_
  refine .bind (R := ExpandedNotes c level) (observes_settledOrBest c level e u) ?_
    (fun own loop => ⟨own, [], (List.append_nil own).symm, loop, .inl rfl⟩)
    (fun own again loop rest => ⟨own, again, rfl, loop, rest⟩)
  rintro ⟨h, settled⟩ v -
  dsimp only
  split
  · exact .pure rfl (.inl rfl) trivial
  next going =>
  have positive : 0 < level := by simp_all
  refine .of_bind (.inl rfl) fun expanded w form => ?_
  have expansion (again : List History) (loop : LoopNotes c expanded w again) :
      ExpandedNotes c level again := .inr ⟨positive, h.best, expanded, v, w, form, loop⟩
  split
  · exact .pure rfl (.inl rfl) trivial
  refine .bind (observes_simplifyCompact c level expanded w)
    (fun r w _ => .pure (P := (· = [])) (History.best_add h [r]) rfl trivial) expansion ?_
  rintro again _ loop rfl
  rw [List.append_nil]
  exact expansion again loop

/-- Rounds beyond those that the best score leaves room for do not happen. -/
theorem rounds_enough (c : Config) (n : Nat) : ∀ (m : Nat) (best : Expr), best.score < n →
    best.score < m → rounds c n best = rounds c m best := by
  induction n with
  | zero => exact fun _ _ none => absurd none (Nat.not_lt_zero _)
  | succ n ih =>
    intro m best enough enough'
    obtain ⟨m, rfl⟩ : ∃ k, m = k + 1 := ⟨m - 1, by omega⟩
    unfold rounds
    refine bind_congr fun es => ?_
    dsimp only
    split
    · rfl
    · next changed =>
      have lower := (simplest_lower es best).resolve_left changed
      exact ih m _ (by omega) (by omega)

/-- Without expansion, the best candidate of the only loop is the result. -/
theorem simplify_nonpositive (c : Config) {level : Int} (low : level ≤ 0) (e : Expr) :
    e.simplify c level = e.simplifyCompact c level := by
  unfold simplify simplifyCompact
  refine bind_congr fun _ => bind_congr fun r => ?_
  dsimp only
  rw [if_pos (by simp [low])]

/-- Levels that leave room for all rounds that the first candidate's score allows give the same outcome
where nothing is expanded. -/
theorem simplify_enough {c : Config} {e first : Expr} {u v : FloatUnit}
    (reduced : e.innerSimplified c u = .ok first v) {k k' : Nat} (enough : first.score < k)
    (enough' : first.score < k') : e.simplify c (-k) u = e.simplify c (-k') u := by
  have same : e.settledOrBest c (-k) u = e.settledOrBest c (-k') u := by
    unfold settledOrBest
    split
    · rfl
    · rw [Computation.bind_ok reduced, Computation.bind_ok reduced, Int.natAbs_neg, Int.natAbs_neg,
        Int.natAbs_natCast, Int.natAbs_natCast, rounds_enough c k k' first enough enough']
  rw [simplify_nonpositive c (by omega), simplify_nonpositive c (by omega)]
  unfold simplifyCompact
  cases e.checkDepth c with
  | error f => rfl
  | ok =>
    change EStateM.bind (e.settledOrBest c (-k)) _ u = EStateM.bind (e.settledOrBest c (-k')) _ u
    unfold EStateM.bind
    rw [same]

/-- The loop of simplification has a measure. After one of its rounds it goes on only with a history whose
best candidate is strictly simpler than before, so it begins at most one round more than the first candidate
has half points, whatever the level; the same holds of the loop of the call on the expanded form. All levels
that allow so many rounds, without expansion, give the same outcome. -/
theorem rounds_measured {c : Config} {e first : Expr} {u v : FloatUnit}
    (reduced : e.innerSimplified c u = .ok first v) :
    (∀ level, ∃ own again,
      Observed.simplify c level e (u, []) = withNotes (own ++ again) (e.simplify c level u) ∧
      Measured first own ∧ ExpandedNotes c level again) ∧
    ∀ k k' : Nat, 2 * first.simplicity + 1 ≤ k → 2 * first.simplicity + 1 ≤ k' →
      e.simplify c (-k) u = e.simplify c (-k') u := by
  have room {k : Nat} (enough : 2 * first.simplicity + 1 ≤ k) : first.score < k := by
    unfold simplicity at enough
    have cast : (first.score : ℚ) + 1 ≤ k := by linarith
    exact_mod_cast cast
  refine ⟨fun level => ?_, fun k k' enough enough' => simplify_enough reduced (room enough) (room enough')⟩
  obtain ⟨_, ⟨own, again, rfl, loop, expansion⟩, outcome⟩ := observes_simplify c level e u []
  refine ⟨own, again, ?_, ?_, expansion⟩
  · rcases outcome with ⟨r, w, run, run', -⟩ | ⟨f, w, run, run'⟩
    · rw [run, run']
      rfl
    · rw [run, run']
      rfl
  · rcases loop with rfl | ⟨first', v', reduced', measured⟩
    · exact (Improving.nil _).measured
    · rw [reduced] at reduced'
      cases reduced'
      exact measured

/-- The sum of `x` and its double has fourteen points, so its loop begins at most 29 rounds, and levels that
allow so many agree. -/
theorem rounds_measured_double :
    ∃ e : Expr, e = .binary .sum (.var "x") (.binary .mul 2 (.var "x")) ∧
      e.innerSimplified .default ⟨50⟩ = .ok e ⟨50⟩ ∧ e.simplicity = 14 ∧
      (∀ level, ∃ own again, Observed.simplify .default level e (⟨50⟩, [])
        = withNotes (own ++ again) (e.simplify .default level ⟨50⟩) ∧ (own.length : ℚ) ≤ 29) ∧
      e.simplify .default (-29) ⟨50⟩ = e.simplify .default (-1000) ⟨50⟩ := by
  let e : Expr := .binary .sum (.var "x") (.binary .mul 2 (.var "x"))
  have reduced : e.innerSimplified .default ⟨50⟩ = .ok e ⟨50⟩ := by decide +kernel
  have score : e.score = 28 := by decide +kernel
  have points : e.simplicity = 14 := by norm_num [simplicity, score]
  obtain ⟨noted, same⟩ := rounds_measured reduced
  refine ⟨e, rfl, reduced, points, fun level => ?_, ?_⟩
  · obtain ⟨own, again, observed, measured, -⟩ := noted level
    have bounded := measured.bounded
    rw [points] at bounded
    exact ⟨own, again, observed, by linarith⟩
  · exact same 29 1000 (by norm_num [points]) (by norm_num [points])

end ComputerAlgebra.Expr
