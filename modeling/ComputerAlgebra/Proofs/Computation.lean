import ComputerAlgebra.Expr.Measure
import Mathlib.Data.List.Forall2

/-!
What a computation returns. `Returns m P` says that every result of `m` satisfies `P`, from whatever
digits the float unit starts; nothing is said of faults. `Succeeds m P` says that there always is
such a result. Each way of composing computations has one rule for either.
-/

namespace ComputerAlgebra

/-- A computation that returns has gone on from what its first part returned. -/
theorem Computation.of_bind_ok {α β : Type} {m : Computation α} {f : α → Computation β} {u w : FloatUnit} {b : β}
    (returned : (m >>= f) u = .ok b w) : ∃ a v, m u = .ok a v ∧ f a v = .ok b w := by
  change EStateM.bind m f u = .ok b w at returned
  unfold EStateM.bind at returned
  split at returned
  · next a v first => exact ⟨a, v, first, returned⟩
  · cases returned

/-- What a computation answers, whatever digits it leaves. -/
def Computation.answer {α : Type} (m : Computation α) (u : FloatUnit) : Except Fault α :=
  match m u with
  | .ok a _ => .ok a
  | .error f _ => .error f

/-- Two computations that go on from the same part answer the same when they do so after it. -/
theorem Computation.answer_bind_congr {α β : Type} {m : Computation α} {f g : α → Computation β}
    {u : FloatUnit} (next : ∀ a w, m u = .ok a w → (f a).answer w = (g a).answer w) :
    (m >>= f).answer u = (m >>= g).answer u := by
  unfold answer at next ⊢
  change (match EStateM.bind m f u with
      | .ok a _ => Except.ok a
      | .error f _ => .error f)
    = match EStateM.bind m g u with
      | .ok a _ => .ok a
      | .error f _ => .error f
  unfold EStateM.bind
  cases run : m u with
  | ok a w => exact next a w run
  | error f w => rfl

/-- Every result of the computation has the property. -/
def Returns {α : Type} (m : Computation α) (P : α → Prop) : Prop :=
  ∀ u a w, m u = .ok a w → P a

namespace Returns

variable {α β : Type} {P : α → Prop} {Q : β → Prop}

theorem pure {a : α} (holds : P a) : Returns (pure a) P := by
  intro u b w result
  cases result
  exact holds

theorem throw {f : Fault} : Returns (throw f : Computation α) P := by
  intro u b w result
  cases result

theorem bind {m : Computation α} {f : α → Computation β} (first : Returns m P)
    (next : ∀ a, P a → Returns (f a) Q) : Returns (m >>= f) Q := by
  intro u b w result
  obtain ⟨a, v, computed, rest⟩ := Computation.of_bind_ok result
  exact next a (first u a v computed) v b w rest

theorem mono {m : Computation α} {P' : α → Prop} (given : Returns m P)
    (weaker : ∀ a, P a → P' a) : Returns m P' := by
  intro u a w result
  exact weaker a (given u a w result)

theorem trivial {m : Computation α} : Returns m fun _ => True := by
  intro u a w result
  exact True.intro

theorem and {m : Computation α} {P' : α → Prop} (left : Returns m P) (right : Returns m P') :
    Returns m fun a => P a ∧ P' a := by
  intro u a w result
  exact ⟨left u a w result, right u a w result⟩

theorem all {ι : Sort _} {R : ι → α → Prop} {m : Computation α} (each : ∀ i, Returns m (R i)) :
    Returns m fun a => ∀ i, R i a := by
  intro u a w result i
  exact each i u a w result

theorem get {f : FloatUnit → Computation β} (next : ∀ u, Returns (f u) Q) :
    Returns (MonadState.get >>= f) Q :=
  bind trivial fun u _ => next u

end Returns

/-- Whatever digits the float unit starts with, the computation has a result with the property. -/
def Succeeds {α : Type} (m : Computation α) (P : α → Prop) : Prop :=
  ∀ u, ∃ a w, m u = .ok a w ∧ P a

namespace Succeeds

variable {α β : Type} {P : α → Prop} {Q : β → Prop} {m : Computation α}

theorem pure {a : α} (holds : P a) : Succeeds (pure a) P := fun u => ⟨a, u, rfl, holds⟩

theorem bind {f : α → Computation β} (first : Succeeds m P) (next : ∀ a, P a → Succeeds (f a) Q) :
    Succeeds (m >>= f) Q := by
  intro u
  obtain ⟨a, v, computed, holds⟩ := first u
  obtain ⟨b, w, result, holds'⟩ := next a holds v
  refine ⟨b, w, ?_, holds'⟩
  change EStateM.bind m f u = _
  rw [EStateM.bind, computed]
  exact result

theorem mono {P' : α → Prop} (given : Succeeds m P) (weaker : ∀ a, P a → P' a) : Succeeds m P' := by
  intro u
  obtain ⟨a, w, result, holds⟩ := given u
  exact ⟨a, w, result, weaker a holds⟩

theorem map {f : α → β} (given : Succeeds m fun a => Q (f a)) : Succeeds (f <$> m) Q := by
  rw [map_eq_pure_bind]
  exact bind given fun a holds => pure holds

theorem lift {x : Except Fault α} {a : α} (answers : x = .ok a) (holds : P a) :
    Succeeds (liftM x : Computation α) P := by
  rw [answers]
  exact pure holds

theorem get {f : FloatUnit → Computation β} (next : ∀ u, Succeeds (f u) Q) :
    Succeeds (MonadState.get >>= f) Q :=
  fun u => next u u

/-- Where there is always a result and all results have a property, there always is one with it. -/
theorem of_returns (given : Succeeds m P) {P' : α → Prop} (returns : Returns m P') :
    Succeeds m fun a => P a ∧ P' a := by
  intro u
  obtain ⟨a, w, result, holds⟩ := given u
  exact ⟨a, w, result, holds, returns u a w result⟩

theorem returns (given : Succeeds m P) : Returns m P := by
  intro u a w result
  obtain ⟨b, w', other, holds⟩ := given u
  rw [result] at other
  cases other
  exact holds

theorem settle {c : Config} (sound : c.precisionFault? = none) :
    Succeeds (Computation.settle c) fun _ => True :=
  fun u => ⟨(), .ofConfig c, Computation.settle_eq sound u, trivial⟩

end Succeeds

/-- A way to judge computations by their results that goes through sequencing. -/
structure Judgment where
  Holds {α : Type} : Computation α → (α → Prop) → Prop
  pure {α : Type} {P : α → Prop} {a : α} : P a → Holds (pure a) P
  bind {α β : Type} {P : α → Prop} {Q : β → Prop} {m : Computation α} {f : α → Computation β} :
    Holds m P → (∀ a, P a → Holds (f a) Q) → Holds (m >>= f) Q

namespace Judgment

variable (J : Judgment) {α β : Type} {P : α → Prop} {Q : β → Prop} {m m' : Computation α}

theorem mono {P' : α → Prop} (given : J.Holds m P) (weaker : ∀ a, P a → P' a) : J.Holds m P' := by
  have same := J.bind given fun a holds => J.pure (weaker a holds)
  rwa [bind_pure] at same

theorem map {f : α → β} (given : J.Holds m fun a => Q (f a)) : J.Holds (f <$> m) Q := by
  rw [map_eq_pure_bind]
  exact J.bind given fun a holds => J.pure holds

theorem ite {p : Prop} [Decidable p] (yes : p → J.Holds m P) (no : ¬p → J.Holds m' P) :
    J.Holds (if p then m else m') P := by
  split
  · next holds => exact yes holds
  · next fails => exact no fails

/-- Computations that are run one after another, each for something that is to be related to its
result. -/
theorem mapM {γ : Type} {A : γ → β → Prop} {f : α → Computation β} {cs : List γ} {as : List α}
    (each : List.Forall₂ (fun c a => J.Holds (f a) (A c)) cs as) :
    J.Holds (as.mapM f) (List.Forall₂ A cs) := by
  induction each with
  | nil => exact J.pure .nil
  | @cons c a cs as head tail ih =>
    rw [List.mapM_cons]
    refine J.bind head fun b first => ?_
    exact J.bind ih fun bs rest => J.pure (.cons first rest)

/-- Nothing is asked of computations that fault. -/
structure Lenient : Prop where
  throw : ∀ {α : Type} {P : α → Prop} {f : Fault}, J.Holds (throw f : Computation α) P

variable {J} in
theorem Lenient.lift (lenient : J.Lenient) {x : Except Fault α} (holds : ∀ a, x = .ok a → P a) :
    J.Holds (liftM x : Computation α) P := by
  cases x with
  | ok a => exact J.pure (holds a rfl)
  | error f => exact lenient.throw

variable {J} in
theorem Lenient.checked (lenient : J.Lenient) {x : Except Fault α} :
    J.Holds (liftM x : Computation α) fun _ => True :=
  lenient.lift fun _ _ => trivial

section Partial
variable {m : OptionT Computation α} {f : α → OptionT Computation β}

def Answers (m : OptionT Computation α) (P : α → Prop) : Prop :=
  J.Holds m.run fun r => ∀ a, r = some a → P a

theorem answers_pure {a : α} (holds : P a) : J.Answers (Pure.pure a) P := by
  refine J.pure ?_
  rintro _ ⟨rfl⟩
  exact holds

theorem answers_failure : J.Answers (failure : OptionT Computation α) P := by
  refine J.pure ?_
  rintro _ ⟨⟩

theorem answers_bind (first : J.Answers m P) (next : ∀ a, P a → J.Answers (f a) Q) :
    J.Answers (m >>= f) Q := by
  unfold Answers
  rw [OptionT.run_bind]
  refine J.bind first ?_
  intro r holds
  cases r with
  | none => exact J.pure (by simp)
  | some a => exact next a (holds a rfl)

theorem answers_lift {m : Computation α} (given : J.Holds m P) :
    J.Answers (liftM m : OptionT Computation α) P := by
  unfold Answers
  rw [OptionT.run_monadLift]
  refine J.map (J.mono given fun a holds => ?_)
  rintro _ ⟨rfl⟩
  exact holds

end Partial

def returns : Judgment := ⟨Returns, Returns.pure, Returns.bind⟩

def succeeds : Judgment := ⟨Succeeds, Succeeds.pure, Succeeds.bind⟩

end Judgment

namespace Computation

instance decidableReturns {α : Type} [DecidableEq α]
    (run : EStateM.Result Fault FloatUnit α) (a : α) (u : FloatUnit) : Decidable (run = .ok a u) :=
  match run with
  | .ok b w => decidable_of_iff (b = a ∧ w = u) (by simp)
  | .error _ _ => isFalse (by simp)

theorem bind_ok {α β : Type} {m : Computation α} {f : α → Computation β} {u v : FloatUnit} {a : α}
    (first : m u = .ok a v) : (m >>= f) u = f a v := by
  change EStateM.bind m f u = f a v
  rw [EStateM.bind, first]

theorem bind_error {α β : Type} {m : Computation α} {f : α → Computation β} {u v : FloatUnit} {fault : Fault}
    (first : m u = .error fault v) : (m >>= f) u = .error fault v := by
  change EStateM.bind m f u = .error fault v
  rw [EStateM.bind, first]

/-- What a mapped computation returns comes from what the computation returns. -/
theorem of_map_ok {α β : Type} {m : Computation α} {f : α → β} {u w : FloatUnit} {b : β}
    (mapped : (f <$> m) u = .ok b w) : ∃ a, m u = .ok a w ∧ f a = b := by
  change EStateM.map f m u = .ok b w at mapped
  unfold EStateM.map at mapped
  split at mapped
  · next a v returned =>
    cases mapped
    exact ⟨a, returned, rfl⟩
  · cases mapped

end Computation
end ComputerAlgebra
