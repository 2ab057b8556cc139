import ComputerAlgebra.Proofs.Computation

/-!
The float unit under fixed settings. A computation leaves the digits of the unit as they are or sets
them to those of the settings, so what holds because the unit has the digits of the settings goes on to
hold. `Works c u m P` says this of the computation `m` begun with the unit `u`, and of its result and the
unit after it that they satisfy `P`; nothing is said of its faults.
-/

namespace ComputerAlgebra

/-- The unit is as it was or has been set to the digits of the settings. -/
def FloatUnit.Later (c : Config) (u w : FloatUnit) : Prop := w = u ∨ w = .ofConfig c

theorem FloatUnit.bits_ofConfig (c : Config) : (ofConfig c).bits = c.bits := rfl

namespace FloatUnit.Later

variable {c : Config} {u v w : FloatUnit}

theorem refl (u : FloatUnit) : Later c u u := .inl rfl

theorem trans (first : Later c u v) (second : Later c v w) : Later c u w := by
  rcases second with rfl | rfl
  · exact first
  · exact .inr rfl

theorem settled (later : Later c u w) (before : u = .ofConfig c) : w = .ofConfig c := by
  rcases later with rfl | rfl
  · exact before
  · rfl

end FloatUnit.Later

open FloatUnit (Later)

/-- Begun with the unit `u`, the computation leaves a later unit, also when it fails, and its result
satisfies the property, which may depend on that unit. -/
def Works {α : Type} (c : Config) (u : FloatUnit) (m : Computation α) (P : FloatUnit → α → Prop) :
    Prop :=
  match m u with
  | .ok a w => Later c u w ∧ P w a
  | .error _ w => Later c u w

namespace Works

variable {α β : Type} {c : Config} {u : FloatUnit} {m : Computation α} {P : FloatUnit → α → Prop}
  {Q : FloatUnit → β → Prop}

theorem pure {a : α} (holds : P u a) : Works c u (pure a) P := ⟨.refl u, holds⟩

theorem throw {f : Fault} : Works c u (throw f : Computation α) P := Later.refl u

theorem bind {f : α → Computation β} (first : Works c u m P)
    (next : ∀ w a, Later c u w → P w a → Works c w (f a) Q) : Works c u (m >>= f) Q := by
  unfold Works at first ⊢
  change match EStateM.bind m f u with
    | .ok b w => Later c u w ∧ Q w b
    | .error _ w => Later c u w
  rw [EStateM.bind]
  cases run : m u with
  | error fault w =>
    rw [run] at first
    exact first
  | ok a w =>
    rw [run] at first
    obtain ⟨later, holds⟩ := first
    have rest := next w a later holds
    unfold Works at rest
    cases run' : f a w with
    | error fault w' =>
      simp only [run'] at rest ⊢
      exact later.trans rest
    | ok b w' =>
      simp only [run'] at rest ⊢
      exact ⟨later.trans rest.1, rest.2⟩

theorem lift {x : Except Fault α} (holds : ∀ a, x = .ok a → P u a) :
    Works c u (liftM x : Computation α) P := by
  cases x with
  | ok a => exact pure (holds a rfl)
  | error f => exact throw

theorem settle : Works c u (Computation.settle c) fun w _ => w = .ofConfig c := by
  unfold Computation.settle
  split
  · exact throw
  · exact ⟨.inr rfl, rfl⟩

theorem unitBits : Works c u Computation.unitBits fun w bits => w = u ∧ bits = u.bits :=
  ⟨.refl u, rfl, rfl⟩

theorem tryCatch {handler : Fault → Computation α} (given : Works c u m P)
    (handled : ∀ f w, Later c u w → Works c w (handler f) P) :
    Works c u (tryCatch m handler) P := by
  unfold Works at given ⊢
  change match EStateM.tryCatch m handler u with
    | .ok b w => Later c u w ∧ P w b
    | .error _ w => Later c u w
  delta EStateM.tryCatch
  dsimp only
  cases run : m u with
  | ok a w =>
    rw [run] at given
    exact given
  | error f w =>
    rw [run] at given
    have rest := handled f w given
    unfold Works at rest
    change match handler f w with
      | .ok b w => Later c u w ∧ P w b
      | .error _ w => Later c u w
    cases run' : handler f w with
    | error fault w' =>
      simp only [run'] at rest ⊢
      exact given.trans rest
    | ok b w' =>
      simp only [run'] at rest ⊢
      exact ⟨given.trans rest.1, rest.2⟩

theorem ite {p : Prop} [Decidable p] {m' : Computation α} (yes : p → Works c u m P)
    (no : ¬ p → Works c u m' P) : Works c u (if p then m else m') P := by
  split
  · next holds => exact yes holds
  · next fails => exact no fails

/-- What would follow a fault does not matter. -/
theorem raise {f : Fault} {next : α → Computation β} :
    Works c u (MonadExcept.throw f >>= next) Q := Later.refl u

/-- Texts of numbers are found with a unit that may have to be set first. -/
theorem settleIf (needed : Bool) (a : α) :
    Works c u (do
      if needed then Computation.settle c
      return a) fun _ _ => True :=
  ite (fun _ => bind settle fun _ _ _ _ => pure trivial) fun _ => pure trivial

/-- What a computation returns, and the unit it leaves. -/
theorem result {a : α} {w : FloatUnit} (given : Works c u m P) (run : m u = .ok a w) :
    Later c u w ∧ P w a := by
  unfold Works at given
  rw [run] at given
  exact given

theorem fault {f : Fault} {w : FloatUnit} (given : Works c u m P) (run : m u = .error f w) :
    Later c u w := by
  unfold Works at given
  rw [run] at given
  exact given

end Works
end ComputerAlgebra
