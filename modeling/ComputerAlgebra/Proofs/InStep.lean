import ComputerAlgebra.Proofs.Computation

/-!
Two computations side by side. From the same digits of the float unit they either return results that are
related, or fault in the same way, and they leave the same digits. Each way of composing computations has
one rule.
-/

namespace ComputerAlgebra

def InStep {α β : Type} (R : α → β → Prop) (m : Computation α) (m' : Computation β) : Prop :=
  ∀ u, (∃ a b w, m u = .ok a w ∧ m' u = .ok b w ∧ R a b) ∨
    ∃ f w, m u = .error f w ∧ m' u = .error f w

namespace InStep

variable {α β γ δ : Type} {R : α → β → Prop} {S : γ → δ → Prop} {m : Computation α}
  {m' : Computation β}

theorem self {P : α → Prop} {R : α → α → Prop} {m : Computation α} (given : Returns m P)
    (related : ∀ a, P a → R a a) : InStep R m m := by
  intro u
  cases run : m u with
  | ok a w => exact .inl ⟨a, a, w, rfl, rfl, related a (given u a w run)⟩
  | error f w => exact .inr ⟨f, w, rfl, rfl⟩

theorem refl (m : Computation α) : InStep Eq m m :=
  self Returns.trivial fun _ _ => rfl

theorem pure {a : α} {b : β} (related : R a b) : InStep R (pure a) (pure b) :=
  fun u => .inl ⟨a, b, u, rfl, rfl, related⟩

theorem throw (f : Fault) : InStep R (throw f : Computation α) (throw f : Computation β) :=
  fun u => .inr ⟨f, u, rfl, rfl⟩

theorem bind {f : α → Computation γ} {g : β → Computation δ} (first : InStep R m m')
    (next : ∀ a b, R a b → InStep S (f a) (g b)) : InStep S (m >>= f) (m' >>= g) := by
  intro u
  change (∃ a b w, EStateM.bind m f u = _ ∧ EStateM.bind m' g u = _ ∧ _) ∨
    ∃ fault w, EStateM.bind m f u = _ ∧ EStateM.bind m' g u = _
  unfold EStateM.bind
  rcases first u with ⟨a, b, w, left, right, related⟩ | ⟨fault, w, left, right⟩
  · rw [left, right]
    exact next a b related w
  · rw [left, right]
    exact .inr ⟨fault, w, rfl, rfl⟩

theorem after (m : Computation α) {f : α → Computation γ} {g : α → Computation δ}
    (next : ∀ a, InStep S (f a) (g a)) : InStep S (m >>= f) (m >>= g) := by
  refine bind (refl m) ?_
  rintro a _ rfl
  exact next a

theorem mono {R' : α → β → Prop} (given : InStep R m m') (weaker : ∀ a b, R a b → R' a b) :
    InStep R' m m' := by
  have same := bind given fun a b related => pure (weaker a b related)
  rwa [bind_pure, bind_pure] at same

theorem lift {x : Except Fault α} {y : Except Fault β}
    (related : (∃ a b, x = .ok a ∧ y = .ok b ∧ R a b) ∨ ∃ f, x = .error f ∧ y = .error f) :
    InStep R (liftM x : Computation α) (liftM y : Computation β) := by
  rcases related with ⟨a, b, rfl, rfl, holds⟩ | ⟨f, rfl, rfl⟩
  · exact pure holds
  · exact throw f

theorem ite {p q : Prop} [Decidable p] [Decidable q] {n : Computation α} {n' : Computation β}
    (same : p ↔ q) (yes : p → InStep R m m') (no : ¬p → InStep R n n') :
    InStep R (if p then m else n) (if q then m' else n') := by
  by_cases holds : p
  · rw [if_pos holds, if_pos (same.mp holds)]
    exact yes holds
  · rw [if_neg holds, if_neg (mt same.mpr holds)]
    exact no holds

theorem mapM {f : γ → Computation α} {g : δ → Computation β} {cs : List γ} {ds : List δ}
    (each : List.Forall₂ (fun c d => InStep R (f c) (g d)) cs ds) :
    InStep (fun as bs => as.length = cs.length ∧ List.Forall₂ R as bs) (cs.mapM f) (ds.mapM g) := by
  induction each with
  | nil => exact pure ⟨rfl, .nil⟩
  | @cons c d cs ds first rest ih =>
    rw [List.mapM_cons, List.mapM_cons]
    refine bind first fun a b related => bind ih fun as bs others => pure ⟨?_, .cons related others.2⟩
    rw [List.length_cons, List.length_cons, others.1]

end InStep

/-- Two ways to compute that come to the same, with what their results have. -/
def Coincide {α : Type} (P : α → Prop) (m m' : Computation α) : Prop := InStep (fun a b => a = b ∧ P a) m m'

namespace Coincide

variable {α β : Type} {P : α → Prop} {Q : β → Prop} {m m' : Computation α}

theorem eq (given : Coincide P m m') : m = m' := by
  funext u
  rcases given u with ⟨a, b, w, left, right, rfl, -⟩ | ⟨f, w, left, right⟩
  · rw [left, right]
  · rw [left, right]

theorem returns (given : Coincide P m m') : Returns m P := by
  intro u a w result
  rcases given u with ⟨b, _, _, left, -, -, holds⟩ | ⟨f, _, left, -⟩
  · rw [left] at result
    cases result
    exact holds
  · rw [left] at result
    cases result

theorem of_returns (given : Returns m P) : Coincide P m m :=
  InStep.self given fun _ holds => ⟨rfl, holds⟩

theorem of_eq (same : m = m') (given : Returns m P) : Coincide P m m' := same ▸ of_returns given

theorem pure {a : α} (holds : P a) : Coincide P (pure a) (Pure.pure a) := InStep.pure ⟨rfl, holds⟩

theorem bind {f g : α → Computation β} (first : Coincide P m m') (next : ∀ a, P a → Coincide Q (f a) (g a)) :
    Coincide Q (m >>= f) (m' >>= g) := by
  refine InStep.bind first ?_
  rintro a _ ⟨rfl, holds⟩
  exact next a holds

theorem mono {P' : α → Prop} (given : Coincide P m m') (weaker : ∀ a, P a → P' a) : Coincide P' m m' :=
  InStep.mono given fun a _ both => ⟨both.1, weaker a both.2⟩

theorem ite {p : Prop} [Decidable p] {n n' : Computation α} (yes : p → Coincide P m m')
    (no : ¬p → Coincide P n n') : Coincide P (if p then m else n) (if p then m' else n') :=
  InStep.ite .rfl yes no

/-- Computations that are run one after another, each for something that is to be related to its result. -/
theorem mapM {γ δ : Type} {A : γ → α → Prop} {f g : δ → Computation α} {cs : List γ} {ds : List δ}
    (each : List.Forall₂ (fun c d => Coincide (A c) (f d) (g d)) cs ds) :
    Coincide (List.Forall₂ A cs) (ds.mapM f) (ds.mapM g) := by
  induction each with
  | nil => exact pure .nil
  | cons first _ ih =>
    rw [List.mapM_cons, List.mapM_cons]
    exact bind first fun a holds => bind ih fun as all => pure (.cons holds all)

end Coincide
end ComputerAlgebra
