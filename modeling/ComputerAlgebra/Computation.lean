import ComputerAlgebra.Config

/-!
Computations with numbers. They may fail, and they share one float unit, which is set to the digits
of the settings by every step that works with floats. A step that works with fractions alone leaves
it as it is, so the unit may still have the digits of earlier settings; the opposite of a float is
rounded to the digits that the unit has, and the key of a float shows as many.
-/

namespace ComputerAlgebra

structure FloatUnit where
  digits : Nat
deriving DecidableEq

namespace FloatUnit

def ofConfig (c : Config) : FloatUnit := ⟨c.digits⟩

def bits (u : FloatUnit) : Nat := Config.bitsOf u.digits

end FloatUnit

/-- A computation. When it fails, the float unit keeps what was done to it before. -/
abbrev Computation (α : Type) := EStateM Fault FloatUnit α

namespace Computation

instance liftExcept : MonadLift (Except Fault) (EStateM Fault FloatUnit) where
  monadLift
    | .ok a => pure a
    | .error f => throw f

def settle (c : Config) : Computation Unit :=
  match c.precisionFault? with
  | some f => throw f
  | none => set (FloatUnit.ofConfig c)

def unitBits : Computation Nat := return (← get).bits

theorem settle_eq {c : Config} (sound : c.precisionFault? = none) (u : FloatUnit) :
    settle c u = .ok () (.ofConfig c) := by
  simp only [settle, sound]; rfl

theorem unitBits_eq (u : FloatUnit) : unitBits u = .ok u.bits u := rfl

end Computation
end ComputerAlgebra
