import ComputerAlgebra.Expr.Basic

/-!
Sessions: the settings in use, the settings set aside for later, results kept under names, and the
float unit that all computations of the session share.
-/

namespace ComputerAlgebra

structure Session where
  active : Config := .default
  /-- The settings set aside, the latest first. -/
  saved : List Config := []
  results : List (String × Expr) := []
  floatUnit : FloatUnit := .ofConfig active

namespace Session

def compute {α : Type} (s : Session) (m : Computation α) : Except Fault α × Session :=
  match m s.floatUnit with
  | .ok a u => (.ok a, { s with floatUnit := u })
  | .error f u => (.error f, { s with floatUnit := u })

def use (s : Session) (c : Config) : Session := { s with active := c }

def push (s : Session) (c : Config) : Session :=
  { s with active := c, saved := s.active :: s.saved }

def pop? (s : Session) : Option Session :=
  match s.saved with
  | [] => none
  | c :: saved => some { s with active := c, saved := saved }

def store (s : Session) (name : String) (e : Expr) : Session :=
  { s with results := (name, e) :: s.results }

def result? (s : Session) (name : String) : Option Expr := s.results.lookup name

def inner (s : Session) : Session := { s with saved := [], results := [] }

/-- This session after the one inside it has ended: settings that are still set aside there are
taken up again, so that every change without them stays and every change over them is undone. -/
def resume (s ended : Session) : Session :=
  { ended with
    active := ended.saved.getLastD ended.active, saved := s.saved, results := s.results }

@[simp] theorem pop?_push (s : Session) (c : Config) : (s.push c).pop? = some s := rfl

@[simp] theorem result?_store (s : Session) (name : String) (e : Expr) :
    (s.store name e).result? name = some e := by
  simp [result?, store]

@[simp] theorem resume_inner (s : Session) : s.resume s.inner = s := rfl

@[simp] theorem resume_push_inner (s : Session) (c : Config) : s.resume (s.inner.push c) = s := rfl

@[simp] theorem resume_use_inner (s : Session) (c : Config) :
    s.resume (s.inner.use c) = s.use c := rfl

end Session
end ComputerAlgebra
