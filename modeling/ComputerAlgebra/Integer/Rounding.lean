/-!
Rounding a quotient of integers to the nearest integer, ties to even, or in a fixed direction, and
the count of binary digits that fixes where a value is rounded; powers of ten.
-/

namespace ComputerAlgebra

def bitLength (n : Nat) : Nat :=
  if n = 0 then 0 else n.log2 + 1

/-- The integer nearest to `n / d`; of two equally near ones the even one. -/
def nearestEven (n : Int) (d : Nat) : Int :=
  let low := n / d
  let rest := 2 * (n % d)
  if rest < d then low else if (d : Int) < rest then low + 1 else low + low % 2

/-- Where a quotient goes that is no integer. -/
inductive Direction where
  | nearest | towardZero | awayFromZero
deriving DecidableEq

def Direction.quotient : Direction → Int → Nat → Int
  | .nearest, n, d => nearestEven n d
  | .towardZero, n, d => if n < 0 then -(-n / d) else n / d
  | .awayFromZero, n, d => if n < 0 then n / d else -(-n / d)

/-- The direction in which the reciprocal of a value errs when the value errs in this one. -/
def Direction.reciprocal : Direction → Direction
  | .nearest => .nearest
  | .towardZero => .awayFromZero
  | .awayFromZero => .towardZero

def tenTo (n : Nat) : Nat := Nat.pow 10 n

def shiftTowardZero (n : Int) (k : Nat) : Int :=
  if 0 ≤ n then n >>> k else -((-n) >>> k)

def scaleNearest (n : Int) (k : Int) : Int :=
  if 0 ≤ k then n <<< k.toNat else nearestEven n (1 <<< (-k).toNat)

@[simp] theorem bitLength_zero : bitLength 0 = 0 := rfl

theorem bitLength_pos {n : Nat} (h : n ≠ 0) : 0 < bitLength n := by simp [bitLength, h]

theorem lt_shiftLeft_bitLength (n : Nat) : n < 1 <<< bitLength n := by
  rw [Nat.one_shiftLeft]
  unfold bitLength
  split
  · subst_vars; decide
  · exact Nat.lt_log2_self

theorem shiftLeft_bitLength_le {n : Nat} (h : n ≠ 0) : 1 <<< (bitLength n - 1) ≤ n := by
  simp only [bitLength, h, if_false, Nat.add_sub_cancel, Nat.one_shiftLeft]
  exact Nat.log2_self_le h

theorem nearestEven_one (n : Int) : nearestEven n 1 = n := by
  simp [nearestEven]

end ComputerAlgebra
