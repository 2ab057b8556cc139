import ComputerAlgebra.BigFloat.Rounding

/-!
Order of dyadic rationals. Numbers of different magnitude are compared without bringing them over
one power of two, which may be astronomically far away; `less_eq_blt` says that this is the order
by value.
-/

namespace ComputerAlgebra.BigFloat

theorem natAbs_shiftLeft_lt {n m : Int} {d : Nat}
    (h : bitLength n.natAbs + d < bitLength m.natAbs) : (n <<< d).natAbs < m.natAbs := by
  have hm : m.natAbs ≠ 0 := by
    intro h0
    simp [h0] at h
  have low := lt_shiftLeft_bitLength n.natAbs
  have high := shiftLeft_bitLength_le hm
  rw [Nat.one_shiftLeft] at low high
  calc (n <<< d).natAbs = n.natAbs * 2 ^ d := by
        simp [Int.shiftLeft_eq, Int.natAbs_mul, Int.natAbs_pow]
    _ < 2 ^ bitLength n.natAbs * 2 ^ d := Nat.mul_lt_mul_of_pos_right low (Nat.two_pow_pos d)
    _ = 2 ^ (bitLength n.natAbs + d) := (Nat.pow_add ..).symm
    _ ≤ 2 ^ (bitLength m.natAbs - 1) := Nat.pow_le_pow_right (by decide) (by omega)
    _ ≤ m.natAbs := high

theorem natAbs_lt_shiftLeft {n m : Int} {d : Nat} (hm : m ≠ 0)
    (h : bitLength n.natAbs < bitLength m.natAbs + d) : n.natAbs < (m <<< d).natAbs := by
  have hm : m.natAbs ≠ 0 := by omega
  have hb := bitLength_pos hm
  have low := lt_shiftLeft_bitLength n.natAbs
  have high := shiftLeft_bitLength_le hm
  rw [Nat.one_shiftLeft] at low high
  calc n.natAbs < 2 ^ bitLength n.natAbs := low
    _ ≤ 2 ^ (bitLength m.natAbs - 1 + d) := Nat.pow_le_pow_right (by decide) (by omega)
    _ = 2 ^ (bitLength m.natAbs - 1) * 2 ^ d := Nat.pow_add ..
    _ ≤ m.natAbs * 2 ^ d := Nat.mul_le_mul_right _ high
    _ = (m <<< d).natAbs := by simp [Int.shiftLeft_eq, Int.natAbs_mul, Int.natAbs_pow]

theorem shiftLeft_pos_iff (n : Int) (d : Nat) : 0 < n <<< d ↔ 0 < n := by
  have h : (0 : Int) < 2 ^ d := Int.pow_pos (by decide)
  rw [Int.shiftLeft_eq]
  exact ⟨fun hn => Int.lt_of_mul_lt_mul_right (by simpa using hn) (Int.le_of_lt h),
    fun hn => Int.mul_pos hn h⟩

def less (x y : Dyadic) : Bool :=
  match x, y with
  | .ofOdd n _ _, .ofOdd m _ _ =>
    if magnitude x < magnitude y then 0 < m
    else if magnitude y < magnitude x then n < 0
    else x.blt y
  | x, y => x.blt y

theorem less_eq_blt (x y : Dyadic) : less x y = x.blt y := by
  match x, y with
  | .zero, .zero | .zero, .ofOdd .. | .ofOdd .., .zero => rfl
  | .ofOdd n k hn, .ofOdd m l hm =>
    simp only [less]
    split
    · next below =>
      simp only [magnitude] at below
      simp only [Dyadic.blt]
      split <;> simp only [decide_eq_decide]
      · next d hd =>
        replace hd : l - k = (d : Int) := hd
        have := natAbs_shiftLeft_lt (n := n) (m := m) (d := d) (by omega)
        have := shiftLeft_pos_iff n d
        generalize n <<< d = a at *
        omega
      · next d hd =>
        have := natAbs_lt_shiftLeft (n := n) (m := m) (d := d + 1) (by omega) (by omega)
        have := shiftLeft_pos_iff m (d + 1)
        generalize m <<< (d + 1) = a at *
        omega
    · split
      · next _ above =>
        simp only [magnitude] at above
        simp only [Dyadic.blt]
        split <;> simp only [decide_eq_decide]
        · next d hd =>
          replace hd : l - k = (d : Int) := hd
          have := natAbs_lt_shiftLeft (n := m) (m := n) (d := d) (by omega) (by omega)
          have := shiftLeft_pos_iff n d
          generalize n <<< d = a at *
          omega
        · next d hd =>
          have := natAbs_shiftLeft_lt (n := m) (m := n) (d := d + 1) (by omega)
          have := shiftLeft_pos_iff m (d + 1)
          generalize m <<< (d + 1) = a at *
          omega
      · rfl

instance decidableLess : DecidableLT Dyadic := fun x y =>
  decidable_of_iff (less x y = true) (by rw [less_eq_blt]; exact Iff.rfl)

instance decidableLessOrEqual : DecidableLE Dyadic := fun x y =>
  decidable_of_iff (less y x = false) (by rw [less_eq_blt]; exact Dyadic.blt_eq_false_iff)

end ComputerAlgebra.BigFloat
