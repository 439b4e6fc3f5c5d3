/-!
Counting open brackets in 32 bits with a sign. Up to the largest number of that width the counter goes
up and down as a natural number does, and it tells whether a bracket is open.
-/

namespace SourceTree.Scan

/-- The most brackets that a counter of 32 bits with a sign can count. -/
def deepest : Nat := 2147483647

namespace Counter

variable {n : Nat}

theorem toInt_ofNat (le : n ≤ deepest) : (Int32.ofNat n).toInt = n :=
  Int32.toInt_ofNat_of_lt (Nat.lt_succ_of_le le)

theorem eq_zero_iff (le : n ≤ deepest) : Int32.ofNat n = 0 ↔ n = 0 := by
  rw [← Int32.toInt_inj, toInt_ofNat le, Int32.toInt_zero]
  omega

theorem le_zero_iff (le : n ≤ deepest) : Int32.ofNat n ≤ 0 ↔ n = 0 := by
  rw [Int32.le_iff_toInt_le, toInt_ofNat le, Int32.toInt_zero]
  omega

theorem succ_pos (le : n + 1 ≤ deepest) : 0 < Int32.ofNat n + 1 := by
  have up : Int32.ofNat n + 1 = Int32.ofNat (n + 1) := (Int32.ofNat_add n 1).symm
  rw [up, Int32.lt_iff_toInt_lt, toInt_ofNat le, Int32.toInt_zero]
  omega

/-- Kept from going below zero, the counter goes down as a natural number does. -/
theorem down_clamped (le : n ≤ deepest) : max (Int32.ofNat n - 1) 0 = Int32.ofNat (n - 1) := by
  cases n with
  | zero => decide
  | succ n =>
    have fits : n ≤ deepest := Nat.le_of_succ_le le
    have back : Int32.ofNat (n + 1) - 1 = Int32.ofNat n := by simp
    rw [back, Nat.succ_sub_one]
    show (if Int32.ofNat n ≤ 0 then 0 else Int32.ofNat n) = Int32.ofNat n
    split
    next nonpos => exact ((eq_zero_iff fits).mpr ((le_zero_iff fits).mp nonpos)).symm
    next => rfl

end Counter

end SourceTree.Scan
