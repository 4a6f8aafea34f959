/-! # Powers of ten

Places of decimals are counted by powers of ten, so these have a function of their own with the few
laws that the library needs of them.
-/

namespace Reckoner

/-- The power of ten with this exponent. -/
def tenPow : (exponent : Nat) → Nat
  | 0 => 1
  | exponent + 1 => 10 * tenPow exponent

@[simp]
theorem tenPow_zero : tenPow 0 = 1 := rfl

theorem tenPow_succ (exponent : Nat) : tenPow (exponent + 1) = 10 * tenPow exponent := rfl

theorem tenPow_pos (exponent : Nat) : 0 < tenPow exponent := by
  induction exponent with
  | zero => decide
  | succ exponent ih =>
    rw [tenPow_succ]
    omega

theorem tenPow_add (left right : Nat) : tenPow (left + right) = tenPow left * tenPow right := by
  induction left with
  | zero => simp
  | succ left ih => rw [Nat.succ_add, tenPow_succ, ih, tenPow_succ, Nat.mul_assoc]

theorem tenPow_le_tenPow {small large : Nat} (h : small ≤ large) : tenPow small ≤ tenPow large := by
  obtain ⟨rest, rfl⟩ := Nat.exists_eq_add_of_le h
  rw [tenPow_add]
  exact Nat.le_mul_of_pos_right _ (tenPow_pos rest)

end Reckoner
