import Reckoner.PowerOfTen

/-! # Decimal digits

Numbers are written with the ten digits, most significant first. A digit is a number below ten and
not a character, so that a run of digits has a value without a second check; reading a digit's
character gives the digit back.
-/

namespace Reckoner

/-- One decimal digit. -/
abbrev Digit := Fin 10

namespace Digit

/-- The character that shows a digit. -/
def toChar (digit : Digit) : Char :=
  Char.ofNat ('0'.toNat + digit.val)

/-- The digit that a character shows. Only the ten ASCII digits show one. -/
def ofChar? (c : Char) : Option Digit :=
  if h : '0'.toNat ≤ c.toNat ∧ c.toNat ≤ '9'.toNat then
    some ⟨c.toNat - '0'.toNat, by have : '9'.toNat = '0'.toNat + 9 := rfl; omega⟩
  else
    none

@[simp]
theorem ofChar?_toChar (digit : Digit) : ofChar? digit.toChar = some digit := by
  revert digit
  decide

theorem toChar_of_ofChar? {c : Char} {digit : Digit} (h : ofChar? c = some digit) :
    digit.toChar = c := by
  unfold ofChar? at h
  split at h
  · next bounds =>
    obtain rfl := Option.some.inj h
    have same : '0'.toNat + (c.toNat - '0'.toNat) = c.toNat := by omega
    simp only [toChar, same, Char.ofNat_toNat]
  · exact absurd h (by simp)

end Digit

namespace Digits

/-- The number that a run of digits denotes. -/
def toNat (digits : List Digit) : Nat :=
  digits.foldl (fun number digit => 10 * number + digit.val) 0

/-- How many digits a number has when no leading zero is written; zero has none. -/
def count (number : Nat) : Nat :=
  if number = 0 then 0 else count (number / 10) + 1
termination_by number
decreasing_by omega

/-- The last `places` digits of a number, with leading zeros where it has fewer. -/
def padded (number : Nat) : (places : Nat) → List Digit
  | 0 => []
  | places + 1 => padded (number / 10) places ++ [Fin.ofNat 10 number]

/-- The digits of a number without leading zeros, except that zero is written as one. -/
def ofNat (number : Nat) : List Digit :=
  padded number (max 1 (count number))

@[simp]
theorem length_padded (number places : Nat) : (padded number places).length = places := by
  induction places generalizing number with
  | zero => rfl
  | succ places ih => simp [padded, ih]

@[simp]
theorem toNat_nil : toNat [] = 0 := rfl

@[simp]
theorem toNat_append_singleton (digits : List Digit) (digit : Digit) :
    toNat (digits ++ [digit]) = 10 * toNat digits + digit.val := by
  simp [toNat]

theorem toNat_padded (number places : Nat) :
    toNat (padded number places) = number % tenPow places := by
  induction places generalizing number with
  | zero => simp [padded, Nat.mod_one]
  | succ places ih =>
    rw [padded, toNat_append_singleton, ih, tenPow_succ, Nat.mod_mul]
    simp [Fin.ofNat]
    omega

theorem lt_tenPow_count (number : Nat) : number < tenPow (count number) := by
  induction number using Nat.strongRecOn with
  | _ number ih =>
    rw [count]
    split
    · next zero => rw [zero]; exact tenPow_pos 0
    · have := ih (number / 10) (by omega)
      rw [tenPow_succ]
      omega

theorem tenPow_count_le {number : Nat} (h : 0 < number) : tenPow (count number) ≤ 10 * number := by
  induction number using Nat.strongRecOn with
  | _ number ih =>
    rw [count, if_neg (by omega), tenPow_succ]
    by_cases small : number / 10 = 0
    · rw [small, count, if_pos rfl, tenPow_zero]
      omega
    · have := ih (number / 10) (by omega) (by omega)
      omega

@[simp]
theorem toNat_ofNat (number : Nat) : toNat (ofNat number) = number := by
  rw [ofNat, toNat_padded, Nat.mod_eq_of_lt]
  exact Nat.lt_of_lt_of_le (lt_tenPow_count number) (tenPow_le_tenPow (by omega))

end Digits

end Reckoner
