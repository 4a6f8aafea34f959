import Reckoner.Decimal.Basic

/-! # Decimals as text

A decimal is shown in positional notation only: every place of its scale, a zero before the point
where it has no whole part, and a minus sign whenever the decimal carries one. The plain text of a
number is that of its normalized decimal, so it depends on the number alone.
-/

namespace Reckoner

namespace Decimal

/-- The digits of a decimal before and after its point. -/
def wholeDigits (value : Decimal) : List Digit :=
  Digits.ofNat (value.mantissa / tenPow value.scale)

def fractionDigits (value : Decimal) : List Digit :=
  Digits.padded value.mantissa value.scale

/-- The characters of the text with sign, point and all places. -/
def chars (value : Decimal) : List Char :=
  (if value.negative then ['-'] else []) ++ value.wholeDigits.map Digit.toChar ++
    (if value.scale = 0 then [] else '.' :: value.fractionDigits.map Digit.toChar)

/-- The text that shows a decimal as it is written. -/
def text (value : Decimal) : String :=
  String.ofList value.chars

/-- The text that shows the number a decimal denotes. -/
def plain (value : Decimal) : String :=
  value.normalize.text

theorem toNat_digits (value : Decimal) :
    Digits.toNat value.wholeDigits * tenPow value.scale + Digits.toNat value.fractionDigits =
      value.mantissa := by
  rw [wholeDigits, fractionDigits, Digits.toNat_ofNat, Digits.toNat_padded, Nat.mul_comm]
  exact Nat.div_add_mod ..

end Decimal

instance : ToString Decimal := ⟨Decimal.text⟩

end Reckoner
