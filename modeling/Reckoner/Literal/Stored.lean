import Reckoner.Decimal.Basic
import Reckoner.Literal.Basic

/-! # Literals as decimals

A literal may have any number of digits, a decimal may not. The stored value of a literal takes its
digits one by one as long as mantissa and scale have room, and looks at one digit more: if that is
five or larger, the last stored place goes up by one. What follows this digit does not count.
-/

namespace Reckoner

namespace Literal

/-- Close a stored value at the first digit that had no room. Where going up makes the mantissa
    too large, its last place is given up. -/
def closeAt (mantissa scale : Nat) (digit : Digit) : Option Decimal :=
  let rounded := if 5 ≤ digit.val then mantissa + 1 else mantissa
  if rounded < mantissaLimit then Decimal.ofParts? false rounded scale
  else if scale = 0 then none
  else Decimal.ofParts? false ((rounded + 4) / 10) (scale - 1)

/-- Take digits after the point into a stored value as long as there is room. -/
def storePlaces (mantissa scale : Nat) : List Digit → Option Decimal
  | [] => Decimal.ofParts? false mantissa scale
  | digit :: places =>
    let extended := 10 * mantissa + digit.val
    if extended < mantissaLimit ∧ scale < maxScale then storePlaces extended (scale + 1) places
    else closeAt mantissa scale digit

/-- The decimal that stands for a literal; there is none if its whole part has no room. -/
def stored? (literal : Literal) : Option Decimal :=
  storePlaces (Digits.toNat literal.whole) 0 literal.places

/-- How many zeros a run of digits starts with. -/
def leadingZeros (digits : List Digit) : Nat :=
  (digits.takeWhile fun digit => digit.val == 0).length

/-- Whether the first `digits` digits of a literal below one, counted from the first that is not
    zero, need more places than a decimal has. Zeros at the end need none. -/
def isTooSmall (literal : Literal) (digits : Nat) : Bool :=
  let places := literal.places
  let first := leadingZeros places
  let last := places.length - leadingZeros places.reverse
  literal.whole.all (fun digit => digit.val == 0) && places.any (fun digit => digit.val != 0) &&
    maxScale < first + min (last - first) digits

end Literal

end Reckoner
