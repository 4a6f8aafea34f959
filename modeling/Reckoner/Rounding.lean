import Reckoner.Text.Blank

/-! # Rounding modes

A quotient of natural numbers that does not come out even lies between two neighbours. A rounding
mode says which of them stands for it. Results of operations and numbers with too many digits are
all rounded by `RoundingMode.divide`, which decides on the exact remainder.
-/

namespace Reckoner

/-- Which neighbour stands for a value that lies between two of them. -/
inductive RoundingMode where
  /-- The nearer one; of two equally near ones the even one. -/
  | halfEven
  /-- The nearer one; of two equally near ones the one away from zero. -/
  | halfUp
  /-- The nearer one; of two equally near ones the one toward zero. -/
  | halfDown
  /-- The one toward zero. -/
  | down
  /-- The one away from zero. -/
  | up
  /-- The one toward minus infinity. -/
  | floor
  /-- The one toward plus infinity. -/
  | ceiling
  deriving Repr, DecidableEq, Inhabited

namespace RoundingMode

/-- Every mode, in the order in which they are documented. -/
def all : List RoundingMode :=
  [halfEven, halfUp, halfDown, down, up, floor, ceiling]

/-- The name under which a mode is shown and chosen. -/
def name : RoundingMode → String
  | halfEven => "half-even"
  | halfUp => "half-up"
  | halfDown => "half-down"
  | down => "down"
  | up => "up"
  | floor => "floor"
  | ceiling => "ceiling"

/-- Read a mode's name. Blanks around it and the case of its letters do not count, and an
    underscore may stand for the hyphen. -/
def ofName? (text : String) : Option RoundingMode :=
  let written := (trimBlanks text.toList).map fun c => if c = '_' then '-' else c
  all.find? fun mode => sameIgnoringCase written mode.name.toList

/-- Whether a magnitude between `quotient` and `quotient + 1` is represented by the larger one.
    It is `quotient + remainder / divisor`, and `negative` is the sign of the number it belongs to,
    which only the two directed modes look at. -/
def carries (mode : RoundingMode) (negative : Bool) (quotient remainder divisor : Nat) : Bool :=
  remainder ≠ 0 &&
    match mode with
    | halfEven => divisor < 2 * remainder || (divisor == 2 * remainder && quotient % 2 == 1)
    | halfUp => divisor ≤ 2 * remainder
    | halfDown => divisor < 2 * remainder
    | down => false
    | up => true
    | floor => negative
    | ceiling => !negative

/-- The magnitude `dividend / divisor` of a number with the given sign, rounded to a whole one. -/
def divide (mode : RoundingMode) (negative : Bool) (dividend divisor : Nat) : Nat :=
  let quotient := dividend / divisor
  if mode.carries negative quotient (dividend % divisor) divisor then quotient + 1 else quotient

theorem mem_all (mode : RoundingMode) : mode ∈ all := by
  cases mode <;> simp [all]

/-- A mode can be chosen by the name under which it is shown. -/
theorem ofName?_name (mode : RoundingMode) : ofName? mode.name = some mode := by
  cases mode <;> decide +kernel

theorem divide_mul_right (mode : RoundingMode) (negative : Bool) (quotient : Nat) {divisor : Nat}
    (h : 0 < divisor) : mode.divide negative (quotient * divisor) divisor = quotient := by
  simp [divide, carries, Nat.mul_div_cancel _ h]

theorem div_le_divide (mode : RoundingMode) (negative : Bool) (dividend divisor : Nat) :
    dividend / divisor ≤ mode.divide negative dividend divisor := by
  simp only [divide]
  split <;> omega

theorem divide_le_div_add_one (mode : RoundingMode) (negative : Bool) (dividend divisor : Nat) :
    mode.divide negative dividend divisor ≤ dividend / divisor + 1 := by
  simp only [divide]
  split <;> omega

end RoundingMode

instance : ToString RoundingMode := ⟨RoundingMode.name⟩

end Reckoner
