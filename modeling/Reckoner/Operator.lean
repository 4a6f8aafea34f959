/-! # Operators and signs

Four operators join two operands. Two of their characters may also be written in front of an
operand, where they are signs; which of the two a `+` or `-` is depends on what stands before it
and is decided where tokens are read.
-/

namespace Reckoner

/-- An operator between two operands. -/
inductive Operator where
  | add
  | subtract
  | multiply
  | divide
  deriving Repr, DecidableEq, Inhabited

/-- A plus or minus in front of an operand. -/
inductive Sign where
  | plus
  | minus
  deriving Repr, DecidableEq, Inhabited

namespace Operator

def symbol : Operator → Char
  | add => '+'
  | subtract => '-'
  | multiply => '*'
  | divide => '/'

def ofChar? : Char → Option Operator
  | '+' => some add
  | '-' => some subtract
  | '*' => some multiply
  | '/' => some divide
  | _ => none

/-- How tightly an operator binds; of two operators the one with the larger number goes first. -/
def precedence : Operator → Nat
  | add | subtract => 1
  | multiply | divide => 2

/-- The sign that is written with the same character. -/
def sign? : Operator → Option Sign
  | add => some .plus
  | subtract => some .minus
  | multiply | divide => none

@[simp]
theorem ofChar?_symbol (operator : Operator) : ofChar? operator.symbol = some operator := by
  cases operator <;> rfl

theorem symbol_of_ofChar? {c : Char} {operator : Operator} (h : ofChar? c = some operator) :
    operator.symbol = c := by
  unfold ofChar? at h
  split at h <;> first | (obtain rfl := Option.some.inj h; rfl) | exact absurd h (by simp)

end Operator

namespace Sign

/-- The operator that is written with the same character. -/
def operator : Sign → Operator
  | plus => .add
  | minus => .subtract

def symbol (sign : Sign) : Char :=
  sign.operator.symbol

theorem operator_of_sign? {operator : Operator} {sign : Sign} (h : operator.sign? = some sign) :
    sign.operator = operator := by
  cases operator <;> cases sign <;> first | rfl | exact absurd h (by simp [Operator.sign?])

end Sign

instance : ToString Operator := ⟨fun operator => operator.symbol.toString⟩

end Reckoner
