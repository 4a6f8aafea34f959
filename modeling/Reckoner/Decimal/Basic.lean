import Reckoner.Digits

/-! # Decimals

A decimal is a sign, a mantissa below `2 ^ 96` and a scale of at most 28: it denotes the mantissa
divided by the `scale`-th power of ten. The two bounds are part of the type. One number can be
written with several scales, and zero with either sign, so the number itself is `Decimal.toRat`;
`Decimal.normalize` chooses the way of writing with the smallest scale and no negative zero.
-/

namespace Reckoner

/-- Mantissas stay below this number, the 96th power of two. -/
def mantissaLimit : Nat := 79228162514264337593543950336

/-- The most places after the point. -/
def maxScale : Nat := 28

/-- A number with a bounded mantissa and a bounded count of places after the point. -/
structure Decimal where
  /-- Whether a minus sign is written. Zero may carry one as well. -/
  negative : Bool
  /-- All digits, read as one natural number. -/
  mantissa : Nat
  /-- How many of the digits stand after the point. -/
  scale : Nat
  mantissa_lt : mantissa < mantissaLimit
  scale_le : scale ≤ maxScale
  deriving Repr, DecidableEq

namespace Decimal

/-- Zero without a sign and without places. -/
def zero : Decimal := ⟨false, 0, 0, by decide, by decide⟩

instance : Inhabited Decimal := ⟨zero⟩

/-- The decimal with these parts, if they are within its bounds. -/
def ofParts? (negative : Bool) (mantissa scale : Nat) : Option Decimal :=
  if h : mantissa < mantissaLimit ∧ scale ≤ maxScale then
    some ⟨negative, mantissa, scale, h.1, h.2⟩
  else
    none

/-- The mantissa with its sign. A negative zero becomes the integer zero. -/
def signed (value : Decimal) : Int :=
  if value.negative then -(value.mantissa : Int) else value.mantissa

/-- The number that a decimal denotes. -/
def toRat (value : Decimal) : Rat :=
  mkRat value.signed (tenPow value.scale)

/-- Whether the denoted number is zero, however it is written. -/
def isZero (value : Decimal) : Bool :=
  value.mantissa == 0

/-- The decimal with the other sign, also for zero. -/
def neg (value : Decimal) : Decimal :=
  { value with negative := !value.negative }

instance : Neg Decimal := ⟨neg⟩

/-- The number of digits of the mantissa without leading zeros; zero has none. -/
def digitCount (value : Decimal) : Nat :=
  Digits.count value.mantissa

/-- Drop the last digit as long as it is a zero after the point. -/
def dropZeros (mantissa : Nat) : (scale : Nat) → Nat × Nat
  | 0 => (mantissa, 0)
  | scale + 1 =>
    if mantissa % 10 = 0 then dropZeros (mantissa / 10) scale else (mantissa, scale + 1)

theorem dropZeros_fst_le (mantissa scale : Nat) : (dropZeros mantissa scale).1 ≤ mantissa := by
  induction scale generalizing mantissa with
  | zero => exact Nat.le_refl _
  | succ scale ih =>
    rw [dropZeros]
    split
    · exact Nat.le_trans (ih _) (Nat.div_le_self ..)
    · exact Nat.le_refl _

theorem dropZeros_snd_le (mantissa scale : Nat) : (dropZeros mantissa scale).2 ≤ scale := by
  induction scale generalizing mantissa with
  | zero => exact Nat.le_refl _
  | succ scale ih =>
    rw [dropZeros]
    split
    · exact Nat.le_trans (ih _) (Nat.le_succ _)
    · exact Nat.le_refl _

/-- The same number with as few places as it needs and without a negative zero. -/
def normalize (value : Decimal) : Decimal where
  negative := value.negative && value.mantissa != 0
  mantissa := (dropZeros value.mantissa value.scale).1
  scale := (dropZeros value.mantissa value.scale).2
  mantissa_lt := Nat.lt_of_le_of_lt (dropZeros_fst_le ..) value.mantissa_lt
  scale_le := Nat.le_trans (dropZeros_snd_le ..) value.scale_le

@[simp]
theorem neg_neg (value : Decimal) : -(-value) = value := by
  show value.neg.neg = value
  simp [neg]

theorem ofParts?_eq_some_iff {negative : Bool} {mantissa scale : Nat} {value : Decimal} :
    ofParts? negative mantissa scale = some value ↔
      value.negative = negative ∧ value.mantissa = mantissa ∧ value.scale = scale := by
  unfold ofParts?
  constructor
  · intro h
    split at h
    · obtain rfl := Option.some.inj h
      exact ⟨rfl, rfl, rfl⟩
    · exact absurd h (by simp)
  · rintro ⟨rfl, rfl, rfl⟩
    rw [dif_pos ⟨value.mantissa_lt, value.scale_le⟩]

theorem ofParts?_eq_none_iff {negative : Bool} {mantissa scale : Nat} :
    ofParts? negative mantissa scale = none ↔ mantissaLimit ≤ mantissa ∨ maxScale < scale := by
  unfold ofParts?
  split <;> simp <;> omega

theorem dropZeros_fst_mul (mantissa scale : Nat) :
    (dropZeros mantissa scale).1 * tenPow (scale - (dropZeros mantissa scale).2) = mantissa := by
  induction scale generalizing mantissa with
  | zero => simp [dropZeros]
  | succ scale ih =>
    rw [dropZeros]
    split
    · have le := dropZeros_snd_le (mantissa / 10) scale
      rw [Nat.succ_sub le, tenPow_succ, Nat.mul_left_comm, ih]
      omega
    · simp

theorem dropZeros_reduced (mantissa scale : Nat) :
    (dropZeros mantissa scale).2 = 0 ∨ (dropZeros mantissa scale).1 % 10 ≠ 0 := by
  induction scale generalizing mantissa with
  | zero => exact .inl rfl
  | succ scale ih =>
    rw [dropZeros]
    split
    · exact ih _
    · next h => exact .inr h

@[simp]
theorem signed_neg (value : Decimal) : (-value).signed = -value.signed := by
  obtain ⟨negative, mantissa, scale, _, _⟩ := value
  show Decimal.signed (neg _) = _
  cases negative <;> simp [signed, neg]

@[simp]
theorem toRat_neg (value : Decimal) : (-value).toRat = -value.toRat := by
  rw [toRat, signed_neg, ← Rat.neg_mkRat]
  rfl

theorem signed_normalize_mul (value : Decimal) :
    value.normalize.signed * tenPow (value.scale - value.normalize.scale) = value.signed := by
  have mantissa : (value.normalize.mantissa : Int) *
      tenPow (value.scale - value.normalize.scale) = value.mantissa := by
    exact_mod_cast dropZeros_fst_mul value.mantissa value.scale
  by_cases zero : value.mantissa = 0
  · have none : value.normalize.mantissa = 0 := by
      have := dropZeros_fst_le value.mantissa value.scale
      show (dropZeros value.mantissa value.scale).1 = 0
      omega
    simp [signed, zero, none]
  · have sign : value.normalize.negative = value.negative := by
      simp [normalize, zero]
    rw [signed, signed, sign]
    split
    · rw [Int.neg_mul, mantissa]
    · exact mantissa

@[simp]
theorem toRat_normalize (value : Decimal) : value.normalize.toRat = value.toRat := by
  have le : value.normalize.scale ≤ value.scale := dropZeros_snd_le ..
  have scale : tenPow value.normalize.scale * tenPow (value.scale - value.normalize.scale) =
      tenPow value.scale := by
    rw [← tenPow_add, Nat.add_sub_cancel' le]
  rw [toRat, toRat, ← signed_normalize_mul value, ← scale]
  exact (Rat.mkRat_mul_right (Nat.ne_of_gt (tenPow_pos _))).symm

end Decimal

end Reckoner
