import Reckoner.Evaluation.Basic

/-! # Values that are kept as they are

A value that has been rounded has no more digits than the working precision keeps, but for zeros
before the point. Rounding it again only normalizes it, and so does a sign that is applied to it as
an operation on zero. Zero with a minus sign is the one value that can be written in two ways here,
and no operation tells the two apart.
-/

namespace Reckoner

theorem Digits.count_le_of_lt {number places : Nat} (h : number < tenPow places) :
    count number ≤ places := by
  rcases Nat.eq_zero_or_pos number with rfl | positive
  · simp [count]
  rcases Nat.lt_or_ge places (count number) with less | le
  · exfalso
    have larger := tenPow_le_tenPow less
    have least := tenPow_count_le positive
    rw [tenPow_succ] at larger
    omega
  · exact le

namespace Decimal

theorem dropZeros_of_reduced {mantissa scale : Nat} (h : scale = 0 ∨ mantissa % 10 ≠ 0) :
    dropZeros mantissa scale = (mantissa, scale) := by
  cases scale with
  | zero => rfl
  | succ scale =>
    rw [dropZeros, if_neg (by omega)]

@[simp]
theorem dropZeros_fst_bne_zero (mantissa scale : Nat) :
    ((dropZeros mantissa scale).1 != 0) = (mantissa != 0) := by
  have product := dropZeros_fst_mul mantissa scale
  have le := dropZeros_fst_le mantissa scale
  rw [Bool.eq_iff_iff, bne_iff_ne, bne_iff_ne]
  constructor
  · omega
  · intro nonzero zero
    rw [zero, Nat.zero_mul] at product
    exact nonzero product.symm

theorem normalize_reduced (value : Decimal) :
    value.normalize.scale = 0 ∨ value.normalize.mantissa % 10 ≠ 0 :=
  dropZeros_reduced value.mantissa value.scale

@[simp]
theorem normalize_normalize (value : Decimal) : value.normalize.normalize = value.normalize := by
  have same := dropZeros_of_reduced value.normalize_reduced
  obtain ⟨negative, mantissa, scale, _, _⟩ := value
  simp only [normalize] at same ⊢
  simp [same]

theorem normalize_of_isZero {value : Decimal} (h : value.isZero = true) :
    value.normalize = zero := by
  obtain ⟨negative, mantissa, scale, _, _⟩ := value
  obtain rfl : mantissa = 0 := beq_iff_eq.1 h
  have dropped : ∀ scale, dropZeros 0 scale = (0, 0) := by
    intro scale
    induction scale with
    | zero => rfl
    | succ scale ih => simp [dropZeros, ih]
  simp [normalize, dropped, zero]

end Decimal

/-- A sign applied to a value. -/
def Sign.on : Sign → Decimal → Decimal
  | .plus, value => value
  | .minus, value => -value

namespace Sign

variable (sign : Sign)

@[simp]
theorem on_isZero (value : Decimal) : (sign.on value).isZero = value.isZero := by
  cases sign <;> rfl

@[simp]
theorem normalize_on_normalize (value : Decimal) :
    (sign.on value.normalize).normalize = (sign.on value).normalize := by
  cases sign with
  | plus => exact value.normalize_normalize
  | minus =>
    have same := Decimal.dropZeros_of_reduced value.normalize_reduced
    obtain ⟨negative, mantissa, scale, _, _⟩ := value
    show (Decimal.neg _).normalize = (Decimal.neg _).normalize
    simp only [Decimal.normalize, Decimal.neg] at same ⊢
    simp only [same, Decimal.dropZeros_fst_bne_zero, Decimal.mk.injEq, and_true]
    cases negative <;> cases mantissa != 0 <;> rfl

theorem normalize_on_of_normalize_eq {value : Decimal} (normalized : value.normalize = value)
    (nonzero : value.isZero = false) : (sign.on value).normalize = sign.on value := by
  cases sign with
  | plus => exact normalized
  | minus =>
    have mantissa := congrArg Decimal.mantissa normalized
    have scale := congrArg Decimal.scale normalized
    obtain ⟨negative, digits, places, _, _⟩ := value
    have digitsNonzero : (digits != 0) = true := by
      simpa [Decimal.isZero] using nonzero
    show (Decimal.neg _).normalize = Decimal.neg _
    simp only [Decimal.normalize] at mantissa scale
    simp only [Decimal.normalize, Decimal.neg, mantissa, scale, digitsNonzero, Bool.and_true]

end Sign

namespace Precision

variable {precision : Precision}

/-- Whether a value has no more digits than are kept, but for zeros at its end. -/
def Keeps (precision : Precision) (value : Decimal) : Prop :=
  ∃ digits zeros, value.normalize.mantissa = digits * tenPow zeros ∧
    digits < tenPow precision.digits

theorem keeps_zero : precision.Keeps .zero :=
  ⟨0, 0, rfl, tenPow_pos _⟩

theorem Keeps.normalize {value : Decimal} (h : precision.Keeps value) :
    precision.Keeps value.normalize := by
  obtain ⟨digits, zeros, written, few⟩ := h
  exact ⟨digits, zeros, by rw [Decimal.normalize_normalize, written], few⟩

theorem Keeps.on {value : Decimal} (h : precision.Keeps value) (sign : Sign) :
    precision.Keeps (sign.on value) := by
  cases sign <;> exact h

theorem Keeps.foldr_on {value : Decimal} (h : precision.Keeps value) (signs : List Sign) :
    precision.Keeps (signs.foldr Sign.on value) := by
  induction signs with
  | nil => exact h
  | cons sign signs ih => exact ih.on sign

theorem round_of_keeps {value : Decimal} (h : precision.Keeps value) :
    precision.round value = .ok value.normalize := by
  obtain ⟨digits, zeros, written, few⟩ := h
  have reduced := value.normalize_reduced
  simp only [round]
  split
  · rfl
  next long =>
  have most : value.normalize.digitCount ≤ precision.digits + zeros := by
    refine Digits.count_le_of_lt ?_
    rw [written, tenPow_add]
    exact Nat.mul_lt_mul_of_pos_right few (tenPow_pos zeros)
  generalize droppedEq : value.normalize.digitCount - precision.digits = dropped
  obtain ⟨more, rfl⟩ : ∃ more, zeros = more + dropped := ⟨zeros - dropped, by omega⟩
  obtain ⟨fewer, rfl⟩ : ∃ fewer, dropped = fewer + 1 := ⟨dropped - 1, by omega⟩
  rw [tenPow_add, ← Nat.mul_assoc] at written
  have places : value.normalize.scale = 0 := by
    rcases reduced with none | last
    · exact none
    · rw [written, tenPow_succ, Nat.mul_left_comm, Nat.mul_mod_right] at last
      exact absurd rfl last
  have kept : precision.rounding.divide value.normalize.negative value.normalize.mantissa
      (tenPow (fewer + 1)) = digits * tenPow more := by
    rw [written, RoundingMode.divide_mul_right _ _ _ (tenPow_pos _)]
  have stored : Decimal.ofParts? value.normalize.negative
      (digits * tenPow more * tenPow (fewer + 1 - value.normalize.scale))
      (value.normalize.scale - (fewer + 1)) = some value.normalize :=
    Decimal.ofParts?_eq_some_iff.2
      ⟨rfl, by rw [places, Nat.sub_zero, written], by rw [places]; omega⟩
  rw [kept, stored]
  simp

theorem exists_lt_of_le {mantissa digits zeros : Nat} (h : mantissa = digits * tenPow zeros)
    (le : digits ≤ tenPow precision.digits) :
    ∃ digits zeros, mantissa = digits * tenPow zeros ∧ digits < tenPow precision.digits := by
  rcases Nat.lt_or_eq_of_le le with less | rfl
  · exact ⟨digits, zeros, h, less⟩
  · refine ⟨1, precision.digits + zeros, ?_, ?_⟩
    · rw [h, tenPow_add, Nat.one_mul]
    · have least := tenPow_le_tenPow precision.digits_pos
      rw [tenPow_succ, tenPow_zero] at least
      omega

/-- Of the digits that are cut, a carry leaves at most a one with zeros. -/
theorem divide_le_tenPow (precision : Precision) {value : Decimal}
    (long : precision.digits < value.digitCount) :
    precision.rounding.divide value.negative value.mantissa
        (tenPow (value.digitCount - precision.digits)) ≤ tenPow precision.digits := by
  have above := precision.rounding.divide_le_div_add_one value.negative value.mantissa
    (tenPow (value.digitCount - precision.digits))
  have below : value.mantissa / tenPow (value.digitCount - precision.digits) <
      tenPow precision.digits := by
    rw [Nat.div_lt_iff_lt_mul (tenPow_pos _), ← tenPow_add, Nat.add_sub_cancel' (Nat.le_of_lt long)]
    exact Digits.lt_tenPow_count _
  omega

/-- What has been rounded is kept, and is written as normalized decimals are. -/
theorem keeps_of_round {value rounded : Decimal} (h : precision.round value = .ok rounded) :
    precision.Keeps rounded ∧ rounded.normalize = rounded := by
  simp only [round] at h
  split at h
  · next short =>
    cases h
    refine ⟨⟨value.normalize.mantissa, 0, ?_, ?_⟩, value.normalize_normalize⟩
    · rw [Decimal.normalize_normalize, tenPow_zero, Nat.mul_one]
    · exact Nat.lt_of_lt_of_le (Digits.lt_tenPow_count _) (tenPow_le_tenPow short)
  next long =>
  split at h
  · next stored made =>
    cases h
    refine ⟨?_, stored.normalize_normalize⟩
    obtain ⟨-, mantissa, scale⟩ := Decimal.ofParts?_eq_some_iff.1 made
    generalize value.normalize = value at long mantissa scale
    have kept := precision.divide_le_tenPow (Nat.lt_of_not_le long)
    generalize value.digitCount - precision.digits = dropped at kept mantissa scale
    generalize precision.rounding.divide value.negative value.mantissa (tenPow dropped) = digits
      at kept mantissa
    rw [Keeps, Decimal.normalize_normalize]
    rcases Nat.lt_or_ge value.scale dropped with whole | placed
    · have none : stored.scale = 0 := by omega
      have same : stored.normalize.mantissa = digits * tenPow (dropped - value.scale) := by
        rw [← mantissa]
        show (Decimal.dropZeros stored.mantissa stored.scale).1 = stored.mantissa
        rw [none]
        rfl
      exact exists_lt_of_le same kept
    · have same : stored.mantissa = digits := by
        rw [mantissa, Nat.sub_eq_zero_of_le placed, tenPow_zero, Nat.mul_one]
      have le := Decimal.dropZeros_fst_le stored.mantissa stored.scale
      have all : stored.normalize.mantissa = stored.normalize.mantissa * tenPow 0 :=
        (Nat.mul_one _).symm
      exact exists_lt_of_le all (Nat.le_trans le (same ▸ kept))
  · cases h

theorem apply_zero {value : Decimal} (h : precision.Keeps value) (sign : Sign) :
    precision.apply sign.operator .zero value = .ok (sign.on value).normalize := by
  cases sign with
  | plus => exact round_of_keeps h
  | minus => exact round_of_keeps (h.on .minus)

@[simp]
theorem ofSigned_none (literal : Literal) :
    precision.ofSigned none literal = precision.ofLiteral literal := by
  simp only [ofSigned]
  cases precision.ofLiteral literal <;> rfl

theorem ofSigned_some {literal : Literal} {value : Decimal}
    (h : precision.ofLiteral literal = .ok value) (sign : Sign) :
    precision.ofSigned (some sign) literal = .ok (sign.on value) := by
  cases sign <;> simp only [ofSigned, h] <;> rfl

end Precision

end Reckoner
