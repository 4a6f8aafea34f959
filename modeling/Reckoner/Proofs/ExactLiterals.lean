import Mathlib.Data.List.DropRight
import Reckoner.Proofs.Held
import Reckoner.Proofs.ReadBack

/-! # Literals without rounding

A literal that denotes a number that is held is read as this number, however many zeros are written
at its end. The digits before these zeros have room, so they are stored; a zero that has no room any
more is not rounded up. How small the literal is counts only up to its last digit that is not zero.
-/

namespace Reckoner

variable {precision : Precision}

namespace Digits

theorem toNat_append (first second : List Digit) :
    toNat (first ++ second) = toNat first * tenPow second.length + toNat second := by
  rw [← toNat_foldl, toNat, toNat, List.foldl_append]

theorem toNat_cons (digit : Digit) (digits : List Digit) :
    toNat (digit :: digits) = digit.val * tenPow digits.length + toNat digits := by
  have first : toNat [digit] = digit.val := by simp [toNat]
  rw [← first, ← toNat_append, List.singleton_append]

theorem toNat_lt (digits : List Digit) : toNat digits < tenPow digits.length := by
  induction digits with
  | nil => decide
  | cons digit digits ih =>
    have most : digit.val * tenPow digits.length ≤ 9 * tenPow digits.length :=
      Nat.mul_le_mul_right _ (Nat.le_of_lt_succ digit.isLt)
    rw [toNat_cons, List.length_cons, tenPow_succ]
    omega

theorem toNat_eq_zero_iff {digits : List Digit} :
    toNat digits = 0 ↔ ∀ digit ∈ digits, digit.val = 0 := by
  induction digits with
  | nil => simp
  | cons digit digits ih =>
    have positive := tenPow_pos digits.length
    rw [toNat_cons, Nat.add_eq_zero_iff, Nat.mul_eq_zero, ih]
    simp [positive.ne']

theorem toNat_replicate_zero (zeros : Nat) : toNat (List.replicate zeros 0) = 0 := by
  induction zeros with
  | zero => rfl
  | succ zeros ih =>
    rw [List.replicate_succ', toNat_append_singleton, ih]
    rfl

theorem toNat_append_reduced (first : List Digit) {front : List Digit}
    (last : ∀ digit ∈ front.getLast?, digit.val ≠ 0) :
    front.length = 0 ∨ toNat (first ++ front) % 10 ≠ 0 := by
  rcases List.eq_nil_or_concat front with rfl | ⟨before, digit, rfl⟩
  · exact .inl rfl
  · right
    rw [List.concat_eq_append] at last ⊢
    have nonzero : digit.val ≠ 0 := last digit (by simp)
    rw [← List.append_assoc, toNat_append_singleton]
    omega

end Digits

namespace Literal

theorem exists_eq_append_zeros (digits : List Digit) :
    ∃ front, digits = front ++ List.replicate (leadingZeros digits.reverse) 0 ∧
      ∀ digit ∈ front.getLast?, digit.val ≠ 0 := by
  let isZero := fun digit : Digit => digit.val == 0
  have zeros : digits.rtakeWhile isZero = List.replicate (leadingZeros digits.reverse) 0 := by
    refine List.eq_replicate_iff.2 ⟨List.length_reverse, fun digit member => ?_⟩
    have held := List.mem_rtakeWhile_imp member
    exact Fin.ext (beq_iff_eq.1 held)
  refine ⟨digits.rdropWhile isZero, ?_, ?_⟩
  · rw [← zeros, List.rdropWhile_append_rtakeWhile]
  · intro digit member
    obtain ⟨nonempty, rfl⟩ := List.mem_getLast?_eq_getLast member
    exact fun zero => List.rdropWhile_last_not isZero digits nonempty (beq_iff_eq.2 zero)

/-- A zero that has no room any more is not rounded up. -/
theorem exists_storePlaces_zeros {mantissa scale : Nat} (room : mantissa < mantissaLimit)
    (deep : scale ≤ maxScale) (zeros : Nat) :
    ∃ value, storePlaces mantissa scale (List.replicate zeros 0) = some value ∧
      value.toRat = mantissa / 10 ^ scale := by
  induction zeros generalizing mantissa scale with
  | zero =>
    rw [← one_mul (_ / _)]
    exact Decimal.exists_ofParts? false room deep
  | succ zeros ih =>
    rw [List.replicate_succ, storePlaces]
    split
    · next fits =>
      obtain ⟨value, made, same⟩ := ih fits.1 fits.2
      refine ⟨value, made, same.trans ?_⟩
      rw [Fin.val_zero, Nat.add_zero, Nat.cast_mul, Nat.cast_ofNat, pow_succ',
        mul_div_mul_left _ _ (by norm_num)]
    · have down : ¬ 5 ≤ (0 : Digit).val := by decide
      rw [closeAt, if_neg down, if_pos room, ← one_mul (_ / _)]
      exact Decimal.exists_ofParts? false room deep

theorem toRat_of_zeros {literal : Literal} {front : List Digit} {zeros : Nat}
    (written : literal.places = front ++ List.replicate zeros 0) :
    literal.toRat = Digits.toNat (literal.whole ++ front) / 10 ^ front.length := by
  rw [toRat, Rat.mkRat_eq_div, written, ← List.append_assoc, Digits.toNat_append,
    Digits.toNat_replicate_zero, List.length_append, List.length_replicate]
  push_cast [natCast_tenPow]
  rw [add_zero, pow_add, mul_div_mul_right _ _ (by positivity)]

theorem exists_stored?_of_zeros {literal : Literal} {front : List Digit} {zeros : Nat}
    (written : literal.places = front ++ List.replicate zeros 0)
    (room : Digits.toNat (literal.whole ++ front) < mantissaLimit)
    (deep : front.length ≤ maxScale) :
    ∃ stored, literal.stored? = some stored ∧
      stored.toRat = Digits.toNat (literal.whole ++ front) / 10 ^ front.length := by
  have taken : front.foldl (fun number digit => 10 * number + digit.val)
      (Digits.toNat literal.whole) = Digits.toNat (literal.whole ++ front) :=
    List.foldl_append.symm
  rw [stored?, written, storePlaces_append, taken, Nat.zero_add]
  · exact exists_storePlaces_zeros room deep zeros
  · rwa [taken]
  · rwa [Nat.zero_add]

theorem isPlaced_toRat_iff {literal : Literal} {front : List Digit} {zeros : Nat}
    (written : literal.places = front ++ List.replicate zeros 0)
    (last : ∀ digit ∈ front.getLast?, digit.val ≠ 0) :
    IsPlaced literal.toRat ↔ front.length ≤ maxScale := by
  have magnitude : |literal.toRat| = Digits.toNat (literal.whole ++ front) / 10 ^ front.length := by
    rw [toRat_of_zeros written, abs_of_nonneg (by positivity)]
  constructor
  · rintro ⟨whole, placed⟩
    have offered : (Digits.toNat (literal.whole ++ front) : ℚ) / 10 ^ front.length *
        10 ^ maxScale = whole := by
      rw [← magnitude, placed, div_mul_cancel₀ _ (by positivity)]
    exact scale_le_of_reduced (Digits.toNat_append_reduced literal.whole last) offered
  · intro shallow
    exact isPlaced_of_scale_le shallow magnitude

theorem exists_eq_zeros_append {digits : List Digit} (h : Digits.toNat digits ≠ 0) :
    ∃ digit rest, digits = List.replicate (leadingZeros digits) 0 ++ digit :: rest ∧
      digit.val ≠ 0 := by
  induction digits with
  | nil => exact absurd rfl h
  | cons first digits ih =>
    by_cases zero : first.val = 0
    · rw [Digits.toNat_cons, zero, Nat.zero_mul, Nat.zero_add] at h
      obtain ⟨digit, rest, split, nonzero⟩ := ih h
      have zeros : leadingZeros (first :: digits) = leadingZeros digits + 1 := by
        simp [leadingZeros, zero]
      refine ⟨digit, rest, ?_, nonzero⟩
      rw [zeros, List.replicate_succ, List.cons_append, ← split]
      exact congrArg (· :: digits) (Fin.ext zero)
    · exact ⟨first, digits, by simp [leadingZeros, zero], zero⟩

theorem toRat_bounds {literal : Literal} (whole : Digits.toNat literal.whole = 0)
    (places : Digits.toNat literal.places ≠ 0) :
    10 ^ (-(leadingZeros literal.places + 1 : ℕ) : ℤ) ≤ literal.toRat ∧
      literal.toRat < 10 ^ (-(leadingZeros literal.places : ℕ) : ℤ) := by
  obtain ⟨digit, rest, split, nonzero⟩ := exists_eq_zeros_append places
  generalize leadingZeros literal.places = zeros at split ⊢
  have length : literal.places.length = zeros + (rest.length + 1) := by
    rw [split, List.length_append, List.length_replicate, List.length_cons]
  have number : Digits.toNat literal.places = Digits.toNat (digit :: rest) := by
    rw [split, Digits.toNat_append, Digits.toNat_replicate_zero, Nat.zero_mul, Nat.zero_add]
  have denoted : literal.toRat =
      Digits.toNat (digit :: rest) / 10 ^ (zeros + (rest.length + 1)) := by
    rw [toRat, Rat.mkRat_eq_div, Digits.toNat_append, whole, number, Nat.zero_mul, Nat.zero_add,
      length]
    push_cast [natCast_tenPow]
    rfl
  have power (first others : ℕ) :
      (10 : ℚ) ^ (-(first : ℤ)) = 10 ^ others / 10 ^ (first + others) := by
    rw [pow_add, zpow_neg, zpow_natCast, mul_comm, div_mul_cancel_left₀ (by positivity)]
  have least : (10 : ℚ) ^ rest.length ≤ Digits.toNat (digit :: rest) := by
    have times := Nat.le_mul_of_pos_left (tenPow rest.length) (Nat.pos_of_ne_zero nonzero)
    rw [← natCast_tenPow, Digits.toNat_cons]
    exact_mod_cast times.trans (Nat.le_add_right _ _)
  have most : (Digits.toNat (digit :: rest) : ℚ) < 10 ^ (rest.length + 1) := by
    rw [← natCast_tenPow]
    exact_mod_cast Digits.toNat_lt (digit :: rest)
  rw [denoted, power zeros (rest.length + 1), power (zeros + 1) rest.length, Nat.add_right_comm,
    Nat.add_assoc zeros]
  constructor
  · gcongr
  · gcongr

theorem all_eq_zero_iff (digits : List Digit) :
    digits.all (fun digit => digit.val == 0) = true ↔ Digits.toNat digits = 0 := by
  rw [Digits.toNat_eq_zero_iff]
  simp

theorem any_ne_zero_iff (digits : List Digit) :
    digits.any (fun digit => digit.val != 0) = true ↔ Digits.toNat digits ≠ 0 := by
  rw [ne_eq, Digits.toNat_eq_zero_iff]
  simp

theorem toNat_whole_le_toRat (literal : Literal) :
    (Digits.toNat literal.whole : ℚ) ≤ literal.toRat := by
  rw [toRat, Rat.mkRat_eq_div, Digits.toNat_append]
  push_cast [natCast_tenPow]
  rw [add_div, mul_div_cancel_right₀ _ (by positivity)]
  exact le_add_of_nonneg_right (by positivity)

theorem leadingZeros_lt {literal : Literal} {front : List Digit} {zeros : Nat}
    (whole : Digits.toNat literal.whole = 0) (places : Digits.toNat literal.places ≠ 0)
    (written : literal.places = front ++ List.replicate zeros 0) :
    leadingZeros literal.places < front.length := by
  obtain ⟨least, most⟩ := toRat_bounds whole places
  have positive : 0 < literal.toRat := lt_of_lt_of_le (by positivity) least
  rw [toRat_of_zeros written, div_pos_iff_of_pos_right (by positivity)] at positive
  have one : (1 : ℚ) ≤ Digits.toNat (literal.whole ++ front) := by
    exact_mod_cast Nat.one_le_iff_ne_zero.2 (by exact_mod_cast positive.ne')
  have reached : (10 : ℚ) ^ (-(front.length : ℕ) : ℤ) ≤ literal.toRat := by
    rw [toRat_of_zeros written, zpow_neg, zpow_natCast, ← one_div]
    gcongr
  have order := (zpow_lt_zpow_iff_right₀ (by norm_num)).1 (reached.trans_lt most)
  omega

/-- A literal is too small exactly if it needs more than all places and is below the number with
    which they begin to show all digits. -/
theorem isTooSmall_iff {literal : Literal} {digits : Nat} (few : digits ≤ maxDigits) :
    literal.isTooSmall digits = true ↔
      ¬ IsPlaced literal.toRat ∧ literal.toRat < 10 ^ (digits - 29 : ℤ) := by
  obtain ⟨front, written, last⟩ := exists_eq_append_zeros literal.places
  have length := congrArg List.length written
  rw [List.length_append, List.length_replicate] at length
  rw [isPlaced_toRat_iff written last, isTooSmall]
  simp only [Bool.and_eq_true, decide_eq_true_eq, all_eq_zero_iff, any_ne_zero_iff, and_assoc]
  unfold maxDigits at few
  by_cases whole : Digits.toNat literal.whole = 0
  · by_cases places : Digits.toNat literal.places = 0
    · have none : front = [] := by
        rcases List.eq_nil_or_concat front with none | ⟨before, digit, rfl⟩
        · exact none
        · rw [Digits.toNat_eq_zero_iff, written] at places
          exact absurd (places digit (by simp)) (last digit (by simp))
      simp [places, none]
    · obtain ⟨least, most⟩ := toRat_bounds whole places
      have before := leadingZeros_lt whole places written
      have small : literal.toRat < 10 ^ (digits - 29 : ℤ) ↔
          maxScale < leadingZeros literal.places + digits := by
        unfold maxScale
        constructor
        · intro below
          have order := (zpow_lt_zpow_iff_right₀ (by norm_num)).1 (least.trans_lt below)
          omega
        · intro deep
          exact most.trans_le (zpow_le_zpow_right₀ (by norm_num) (by omega))
      rw [small]
      omega
  · have one : (1 : ℚ) ≤ literal.toRat := by
      have least : (1 : ℚ) ≤ Digits.toNat literal.whole := by
        exact_mod_cast Nat.one_le_iff_ne_zero.2 whole
      exact least.trans literal.toNat_whole_le_toRat
    have large : (10 : ℚ) ^ (digits - 29 : ℤ) ≤ literal.toRat :=
      (zpow_le_one_of_nonpos₀ (by norm_num) (by omega)).trans one
    simp [whole, large]

end Literal

/-- A literal for a number that is held is read as this number. -/
theorem Precision.exists_ofLiteral_of_holds {literal : Literal}
    (h : precision.Holds literal.toRat) :
    ∃ value, precision.ofLiteral literal = .ok value ∧ value.toRat = literal.toRat := by
  obtain ⟨front, written, last⟩ := Literal.exists_eq_append_zeros literal.places
  have denoted := Literal.toRat_of_zeros written
  have reduced := Digits.toNat_append_reduced literal.whole last
  have magnitude : |literal.toRat| = Digits.toNat (literal.whole ++ front) / 10 ^ front.length := by
    rw [denoted, abs_of_nonneg (by positivity)]
  have room := h.mantissa_lt reduced magnitude
  have deep := (Literal.isPlaced_toRat_iff written last).1 h.places
  have large : literal.isTooSmall precision.digits = false := by
    rw [Bool.eq_false_iff, ne_eq, Literal.isTooSmall_iff precision.digits_le]
    exact fun small => small.1 h.places
  obtain ⟨stored, made, same⟩ := Literal.exists_stored?_of_zeros written room deep
  have exact : stored.toRat = literal.toRat := same.trans denoted.symm
  obtain ⟨value, rounded, kept⟩ := exists_round_of_holds (exact ▸ h)
  refine ⟨value, ?_, kept.trans exact⟩
  rw [ofLiteral, large, if_neg Bool.false_ne_true, made]
  exact rounded

end Reckoner
