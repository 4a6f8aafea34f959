import Reckoner.Proofs.Storing

/-! # Results that are rounded twice

An operation rounds its exact result first to what a decimal has room for, with ties to even, and
then to the working precision by the mode. Both roundings together give what one would have given
exactly when no switch of the mode lies between the exact result and the stored one, counted in
units of the last digit to keep.
-/

namespace Reckoner

namespace Decimal.Stores

variable {value : Decimal} {mode : RoundingMode} {x : ℚ} {places : Nat}

theorem toRat_mul (h : value.Stores mode x places) :
    value.toRat * 10 ^ places = mode.toInt (x * 10 ^ places) := by
  rw [h.nearest, div_mul_cancel₀ _ (by positivity)]

theorem nonneg (h : value.Stores mode x places) (sign : 0 ≤ x) : 0 ≤ value.toRat := by
  have whole : (0 : ℚ) ≤ mode.toInt (x * 10 ^ places) := by
    exact_mod_cast mode.toInt_nonneg (by positivity)
  rw [h.nearest]
  positivity

theorem neg (h : value.Stores mode x places) : (-value).Stores mode.mirror (-x) places := by
  obtain ⟨nearest, full⟩ := h
  constructor
  · rw [toRat_neg, nearest, neg_mul, RoundingMode.toInt_neg, RoundingMode.mirror_mirror]
    push_cast
    ring
  · rwa [toRat_neg, neg_inj, abs_neg]

theorem nonpos (h : value.Stores mode x places) (sign : x ≤ 0) : value.toRat ≤ 0 := by
  have := h.neg.nonneg (by linarith)
  rw [toRat_neg] at this
  linarith

theorem abs_mul (h : value.Stores mode x places) (nearest : mode.IsNearest) :
    |value.toRat| * 10 ^ places = mode.toInt (|x| * 10 ^ places) := by
  rcases le_total 0 x with sign | sign
  · rw [abs_of_nonneg sign, abs_of_nonneg (h.nonneg sign), h.toRat_mul]
  · have mirrored := h.neg.toRat_mul
    rwa [nearest.mirror_eq, toRat_neg, ← abs_of_nonpos sign,
      ← abs_of_nonpos (h.nonpos sign)] at mirrored

theorem eq_maxScale_of_toRat_eq_zero (h : value.Stores mode x places) (nearest : mode.IsNearest)
    (nonzero : x ≠ 0) (vanishes : value.toRat = 0) : places = maxScale := by
  have scaled := h.abs_mul nearest
  rw [vanishes, abs_zero, zero_mul] at scaled
  rcases h.full with exact | full | long
  · exact absurd (exact.symm.trans vanishes) nonzero
  · exact full
  · have least : (10 ^ 27 : ℤ) ≤ mode.toInt (|x| * 10 ^ places) :=
      mode.intCast_le_toInt (by exact_mod_cast long)
    have most : (10 ^ 27 : ℤ) ≤ 0 := by
      exact_mod_cast scaled ▸ (Int.cast_le (R := ℚ)).2 least
    norm_num at most

theorem toRat_ne_zero (h : value.Stores mode x places) (nearest : mode.IsNearest)
    (large : 1 ≤ |x| * 10 ^ maxScale) : value.toRat ≠ 0 := by
  intro vanishes
  have nonzero : x ≠ 0 := by
    rintro rfl
    norm_num at large
  have scaled := h.abs_mul nearest
  rw [h.eq_maxScale_of_toRat_eq_zero nearest nonzero vanishes, vanishes, abs_zero,
    zero_mul] at scaled
  have least : 1 ≤ mode.toInt (|x| * 10 ^ maxScale) :=
    mode.intCast_le_toInt (by exact_mod_cast large)
  have none : mode.toInt (|x| * 10 ^ maxScale) = 0 := by exact_mod_cast scaled.symm
  omega

theorem log_or_carry_of_place (h : value.Stores mode x places) (nearest : mode.IsNearest)
    (nonzero : x ≠ 0) (reached : -(places : ℤ) ≤ Int.log 10 |x|) :
    Int.log 10 |value.toRat| = Int.log 10 |x| ∨ |value.toRat| = 10 ^ (Int.log 10 |x| + 1) := by
  have scale : (0 : ℚ) < 10 ^ places := by positivity
  have low := zpow_log_le (abs_pos.2 nonzero)
  have high := lt_zpow_log_add_one |x|
  have scaled := h.abs_mul nearest
  set place := Int.log 10 |x|
  obtain ⟨more, moreEq⟩ := Int.eq_ofNat_of_zero_le (by omega : 0 ≤ place + places)
  have power : (10 : ℚ) ^ place * 10 ^ places = (10 ^ more : ℤ) := by
    push_cast
    rw [← zpow_natCast, ← zpow_natCast, ← zpow_add₀ (by norm_num), moreEq]
  have powerNext : (10 : ℚ) ^ (place + 1) * 10 ^ places = (10 ^ (more + 1) : ℤ) := by
    rw [zpow_add_one₀ (by norm_num), mul_right_comm, power]
    push_cast
    rw [pow_succ]
  have least : 10 ^ place ≤ |value.toRat| := by
    rw [← mul_le_mul_iff_left₀ scale, scaled, power]
    have rounded : (10 ^ more : ℤ) ≤ mode.toInt (|x| * 10 ^ places) := by
      refine mode.intCast_le_toInt (power.symm.trans_le ?_)
      gcongr
    exact_mod_cast rounded
  have most : |value.toRat| ≤ 10 ^ (place + 1) := by
    rw [← mul_le_mul_iff_left₀ scale, scaled, powerNext]
    have rounded : mode.toInt (|x| * 10 ^ places) ≤ (10 ^ (more + 1) : ℤ) := by
      refine mode.toInt_le_intCast (le_of_le_of_eq ?_ powerNext)
      gcongr
    exact_mod_cast rounded
  rcases most.lt_or_eq with less | carry
  · exact .inl (log_eq_of_bounds least less)
  · exact .inr carry

/-- The first digit of a stored number is at the place of that of the exact one, if it is not a one
    with nothing but zeros after it at the next place. -/
theorem log_or_carry (h : value.Stores mode x places) (nearest : mode.IsNearest)
    (nonzero : x ≠ 0) (kept : value.toRat ≠ 0) :
    Int.log 10 |value.toRat| = Int.log 10 |x| ∨ |value.toRat| = 10 ^ (Int.log 10 |x| + 1) := by
  rcases le_or_gt (-(places : ℤ)) (Int.log 10 |x|) with reached | below
  · exact h.log_or_carry_of_place nearest nonzero reached
  right
  have scale : (0 : ℚ) < 10 ^ places := by positivity
  have scaled := h.abs_mul nearest
  have power : (10 : ℚ) ^ (-(places : ℤ)) * 10 ^ places = 1 := by
    rw [zpow_neg, zpow_natCast, inv_mul_cancel₀ scale.ne']
  have small : |x| < 10 ^ (-(places : ℤ)) :=
    (lt_zpow_log_add_one |x|).trans_le (zpow_le_zpow_right₀ (by norm_num) (by omega))
  have lessThanOne : |x| * 10 ^ places < 1 := by
    rw [← power]
    gcongr
  obtain ⟨one, half⟩ := nearest.toInt_eq_one lessThanOne
    (by rw [← scaled]; exact mul_pos (abs_pos.2 kept) scale)
  have large : 10 ^ (-(places : ℤ) - 1) ≤ |x| := by
    rw [← mul_le_mul_iff_left₀ scale, zpow_sub_one₀ (by norm_num), mul_right_comm, power]
    linarith
  have placeEq : Int.log 10 |x| = -(places : ℤ) - 1 :=
    log_eq_of_bounds large (by rwa [sub_add_cancel])
  rw [placeEq, sub_add_cancel, zpow_neg, zpow_natCast, ← one_div, eq_div_iff scale.ne', scaled,
    one, Int.cast_one]

end Decimal.Stores

namespace RoundingMode

theorem toInt_eq_toInt_iff_abs (mode : RoundingMode) {x y : ℚ} (nonneg : 0 ≤ x → 0 ≤ y)
    (nonpos : x ≤ 0 → y ≤ 0) :
    mode.toInt y = mode.toInt x ↔
      ∀ switch, ¬ (mode.onMagnitude (x < 0)).Separates switch |x| |y| := by
  rw [← toInt_eq_toInt_iff _ (abs_nonneg x) (abs_nonneg y), eq_comm]
  rcases lt_or_ge x 0 with negative | positive
  · rw [decide_eq_true negative, onMagnitude, if_pos rfl, abs_of_neg negative,
      abs_of_nonpos (nonpos negative.le)]
    rw [toInt_neg, toInt_neg, mirror_mirror, neg_inj]
  · rw [decide_eq_false (not_lt.2 positive), onMagnitude, if_neg Bool.false_ne_true,
      abs_of_nonneg positive, abs_of_nonneg (nonneg positive)]

theorem two_mul_of_switchesAt {mode : RoundingMode} {switch : ℚ} (h : mode.SwitchesAt switch) :
    ∃ halves : ℤ, 2 * switch = halves := by
  cases mode with
  | halfEven | halfUp | halfDown =>
    have half := eq_floor_add_half h
    refine ⟨2 * ⌊switch⌋ + 1, ?_⟩
    push_cast
    linarith
  | down | up | floor | ceiling =>
    have whole := fract_eq_zero_iff_eq_floor.1 h
    refine ⟨2 * ⌊switch⌋, ?_⟩
    push_cast
    linarith

end RoundingMode

namespace Decimal.Stores

variable {value : Decimal} {mode : RoundingMode} {x : ℚ} {places : Nat}

/-- A switch that separates an exact number from the stored one is one of the two, where the units
    are not smaller than the last place. -/
theorem switch_eq_of_separates {rounding : RoundingMode} {switch unit : ℚ} {units : ℤ}
    (h : value.Stores mode x places) (nearest : mode.IsNearest) (positive : 0 < unit)
    (whole : unit * 10 ^ places = units)
    (separates : rounding.Separates switch (|x| / unit) (|value.toRat| / unit)) :
    switch = |x| / unit ∨ switch = |value.toRat| / unit := by
  obtain ⟨switches, apart⟩ := separates
  obtain ⟨halves, twice⟩ := RoundingMode.two_mul_of_switchesAt switches
  have scale : (0 : ℚ) < 10 ^ places := by positivity
  have twice' : 2 * (switch * unit * 10 ^ places) = (halves * units : ℤ) := by
    push_cast
    rw [← twice, ← whole]
    ring
  have scaled := h.abs_mul nearest
  rcases lt_trichotomy (|x| / unit) switch with less | same | greater
  · right
    have stored : |value.toRat| / unit ≤ switch := by
      rw [div_le_iff₀ positive, ← mul_le_mul_iff_left₀ scale, scaled]
      refine nearest.toInt_le twice' ?_
      rw [mul_lt_mul_iff_left₀ scale]
      exact (div_lt_iff₀ positive).1 less
    rcases stored.lt_or_eq with less' | same
    · exact absurd (iff_of_true (.inl less) (.inl less')) apart
    · exact same.symm
  · exact .inl same.symm
  · right
    have stored : switch ≤ |value.toRat| / unit := by
      rw [le_div_iff₀ positive, ← mul_le_mul_iff_left₀ scale, scaled]
      refine nearest.le_toInt twice' ?_
      rw [mul_lt_mul_iff_left₀ scale]
      exact (lt_div_iff₀ positive).1 greater
    rcases stored.lt_or_eq with greater' | same
    · refine absurd (iff_of_false ?_ ?_) apart
      · rintro (less | ⟨same, -⟩) <;> linarith
      · rintro (less | ⟨same, -⟩) <;> linarith
    · exact same

/-- In units of any size the stored number is rounded like the exact one exactly when no switch
    separates them. -/
theorem toInt_div_eq_iff (h : value.Stores mode x places) (rounding : RoundingMode) {unit : ℚ}
    (positive : 0 < unit) :
    rounding.toInt (value.toRat / unit) = rounding.toInt (x / unit) ↔
      ∀ switch, ¬ (rounding.onMagnitude (x < 0)).Separates switch (|x| / unit)
        (|value.toRat| / unit) := by
  have sign : decide (x < 0) = decide (x / unit < 0) := by
    rw [decide_eq_decide, div_lt_iff₀ positive, zero_mul]
  have nonneg : 0 ≤ x / unit → 0 ≤ value.toRat / unit := fun sign =>
    div_nonneg (h.nonneg (by simpa using (le_div_iff₀ positive).1 sign)) positive.le
  have nonpos : x / unit ≤ 0 → value.toRat / unit ≤ 0 := fun sign =>
    div_nonpos_of_nonpos_of_nonneg
      (h.nonpos (by simpa using (div_le_iff₀ positive).1 sign)) positive.le
  have alike := rounding.toInt_eq_toInt_iff_abs nonneg nonpos
  rwa [abs_div, abs_div, abs_of_pos positive, ← sign] at alike

end Decimal.Stores

namespace Precision

variable {precision : Precision} {operator : Operator} {left right result : Decimal}

theorem exists_unit_mul_eq {value : Decimal} {mode : RoundingMode} {x : ℚ} {places : Nat}
    (stores : value.Stores mode x places) (inexact : value.toRat ≠ x)
    (large : 10 ^ (precision.digits - 29 : ℤ) ≤ |x|) :
    ∃ units : ℤ, precision.unit x * 10 ^ places = units := by
  have positive : 0 < |x| := lt_of_lt_of_le (by positivity) large
  have digits := precision.digits_le
  have enough : 0 ≤ Int.log 10 |x| + 1 - precision.digits + places := by
    rcases stores.full with exact | full | long
    · exact absurd exact inexact
    · have place : (precision.digits - 29 : ℤ) ≤ Int.log 10 |x| :=
        (Int.zpow_le_iff_le_log (by norm_num) positive).1 (by exact_mod_cast large)
      rw [full, maxScale]
      omega
    · have scaled : (10 : ℚ) ^ (27 - places : ℤ) ≤ |x| := by
        rw [zpow_sub₀ (by norm_num), div_le_iff₀ (by positivity)]
        exact_mod_cast long
      have place : (27 - places : ℤ) ≤ Int.log 10 |x| :=
        (Int.zpow_le_iff_le_log (by norm_num) positive).1 (by exact_mod_cast scaled)
      unfold maxDigits at digits
      omega
  obtain ⟨more, moreEq⟩ := Int.eq_ofNat_of_zero_le enough
  refine ⟨10 ^ more, ?_⟩
  push_cast
  rw [unit, ← zpow_natCast, ← zpow_natCast, ← zpow_add₀ (by norm_num), moreEq]

/-- What is stored of a number is rounded, in units of the last digit to keep, by the mode. That is
    the number rounded once if and only if no switch separates the number from the stored one, and a
    switch that does is one of the two, unless the number is so small that its last digit to keep
    would be past the last place. -/
theorem round_eq_rounded_iff {stored : Decimal} {mode : RoundingMode} {x : ℚ} {places : Nat}
    (stores : stored.Stores mode x places) (nearest : mode.IsNearest)
    (vanishes : stored.toRat = 0 → x = 0) (kept : precision.round stored = .ok result) :
    let unit := precision.unit x
    let rounding := precision.rounding.onMagnitude (x < 0)
    result.toRat = precision.rounding.toInt (stored.toRat / unit) * unit ∧
    (result.toRat = precision.rounded x ↔
      ∀ switch, ¬ rounding.Separates switch (|x| / unit) (|stored.toRat| / unit)) ∧
    (10 ^ (precision.digits - 29 : ℤ) ≤ |x| →
      ∀ switch, rounding.Separates switch (|x| / unit) (|stored.toRat| / unit) →
        switch = |x| / unit ∨ switch = |stored.toRat| / unit) := by
  intro unit rounding
  have positive : 0 < unit := precision.unit_pos x
  have twice : result.toRat = precision.rounding.toInt (stored.toRat / unit) * unit := by
    rw [precision.toRat_of_round kept]
    by_cases zero : x = 0
    · have storedZero : stored.toRat = 0 :=
        le_antisymm (stores.nonpos zero.le) (stores.nonneg zero.ge)
      rw [storedZero, rounded_zero, zero_div, RoundingMode.toInt_zero, Int.cast_zero, zero_mul]
    · exact precision.rounded_eq_of_log (stores.log_or_carry nearest zero (mt vanishes zero))
  refine ⟨twice, ?_, ?_⟩
  · rw [twice, rounded, mul_left_inj' positive.ne', Int.cast_inj]
    exact stores.toInt_div_eq_iff precision.rounding positive
  · intro large switch separates
    by_cases same : stored.toRat = x
    · rw [same] at separates
      exact absurd Iff.rfl separates.2
    · obtain ⟨units, whole⟩ := exists_unit_mul_eq stores same large
      exact stores.switch_eq_of_separates nearest positive whole separates

/-- The result of an operation is the exact one rounded to what a decimal has room for and then, in
    units of the last digit to keep, by the mode. It is the exact one rounded once if and only if no
    switch separates the exact result from the stored one; and a switch that does is one of the two,
    unless the result is so small that its last digit to keep would be past the last place. -/
theorem apply_eq_rounded_iff (h : precision.apply operator left right = .ok result) :
    ∃ stored places, operator.stored? left right = some stored ∧
      let exact := operator.exact left.toRat right.toRat
      let unit := precision.unit exact
      let mode := precision.rounding.onMagnitude (exact < 0)
      stored.StandsFor exact places ∧
      result.toRat = precision.rounding.toInt (stored.toRat / unit) * unit ∧
      (result.toRat = precision.rounded exact ↔
        ∀ switch, ¬ mode.Separates switch (|exact| / unit) (|stored.toRat| / unit)) ∧
      (10 ^ (precision.digits - 29 : ℤ) ≤ |exact| →
        ∀ switch, mode.Separates switch (|exact| / unit) (|stored.toRat| / unit) →
          switch = |exact| / unit ∨ switch = |stored.toRat| / unit) := by
  obtain ⟨stored, made, kept, ⟨places, stands⟩, vanishes⟩ := stored_of_apply h
  exact ⟨stored, places, made, stands,
    round_eq_rounded_iff stands.stores trivial vanishes kept⟩

/-- A third with sixteen digits is what one rounding gives, and no switch is between the two
    numbers. -/
theorem third_stands_for_quotient :
    let one : Decimal := ⟨false, 1, 0, by decide, by decide⟩
    let three : Decimal := ⟨false, 3, 0, by decide, by decide⟩
    let third : Decimal := ⟨false, 3333333333333333, 16, by decide, by decide⟩
    let exact := Operator.divide.exact one.toRat three.toRat
    let unit := decimal64.unit exact
    let mode := decimal64.rounding.onMagnitude (exact < 0)
    decimal64.apply .divide one three = .ok third ∧
      third.toRat = decimal64.rounded exact ∧
      ∃ stored places, Operator.divide.stored? one three = some stored ∧
        stored.StandsFor exact places ∧
        third.toRat = decimal64.rounding.toInt (stored.toRat / unit) * unit ∧
        ∀ switch, ¬ mode.Separates switch (|exact| / unit) (|stored.toRat| / unit) := by
  intro one three third exact unit mode
  have quotient : decimal64.apply .divide one three = .ok third := by decide +kernel
  have value : exact = 1 / 3 := by
    norm_num [exact, one, three, Operator.exact, Decimal.toRat_eq, signFactor]
  have once : third.toRat = decimal64.rounded exact := by
    have counted : exact / 10 ^ ((-1 : ℤ) + 1 - decimal64.digits) = (10 ^ 16 : ℕ) / (3 : ℕ) := by
      norm_num [value, decimal64]
    have digits : decimal64.rounding.divide false (10 ^ 16) 3 = 3333333333333333 := by
      decide +kernel
    rw [decimal64.rounded_eq_divide (-1) (by norm_num [value]) (by norm_num [value]) (by norm_num)
      counted, digits]
    norm_num [third, decimal64, Decimal.toRat_eq, signFactor]
  obtain ⟨stored, places, made, stands, rounds, single, -⟩ := apply_eq_rounded_iff quotient
  exact ⟨quotient, once, stored, places, made, stands, rounds, single.1 once⟩

/-- Two thirds, with all digits and rounding down, are stored above what one rounding would give. -/
theorem not_forall_apply_eq_rounded :
    ¬ ∀ (precision : Precision) (operator : Operator) (left right result : Decimal),
      precision.round left = .ok left → precision.round right = .ok right →
        precision.apply operator left right = .ok result →
          result.toRat = precision.rounded (operator.exact left.toRat right.toRat) := by
  intro rounds
  have stored := rounds ⟨28, .down, by decide, by decide⟩ .divide
    ⟨false, 2, 0, by decide, by decide⟩ ⟨false, 3, 0, by decide, by decide⟩
    ⟨false, 6666666666666666666666666667, 28, by decide, by decide⟩
    (by decide +kernel) (by decide +kernel) (by decide +kernel)
  have exact : Operator.divide.exact (Decimal.toRat ⟨false, 2, 0, by decide, by decide⟩)
      (Decimal.toRat ⟨false, 3, 0, by decide, by decide⟩) = 2 / 3 := by
    norm_num [Operator.exact, Decimal.toRat_eq, signFactor]
  have shown : Decimal.toRat ⟨false, 6666666666666666666666666667, 28, by decide, by decide⟩ =
      6666666666666666666666666667 / 10 ^ 28 := by
    norm_num [Decimal.toRat_eq, signFactor]
  rw [exact, shown] at stored
  have toward := rounded_le_of_down ⟨28, .down, by decide, by decide⟩ rfl
    (by norm_num : (0 : ℚ) ≤ 2 / 3)
  rw [← stored] at toward
  norm_num at toward

end Precision

end Reckoner
