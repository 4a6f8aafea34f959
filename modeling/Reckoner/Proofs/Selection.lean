import Mathlib.Order.Bounds.Basic
import Reckoner.Proofs.Overflow

/-! # The number that a mode selects

What a mode makes of a number is stated here without units and digits that are cut off: among the
numbers with no more digits than are kept it takes the next one in its direction, or the closest one
with a rule for two that are equally close. There is exactly one such number, and it is what
rounding gives. It is written with the smallest scale and without a negative zero, and there is no
room for it only if its magnitude reaches the bound of mantissas.
-/

namespace Reckoner

/-- Whether no other number of a set is closer. -/
def IsClosest (s : Set ℚ) (x y : ℚ) : Prop :=
  y ∈ s ∧ ∀ z ∈ s, |y - x| ≤ |z - x|

/-- What a mode asks of the number of a set that it selects for `x`. The last set has the numbers
    that count as even. -/
def RoundingMode.Selects (mode : RoundingMode) (s : Set ℚ) (x y : ℚ) (even : Set ℚ) : Prop :=
  match mode with
  | .halfEven => IsClosest s x y ∧ ∀ z, IsClosest s x z → z ≠ y → y ∈ even
  | .halfUp => IsClosest s x y ∧ ∀ z, IsClosest s x z → |z| ≤ |y|
  | .halfDown => IsClosest s x y ∧ ∀ z, IsClosest s x z → |y| ≤ |z|
  | .down =>
    if 0 ≤ x then IsGreatest {z | z ∈ s ∧ z ≤ x} y else IsLeast {z | z ∈ s ∧ x ≤ z} y
  | .up =>
    if 0 ≤ x then IsLeast {z | z ∈ s ∧ x ≤ z} y else IsGreatest {z | z ∈ s ∧ z ≤ x} y
  | .floor => IsGreatest {z | z ∈ s ∧ z ≤ x} y
  | .ceiling => IsLeast {z | z ∈ s ∧ x ≤ z} y

/-- The numbers of a set that are next to another number on both sides. -/
structure Encloses (s : Set ℚ) (x low high : ℚ) : Prop where
  below : IsGreatest {z | z ∈ s ∧ z ≤ x} low
  above : IsLeast {z | z ∈ s ∧ x ≤ z} high

namespace Encloses

variable {s even : Set ℚ} {x low high y z : ℚ} {mode : RoundingMode}

theorem refl (mem : x ∈ s) : Encloses s x x x where
  below := ⟨⟨mem, le_rfl⟩, fun _ other => other.2⟩
  above := ⟨⟨mem, le_rfl⟩, fun _ other => other.2⟩

/-- Only the two numbers on both sides can be closest, and each of them is if it is no farther than
    the other one. -/
theorem isClosest_iff (h : Encloses s x low high) :
    IsClosest s x z ↔ z = low ∧ x - low ≤ high - x ∨ z = high ∧ high - x ≤ x - low := by
  obtain ⟨⟨⟨lowMem, lowLe⟩, greatest⟩, ⟨⟨highMem, leHigh⟩, least⟩⟩ := h
  have lowAway : |low - x| = x - low := by rw [abs_sub_comm, abs_of_nonneg (sub_nonneg.2 lowLe)]
  have highAway : |high - x| = high - x := abs_of_nonneg (sub_nonneg.2 leHigh)
  constructor
  · rintro ⟨mem, closest⟩
    have toLow := closest low lowMem
    have toHigh := closest high highMem
    rw [lowAway] at toLow
    rw [highAway] at toHigh
    rcases le_total z x with le | ge
    · rw [abs_sub_comm, abs_of_nonneg (sub_nonneg.2 le)] at toLow toHigh
      obtain rfl : z = low := le_antisymm (greatest ⟨mem, le⟩) (by linarith)
      exact .inl ⟨rfl, toHigh⟩
    · rw [abs_of_nonneg (sub_nonneg.2 ge)] at toLow toHigh
      obtain rfl : z = high := le_antisymm (by linarith) (least ⟨mem, ge⟩)
      exact .inr ⟨rfl, toLow⟩
  · have away {other} (mem : other ∈ s) : x - low ≤ |other - x| ∨ high - x ≤ |other - x| := by
      rcases le_total other x with le | ge
      · rw [abs_sub_comm, abs_of_nonneg (sub_nonneg.2 le)]
        exact .inl (sub_le_sub_left (greatest ⟨mem, le⟩) x)
      · rw [abs_of_nonneg (sub_nonneg.2 ge)]
        exact .inr (sub_le_sub_right (least ⟨mem, ge⟩) x)
    rintro (⟨rfl, closer⟩ | ⟨rfl, closer⟩)
    · refine ⟨lowMem, fun other mem => ?_⟩
      rw [lowAway]
      exact (away mem).elim id closer.trans
    · refine ⟨highMem, fun other mem => ?_⟩
      rw [highAway]
      exact (away mem).elim closer.trans id

end Encloses

namespace RoundingMode

variable {s even : Set ℚ} {x y first second : ℚ} {mode : RoundingMode}

theorem IsNearest.selects_iff (nearest : mode.IsNearest)
    (only : ∀ z, IsClosest s x z ↔ z = first) : mode.Selects s x y even ↔ y = first := by
  cases mode with
  | halfEven | halfUp | halfDown =>
    simp only [Selects, only]
    refine and_iff_left_of_imp ?_
    rintro rfl z rfl
    simp
  | down | up | floor | ceiling => cases nearest

theorem IsNearest.toInt_of_lt {q : ℚ} (nearest : mode.IsNearest) (low : Int.fract q < 1 / 2) :
    mode.toInt q = ⌊q⌋ := by
  obtain ⟨tie, -, -, same⟩ := nearest.exists_tie q
  rw [same, nearestOr, if_pos low]

theorem IsNearest.toInt_of_gt {q : ℚ} (nearest : mode.IsNearest) (high : 1 / 2 < Int.fract q) :
    mode.toInt q = ⌈q⌉ := by
  obtain ⟨tie, -, -, same⟩ := nearest.exists_tie q
  rw [same, nearestOr, if_neg high.not_gt, if_pos high]

variable (both : ∀ z, IsClosest s x z ↔ z = first ∨ z = second)

include both

theorem selects_halfUp_iff (farther : |first| < |second|) :
    halfUp.Selects s x y even ↔ y = second := by
  simp only [Selects, both]
  constructor
  · rintro ⟨rfl | rfl, farthest⟩
    · exact absurd (farthest second (.inr rfl)) farther.not_ge
    · rfl
  · rintro rfl
    exact ⟨.inr rfl, by rintro z (rfl | rfl); exacts [farther.le, le_rfl]⟩

theorem selects_halfDown_iff (farther : |first| < |second|) :
    halfDown.Selects s x y even ↔ y = first := by
  simp only [Selects, both]
  constructor
  · rintro ⟨rfl | rfl, nearest⟩
    · rfl
    · exact absurd (nearest first (.inl rfl)) farther.not_ge
  · rintro rfl
    exact ⟨.inl rfl, by rintro z (rfl | rfl); exacts [le_rfl, farther.le]⟩

theorem selects_halfEven_iff (apart : first ≠ second) (isEven : first ∈ even)
    (isOdd : second ∉ even) : halfEven.Selects s x y even ↔ y = first := by
  simp only [Selects, both]
  constructor
  · rintro ⟨rfl | rfl, tie⟩
    · rfl
    · exact absurd (tie first (.inl rfl) apart) isOdd
  · rintro rfl
    exact ⟨.inl rfl, fun _ _ _ => isEven⟩

end RoundingMode

/-! ## Whole numbers of a unit -/

section Units

variable {x unit : ℚ} (positive : 0 < unit) (between : Int.fract (x / unit) ≠ 0)

include positive between

theorem abs_floor_lt_abs_ceil (nonneg : 0 ≤ x / unit) :
    |⌊x / unit⌋ * unit| < |⌈x / unit⌉ * unit| := by
  have next := RoundingMode.ceil_eq_floor_add_one between
  have least := Int.floor_nonneg.2 nonneg
  rw [abs_mul, abs_mul, abs_of_pos positive, mul_lt_mul_iff_left₀ positive, ← Int.cast_abs,
    ← Int.cast_abs, Int.cast_lt, abs_of_nonneg least, abs_of_nonneg (by omega)]
  omega

theorem abs_ceil_lt_abs_floor (negative : x / unit < 0) :
    |⌈x / unit⌉ * unit| < |⌊x / unit⌋ * unit| := by
  have next := RoundingMode.ceil_eq_floor_add_one between
  have most : ⌈x / unit⌉ ≤ 0 := Int.ceil_le.2 (by exact_mod_cast negative.le)
  rw [abs_mul, abs_mul, abs_of_pos positive, mul_lt_mul_iff_left₀ positive, ← Int.cast_abs,
    ← Int.cast_abs, Int.cast_lt, abs_of_nonpos most, abs_of_nonpos (by omega)]
  omega

end Units

namespace Encloses

variable {s even : Set ℚ} {x y z unit : ℚ} {mode : RoundingMode}

theorem selects_iff_of_mem (mem : x ∈ s) : mode.Selects s x y even ↔ y = x := by
  have h := Encloses.refl mem
  have low : IsGreatest {z | z ∈ s ∧ z ≤ x} y ↔ y = x := h.below.isGreatest_iff_eq.trans eq_comm
  have high : IsLeast {z | z ∈ s ∧ x ≤ z} y ↔ y = x := h.above.isLeast_iff_eq.trans eq_comm
  have closest : ∀ z, IsClosest s x z ↔ z = x := by
    intro z
    rw [h.isClosest_iff]
    simp only [le_refl, and_true, or_self]
  cases mode with
  | floor => exact low
  | ceiling => exact high
  | down | up =>
    simp only [RoundingMode.Selects]
    split
    all_goals assumption
  | halfEven | halfUp | halfDown => exact RoundingMode.IsNearest.selects_iff trivial closest

variable (h : Encloses s x (⌊x / unit⌋ * unit) (⌈x / unit⌉ * unit)) (positive : 0 < unit)
  (between : Int.fract (x / unit) ≠ 0)

include h positive between

theorem isClosest_iff_fract :
    IsClosest s x z ↔ z = ⌊x / unit⌋ * unit ∧ Int.fract (x / unit) ≤ 1 / 2 ∨
      z = ⌈x / unit⌉ * unit ∧ 1 / 2 ≤ Int.fract (x / unit) := by
  have counted : x = x / unit * unit := (div_mul_cancel₀ x positive.ne').symm
  have whole := Int.floor_add_fract (x / unit)
  have next : (⌈x / unit⌉ : ℚ) = ⌊x / unit⌋ + 1 := by
    exact_mod_cast RoundingMode.ceil_eq_floor_add_one between
  have toLow : x - ⌊x / unit⌋ * unit = Int.fract (x / unit) * unit := by
    rw [Int.fract, sub_mul, ← counted]
  have toHigh : ⌈x / unit⌉ * unit - x = (1 - Int.fract (x / unit)) * unit := by
    rw [next, Int.fract, sub_mul, sub_mul, ← counted]
    ring
  have lower : Int.fract (x / unit) ≤ 1 - Int.fract (x / unit) ↔ Int.fract (x / unit) ≤ 1 / 2 := by
    constructor <;> intro le <;> linarith
  have upper : 1 - Int.fract (x / unit) ≤ Int.fract (x / unit) ↔ 1 / 2 ≤ Int.fract (x / unit) := by
    constructor <;> intro le <;> linarith
  rw [h.isClosest_iff, toLow, toHigh, mul_le_mul_iff_left₀ positive, mul_le_mul_iff_left₀ positive,
    lower, upper]

theorem selects_iff_of_ne_half (nearest : mode.IsNearest) (untied : Int.fract (x / unit) ≠ 1 / 2) :
    mode.Selects s x y even ↔ y = mode.toInt (x / unit) * unit := by
  rcases untied.lt_or_gt with low | high
  · rw [nearest.toInt_of_lt low]
    refine nearest.selects_iff fun z => ?_
    rw [h.isClosest_iff_fract positive between]
    simp only [low.le, low.not_ge, and_true, and_false, or_false]
  · rw [nearest.toInt_of_gt high]
    refine nearest.selects_iff fun z => ?_
    rw [h.isClosest_iff_fract positive between]
    simp only [high.le, high.not_ge, and_true, and_false, false_or]

theorem selects_iff_of_half (nearest : mode.IsNearest)
    (parity : ∀ n : ℤ, n * unit ∈ even ↔ Even n) (tie : Int.fract (x / unit) = 1 / 2) :
    mode.Selects s x y even ↔ y = mode.toInt (x / unit) * unit := by
  have next := RoundingMode.ceil_eq_floor_add_one between
  have both : ∀ z, IsClosest s x z ↔ z = ⌊x / unit⌋ * unit ∨ z = ⌈x / unit⌉ * unit := by
    intro z
    rw [h.isClosest_iff_fract positive between]
    simp only [tie, le_refl, and_true]
  have swapped : ∀ z, IsClosest s x z ↔ z = ⌈x / unit⌉ * unit ∨ z = ⌊x / unit⌋ * unit :=
    fun z => (both z).trans or_comm
  cases mode with
  | halfEven =>
    have apart : (⌊x / unit⌋ : ℚ) * unit ≠ ⌈x / unit⌉ * unit := by
      rw [ne_eq, mul_left_inj' positive.ne', Int.cast_inj]
      omega
    have odd : Even ⌈x / unit⌉ ↔ ¬ Even ⌊x / unit⌋ := by rw [next, Int.even_add_one]
    simp only [RoundingMode.toInt, RoundingMode.nearestOr, tie, lt_irrefl, if_false]
    split
    · next isEven =>
      refine RoundingMode.selects_halfEven_iff both apart ((parity _).2 isEven) ?_
      rw [parity, odd, not_not]
      exact isEven
    · next isOdd =>
      refine RoundingMode.selects_halfEven_iff swapped apart.symm ?_ (mt (parity _).1 isOdd)
      rw [parity, odd]
      exact isOdd
  | halfUp =>
    simp only [RoundingMode.toInt, RoundingMode.nearestOr, RoundingMode.awayFromZero, tie,
      lt_irrefl, if_false]
    split
    · next nonneg =>
      exact RoundingMode.selects_halfUp_iff both (abs_floor_lt_abs_ceil positive between nonneg)
    · next negative =>
      exact RoundingMode.selects_halfUp_iff swapped
        (abs_ceil_lt_abs_floor positive between (not_le.1 negative))
  | halfDown =>
    simp only [RoundingMode.toInt, RoundingMode.nearestOr, RoundingMode.towardZero, tie,
      lt_irrefl, if_false]
    split
    · next nonneg =>
      exact RoundingMode.selects_halfDown_iff both (abs_floor_lt_abs_ceil positive between nonneg)
    · next negative =>
      exact RoundingMode.selects_halfDown_iff swapped
        (abs_ceil_lt_abs_floor positive between (not_le.1 negative))
  | down | up | floor | ceiling => cases nearest

theorem selects_iff (parity : ∀ n : ℤ, n * unit ∈ even ↔ Even n) :
    mode.Selects s x y even ↔ y = mode.toInt (x / unit) * unit := by
  have low : IsGreatest {z | z ∈ s ∧ z ≤ x} y ↔ y = ⌊x / unit⌋ * unit :=
    h.below.isGreatest_iff_eq.trans eq_comm
  have high : IsLeast {z | z ∈ s ∧ x ≤ z} y ↔ y = ⌈x / unit⌉ * unit :=
    h.above.isLeast_iff_eq.trans eq_comm
  have sign : 0 ≤ x / unit ↔ 0 ≤ x := by rw [le_div_iff₀ positive, zero_mul]
  cases mode with
  | floor => exact low
  | ceiling => exact high
  | down =>
    simp only [RoundingMode.Selects, RoundingMode.toInt, RoundingMode.towardZero, sign]
    split
    · exact low
    · exact high
  | up =>
    simp only [RoundingMode.Selects, RoundingMode.toInt, RoundingMode.awayFromZero, sign]
    split
    · exact high
    · exact low
  | halfEven | halfUp | halfDown =>
    by_cases tie : Int.fract (x / unit) = 1 / 2
    · exact h.selects_iff_of_half positive between trivial parity tie
    · exact h.selects_iff_of_ne_half positive between trivial tie

end Encloses

namespace Precision

variable {precision : Precision} {x y : ℚ}

/-- The number that the mode of a working precision selects among those with no more digits than are
    kept. Even are those whose last digit is even, the last one to keep of `x`. -/
def Selects (precision : Precision) (x y : ℚ) : Prop :=
  precision.rounding.Selects {z | precision.HasDigits z} x y
    {z | ∃ n : ℤ, Even n ∧ z = n * precision.unit x}

theorem hasDigits_zero : precision.HasDigits 0 :=
  ⟨0, 0, by positivity, by simp⟩

/-- The whole numbers of units next to a number have no more digits than are kept, or are a power of
    ten. -/
theorem hasDigits_mul_unit {n : ℤ} (low : ⌊x / precision.unit x⌋ ≤ n)
    (high : n ≤ ⌈x / precision.unit x⌉) : precision.HasDigits (n * precision.unit x) := by
  have positive := precision.unit_pos x
  have bound : |x| < (10 ^ precision.digits : ℕ) * precision.unit x := by
    refine (lt_zpow_log_add_one |x|).trans_eq ?_
    rw [unit, Nat.cast_pow, ← zpow_natCast, Nat.cast_ofNat, ← zpow_add₀ (by norm_num),
      add_sub_cancel]
  have size : |x / precision.unit x| < (10 ^ precision.digits : ℕ) := by
    rwa [abs_div, abs_of_pos positive, div_lt_iff₀ positive]
  obtain ⟨below, above⟩ := abs_lt.1 size
  have least : -(10 ^ precision.digits : ℕ) ≤ ⌊x / precision.unit x⌋ :=
    Int.le_floor.2 (by exact_mod_cast below.le)
  have most : ⌈x / precision.unit x⌉ ≤ (10 ^ precision.digits : ℕ) :=
    Int.ceil_le.2 (by exact_mod_cast above.le)
  have few : n.natAbs ≤ 10 ^ precision.digits := by omega
  rcases few.lt_or_eq with less | carry
  · refine ⟨n.natAbs, Int.log 10 |x| + 1 - precision.digits, less, ?_⟩
    rw [abs_mul, abs_of_pos positive, Nat.cast_natAbs, Int.cast_abs, unit]
  · refine ⟨1, Int.log 10 |x| + 1, Nat.one_lt_pow precision.digits_pos.ne' (by decide), ?_⟩
    rw [abs_mul, abs_of_pos positive, ← Int.cast_abs, ← Nat.cast_natAbs, carry, unit, Nat.cast_pow,
      Nat.cast_one, one_mul, ← zpow_natCast, Nat.cast_ofNat, ← zpow_add₀ (by norm_num),
      add_sub_cancel]

theorem encloses_units (nonzero : x ≠ 0) :
    Encloses {z | precision.HasDigits z} x (⌊x / precision.unit x⌋ * precision.unit x)
      (⌈x / precision.unit x⌉ * precision.unit x) where
  below := by
    refine ⟨⟨hasDigits_mul_unit le_rfl (Int.floor_le_ceil _), ?_⟩,
      fun y few => few.1.le_floor nonzero few.2⟩
    rw [← le_div_iff₀ (precision.unit_pos x)]
    exact Int.floor_le _
  above := by
    refine ⟨⟨hasDigits_mul_unit (Int.floor_le_ceil _) le_rfl, ?_⟩,
      fun y few => few.1.ceil_le nonzero few.2⟩
    rw [← div_le_iff₀ (precision.unit_pos x)]
    exact Int.le_ceil _

theorem HasDigits.rounded_eq (h : precision.HasDigits x) : precision.rounded x = x := by
  rcases h.eq_mul_unit_or_lt x with ⟨n, units⟩ | less
  · exact toInt_div_mul_cancel _ n units (precision.unit_pos x)
  · by_cases zero : x = 0
    · rw [zero, rounded_zero]
    · exact absurd less (zpow_log_le (abs_pos.2 zero)).not_gt

/-- The number that the mode selects is the rounded one, and no other. -/
theorem selects_iff_eq_rounded : precision.Selects x y ↔ y = precision.rounded x := by
  have positive := precision.unit_pos x
  by_cases few : precision.HasDigits x
  · rw [few.rounded_eq]
    exact Encloses.selects_iff_of_mem few
  · have nonzero : x ≠ 0 := fun zero => few (zero ▸ hasDigits_zero)
    refine (encloses_units nonzero).selects_iff positive (fun whole => few ?_) fun n => ?_
    · have counted := hasDigits_mul_unit le_rfl (Int.floor_le_ceil (x / precision.unit x))
      rwa [← RoundingMode.fract_eq_zero_iff_eq_floor.1 whole, div_mul_cancel₀ x positive.ne']
        at counted
    · constructor
      · rintro ⟨m, even, same⟩
        rw [mul_left_inj' positive.ne', Int.cast_inj] at same
        exact same ▸ even
      · exact fun even => ⟨n, even, rfl⟩

/-- Rounding is exact: it gives the one number that the mode selects among those with no more digits
    than are kept, which is the number itself where it has no more, with the smallest scale and
    without a negative zero, and overflows where there is no room for the number selected. -/
theorem round_selects (precision : Precision) (value : Decimal) :
    ∃ selected, (∀ y, precision.Selects value.toRat y ↔ y = selected) ∧
      (precision.HasDigits value.toRat → selected = value.toRat) ∧
      (|selected| < mantissaLimit →
        ∃ result, precision.round value = .ok result ∧ result.toRat = selected ∧
          IsLeast {places : ℕ | ∃ n : ℤ, selected * 10 ^ places = n} result.scale ∧
          (result.negative = true → selected < 0)) ∧
      (mantissaLimit ≤ |selected| → precision.round value = .error .overflow) := by
  refine ⟨precision.rounded value.toRat, fun y => selects_iff_eq_rounded,
    HasDigits.rounded_eq, fun room => ?_, round_eq_overflow_iff.2⟩
  obtain ⟨result, rounds, same⟩ := exists_round_of_lt room
  obtain ⟨least, sign⟩ := Decimal.normalize_eq_self_iff.1 (keeps_of_round rounds).2
  rw [same] at least sign
  exact ⟨result, rounds, same, least, sign⟩

/-- Half-way between nine and ten the mode goes to ten, which ends with a zero where nine ends with
    a nine. -/
example : (⟨1, .halfEven, by decide, by decide⟩ : Precision).round
    ⟨true, 95, 1, by decide, by decide⟩ = .ok ⟨true, 10, 0, by decide, by decide⟩ := by
  decide +kernel

end Precision

end Reckoner
