import Mathlib.Data.Rat.Floor
import Mathlib.Tactic.Linarith
import Mathlib.Tactic.NormNum
import Mathlib.Tactic.FieldSimp
import Mathlib.Tactic.Push
import Reckoner.Rounding

/-! # Rounding of exact numbers

What a mode makes of a rational number, stated without quotients and remainders, is what
`RoundingMode.divide` computes. As a function of the number it is a staircase: it is constant
between two numbers at which it switches, and such a number itself belongs to the step on one of
its sides.
So two numbers are rounded alike exactly when no switch lies between them.
-/

namespace Reckoner

namespace RoundingMode

def towardZero (x : ℚ) : ℤ :=
  if 0 ≤ x then ⌊x⌋ else ⌈x⌉

def awayFromZero (x : ℚ) : ℤ :=
  if 0 ≤ x then ⌈x⌉ else ⌊x⌋

/-- The nearer neighbour, or `tie` where both are equally near. -/
def nearestOr (tie : ℤ) (x : ℚ) : ℤ :=
  if Int.fract x < 1 / 2 then ⌊x⌋ else if 1 / 2 < Int.fract x then ⌈x⌉ else tie

/-- The whole number that stands for a number. -/
def toInt (mode : RoundingMode) (x : ℚ) : ℤ :=
  match mode with
  | halfEven => nearestOr (if Even ⌊x⌋ then ⌊x⌋ else ⌈x⌉) x
  | halfUp => nearestOr (awayFromZero x) x
  | halfDown => nearestOr (towardZero x) x
  | down => towardZero x
  | up => awayFromZero x
  | floor => ⌊x⌋
  | ceiling => ⌈x⌉

/-- The mode that does to negative numbers what this one does to positive ones. -/
def mirror : RoundingMode → RoundingMode
  | floor => ceiling
  | ceiling => floor
  | mode => mode

@[simp]
theorem mirror_mirror (mode : RoundingMode) : mode.mirror.mirror = mode := by
  cases mode <;> rfl

/-- The mode as it acts on the magnitudes of numbers with one sign. -/
def onMagnitude (mode : RoundingMode) (negative : Bool) : RoundingMode :=
  if negative then mode.mirror else mode

@[simp]
theorem toInt_intCast (mode : RoundingMode) (n : ℤ) : mode.toInt n = n := by
  cases mode <;> simp [toInt, nearestOr, towardZero, awayFromZero]

@[simp]
theorem toInt_zero (mode : RoundingMode) : mode.toInt 0 = 0 := by
  exact_mod_cast mode.toInt_intCast 0

theorem ceil_eq_floor_add_one {x : ℚ} (h : Int.fract x ≠ 0) : ⌈x⌉ = ⌊x⌋ + 1 :=
  (Int.ceil_eq_floor_add_one_iff_notMem x).2 fun whole => h (Int.fract_eq_zero_iff.2 whole)

theorem toInt_neg (mode : RoundingMode) (x : ℚ) : mode.toInt (-x) = -mode.mirror.toInt x := by
  by_cases whole : Int.fract x = 0
  · obtain ⟨n, rfl⟩ : ∃ n : ℤ, x = n := ⟨⌊x⌋, by rw [Int.fract] at whole; linarith⟩
    rw [← Int.cast_neg, toInt_intCast, toInt_intCast]
  have next := ceil_eq_floor_add_one whole
  have other : Int.fract (-x) = 1 - Int.fract x := Int.fract_neg whole
  have sign : 0 ≤ -x ↔ ¬ 0 ≤ x := by
    have nonzero : x ≠ 0 := fun zero => whole (by simp [zero])
    rw [neg_nonneg, not_le]
    exact ⟨fun h => lt_of_le_of_ne h nonzero, le_of_lt⟩
  cases mode with
  | floor => simp [toInt, mirror, Int.floor_neg]
  | ceiling => simp [toInt, mirror, Int.ceil_neg]
  | down =>
    simp only [toInt, mirror, towardZero, sign]
    grind [Int.floor_neg, Int.ceil_neg]
  | up =>
    simp only [toInt, mirror, awayFromZero, sign]
    grind [Int.floor_neg, Int.ceil_neg]
  | halfUp =>
    simp only [toInt, mirror, nearestOr, awayFromZero, sign, other, Int.floor_neg, Int.ceil_neg]
    grind
  | halfDown =>
    simp only [toInt, mirror, nearestOr, towardZero, sign, other, Int.floor_neg, Int.ceil_neg]
    grind
  | halfEven =>
    have parity : Even (-⌈x⌉) ↔ ¬ Even ⌊x⌋ := by
      rw [even_neg, next, Int.even_add_one]
    simp only [toInt, mirror, nearestOr, other, Int.floor_neg, Int.ceil_neg, parity]
    grind

theorem floor_le_toInt (mode : RoundingMode) (x : ℚ) : ⌊x⌋ ≤ mode.toInt x := by
  have neighbours : ⌊x⌋ ≤ ⌈x⌉ := Int.floor_le_ceil x
  cases mode with
  | floor | ceiling => simp only [toInt]; omega
  | down | up => simp only [toInt, towardZero, awayFromZero]; split <;> omega
  | halfEven | halfUp | halfDown =>
    simp only [toInt, nearestOr, towardZero, awayFromZero]
    split_ifs <;> omega

theorem toInt_le_ceil (mode : RoundingMode) (x : ℚ) : mode.toInt x ≤ ⌈x⌉ := by
  have neighbours : ⌊x⌋ ≤ ⌈x⌉ := Int.floor_le_ceil x
  cases mode with
  | floor | ceiling => simp only [toInt]; omega
  | down | up => simp only [toInt, towardZero, awayFromZero]; split <;> omega
  | halfEven | halfUp | halfDown =>
    simp only [toInt, nearestOr, towardZero, awayFromZero]
    split_ifs <;> omega

theorem intCast_le_toInt (mode : RoundingMode) {x : ℚ} {n : ℤ} (h : n ≤ x) : n ≤ mode.toInt x :=
  (Int.le_floor.2 h).trans (mode.floor_le_toInt x)

theorem toInt_le_intCast (mode : RoundingMode) {x : ℚ} {n : ℤ} (h : x ≤ n) : mode.toInt x ≤ n :=
  (mode.toInt_le_ceil x).trans (Int.ceil_le.2 h)

theorem toInt_nonneg (mode : RoundingMode) {x : ℚ} (h : 0 ≤ x) : 0 ≤ mode.toInt x :=
  mode.intCast_le_toInt (by exact_mod_cast h)

theorem divide_onMagnitude (mode : RoundingMode) (negative : Bool) (dividend divisor : Nat) :
    mode.divide negative dividend divisor =
      (mode.onMagnitude negative).divide false dividend divisor := by
  cases negative with
  | false => rfl
  | true => cases mode <;> rfl

theorem fract_div_natCast_lt_half_iff (dividend : Nat) {divisor : Nat} (h : 0 < divisor) :
    (Int.fract (dividend / divisor : ℚ) < 1 / 2 ↔ 2 * (dividend % divisor) < divisor) ∧
      (1 / 2 < Int.fract (dividend / divisor : ℚ) ↔ divisor < 2 * (dividend % divisor)) := by
  have positive : (0 : ℚ) < divisor := by exact_mod_cast h
  rw [Int.fract_div_natCast_eq_div_natCast_mod, div_lt_div_iff₀ positive (by norm_num),
    div_lt_div_iff₀ (by norm_num) positive, one_mul, mul_comm _ (2 : ℚ)]
  norm_cast

theorem toInt_div_natCast (mode : RoundingMode) (dividend : Nat) {divisor : Nat}
    (h : 0 < divisor) :
    mode.toInt (dividend / divisor : ℚ) = mode.divide false dividend divisor := by
  have positive : (0 : ℚ) < divisor := by exact_mod_cast h
  by_cases even : dividend % divisor = 0
  · obtain ⟨quotient, rfl⟩ := Nat.dvd_of_mod_eq_zero even
    have whole : ((divisor * quotient : ℕ) / divisor : ℚ) = (quotient : ℤ) := by
      push_cast
      exact mul_div_cancel_left₀ _ positive.ne'
    rw [whole, toInt_intCast, divide]
    simp [carries, Nat.mul_div_cancel_left _ h]
  have floorEq := Rat.floor_natCast_div_natCast dividend divisor
  have ceilEq : ⌈(dividend / divisor : ℚ)⌉ = (dividend / divisor : ℕ) + 1 := by
    rw [ceil_eq_floor_add_one, floorEq, Int.natCast_div]
    rw [Int.fract_div_natCast_eq_div_natCast_mod]
    exact div_ne_zero (by exact_mod_cast even) positive.ne'
  rw [← Int.natCast_div] at floorEq
  obtain ⟨below, above⟩ := fract_div_natCast_lt_half_iff dividend h
  have nonneg : (0 : ℚ) ≤ dividend / divisor := by positivity
  have parity : Even ((dividend / divisor : ℕ) : ℤ) ↔ dividend / divisor % 2 = 0 := by
    rw [Int.even_coe_nat, Nat.even_iff]
  cases mode with
  | floor | ceiling | down | up =>
    simp [toInt, towardZero, awayFromZero, divide, carries, floorEq, ceilEq, nonneg, even]
  | halfUp | halfDown | halfEven =>
    simp only [toInt, nearestOr, towardZero, awayFromZero, divide, carries, below, above, floorEq,
      ceilEq, nonneg, parity, if_true]
    simp only [Bool.and_eq_true, Bool.or_eq_true, decide_eq_true_eq, beq_iff_eq]
    split_ifs <;> omega

/-- The quotient that a mode takes is the whole number that stands for the exact one, sign
    included. -/
theorem toInt_signed_div (mode : RoundingMode) (negative : Bool) (dividend : Nat) {divisor : Nat}
    (h : 0 < divisor) :
    mode.toInt ((if negative then -1 else 1) * (dividend / divisor : ℚ)) =
      (if negative then -1 else 1) * mode.divide negative dividend divisor := by
  rw [divide_onMagnitude, ← toInt_div_natCast _ dividend h]
  cases negative with
  | false => simp [onMagnitude]
  | true => simp [onMagnitude, toInt_neg]

/-! ## Switches -/

/-- Whether a mode decides differently on the two sides of a magnitude: half-way between two whole
    numbers for the modes that go to the nearer one, and at whole numbers for the others. -/
def SwitchesAt (mode : RoundingMode) (switch : ℚ) : Prop :=
  match mode with
  | halfEven | halfUp | halfDown => Int.fract switch = 1 / 2
  | down | up | floor | ceiling => Int.fract switch = 0

/-- Whether a switch is rounded like the magnitudes below it. -/
def JoinsBelow (mode : RoundingMode) (switch : ℚ) : Prop :=
  match mode with
  | halfEven => Even ⌊switch⌋
  | halfDown | up | ceiling => True
  | halfUp | down | floor => False

/-- Whether a magnitude is on the lower side of a switch. -/
def IsBelow (mode : RoundingMode) (switch x : ℚ) : Prop :=
  x < switch ∨ x = switch ∧ mode.JoinsBelow switch

/-- What magnitudes directly below a switch are rounded to. -/
def lowerStep (mode : RoundingMode) (switch : ℚ) : ℤ :=
  match mode with
  | halfEven | halfUp | halfDown | up | ceiling => ⌊switch⌋
  | down | floor => ⌊switch⌋ - 1

theorem fract_eq_zero_iff_eq_floor {x : ℚ} : Int.fract x = 0 ↔ x = ⌊x⌋ := by
  rw [Int.fract, sub_eq_zero]

theorem nearestOr_le_iff {tie n : ℤ} {x : ℚ} (tieLow : ⌊x⌋ ≤ tie) (tieHigh : tie ≤ ⌊x⌋ + 1) :
    nearestOr tie x ≤ n ↔ x < n + 1 / 2 ∨ x = n + 1 / 2 ∧ tie = ⌊x⌋ := by
  have whole := Int.floor_add_fract x
  have low := Int.fract_nonneg x
  have high := Int.fract_lt_one x
  simp only [nearestOr]
  split_ifs with small large
  · constructor
    · intro le
      have : (⌊x⌋ : ℚ) ≤ n := by exact_mod_cast le
      left
      linarith
    · intro below
      have : (⌊x⌋ : ℚ) < n + 1 := by rcases below with below | ⟨below, _⟩ <;> linarith
      have : ⌊x⌋ < n + 1 := by exact_mod_cast this
      omega
  · rw [ceil_eq_floor_add_one (by linarith)]
    constructor
    · intro le
      have : (⌊x⌋ : ℚ) + 1 ≤ n := by exact_mod_cast le
      left
      linarith
    · intro below
      have : (⌊x⌋ : ℚ) < n := by rcases below with below | ⟨below, _⟩ <;> linarith
      have : ⌊x⌋ < n := by exact_mod_cast this
      omega
  · have half : Int.fract x = 1 / 2 := le_antisymm (not_lt.1 large) (not_lt.1 small)
    constructor
    · intro le
      by_cases lower : tie = ⌊x⌋
      · have : (⌊x⌋ : ℚ) ≤ n := by exact_mod_cast lower ▸ le
        rcases this.lt_or_eq with less | equal
        · left; linarith
        · right; exact ⟨by linarith, lower⟩
      · have : (⌊x⌋ : ℚ) + 1 ≤ n := by exact_mod_cast (by omega : ⌊x⌋ + 1 ≤ n)
        left
        linarith
    · rintro (below | ⟨same, lower⟩)
      · have : (⌊x⌋ : ℚ) < n := by linarith
        have : ⌊x⌋ < n := by exact_mod_cast this
        omega
      · have : (⌊x⌋ : ℚ) = n := by linarith
        have : ⌊x⌋ = n := by exact_mod_cast this
        omega

theorem eq_floor_add_half {x : ℚ} (h : Int.fract x = 1 / 2) : x = ⌊x⌋ + 1 / 2 := by
  rw [← h]
  exact (Int.floor_add_fract x).symm

/-- What is on the lower side of a switch is rounded to the step below it or lower. -/
theorem isBelow_iff_toInt_le {mode : RoundingMode} {switch x : ℚ} (h : mode.SwitchesAt switch)
    (nonneg : 0 ≤ x) : mode.IsBelow switch x ↔ mode.toInt x ≤ mode.lowerStep switch := by
  have floorLeCeil : ⌊x⌋ ≤ ⌈x⌉ := Int.floor_le_ceil x
  have ceilLe : ⌈x⌉ ≤ ⌊x⌋ + 1 := Int.ceil_le_floor_add_one x
  have apart : x = (⌊switch⌋ : ℚ) + 1 / 2 → ⌈x⌉ ≠ ⌊x⌋ := by
    intro half same
    have low : x ≤ ⌈x⌉ := Int.le_ceil x
    have high : (⌊x⌋ : ℚ) ≤ x := Int.floor_le x
    have whole : x = ⌊x⌋ := le_antisymm (by rwa [same] at low) high
    have : (2 * ⌊x⌋ : ℚ) = 2 * ⌊switch⌋ + 1 := by linarith
    have : 2 * ⌊x⌋ = 2 * ⌊switch⌋ + 1 := by exact_mod_cast this
    omega
  cases mode with
  | down | floor =>
    have whole := fract_eq_zero_iff_eq_floor.1 h
    simp only [IsBelow, JoinsBelow, toInt, towardZero, lowerStep, nonneg, if_true, and_false,
      or_false]
    rw [Int.le_sub_one_iff, Int.floor_lt, ← whole]
  | up | ceiling =>
    have whole := fract_eq_zero_iff_eq_floor.1 h
    simp only [IsBelow, JoinsBelow, toInt, awayFromZero, lowerStep, nonneg, if_true, and_true]
    rw [Int.ceil_le, ← whole, le_iff_lt_or_eq]
  | halfDown =>
    have half := eq_floor_add_half h
    simp only [IsBelow, JoinsBelow, toInt, towardZero, lowerStep, nonneg, if_true, and_true]
    rw [nearestOr_le_iff le_rfl (by omega), ← half]
    simp
  | halfUp =>
    have half := eq_floor_add_half h
    simp only [IsBelow, JoinsBelow, toInt, awayFromZero, lowerStep, nonneg, if_true, and_false,
      or_false]
    rw [nearestOr_le_iff floorLeCeil ceilLe, ← half]
    refine ⟨.inl, ?_⟩
    rintro (below | ⟨same, tie⟩)
    · exact below
    · exact absurd tie (apart (same.trans half))
  | halfEven =>
    have half := eq_floor_add_half h
    simp only [IsBelow, JoinsBelow, toInt, lowerStep]
    rw [nearestOr_le_iff (by split <;> omega) (by split <;> omega), ← half]
    refine or_congr_right (and_congr_right fun same => ?_)
    have tie := apart (same.trans half)
    rw [← same]
    split
    · next even => simp [even]
    · next odd => simp [odd, tie]

theorem exists_lowerStep_eq (mode : RoundingMode) (n : ℤ) :
    ∃ switch, mode.SwitchesAt switch ∧ mode.lowerStep switch = n := by
  have halfFloor : ⌊(n : ℚ) + 1 / 2⌋ = n := by
    rw [Int.floor_eq_iff]
    constructor <;> linarith
  have halfFract : Int.fract ((n : ℚ) + 1 / 2) = 1 / 2 := by
    rw [Int.fract, halfFloor]
    ring
  cases mode with
  | halfEven | halfUp | halfDown => exact ⟨n + 1 / 2, halfFract, halfFloor⟩
  | up | ceiling => exact ⟨n, Int.fract_intCast n, Int.floor_intCast n⟩
  | down | floor =>
    refine ⟨((n + 1 : ℤ) : ℚ), Int.fract_intCast _, ?_⟩
    simp [lowerStep]

/-- Whether a switch has two magnitudes on different sides. -/
def Separates (mode : RoundingMode) (switch x y : ℚ) : Prop :=
  mode.SwitchesAt switch ∧ ¬ (mode.IsBelow switch x ↔ mode.IsBelow switch y)

/-- Two magnitudes are rounded alike exactly when no switch separates them. -/
theorem toInt_eq_toInt_iff (mode : RoundingMode) {x y : ℚ} (nonnegX : 0 ≤ x) (nonnegY : 0 ≤ y) :
    mode.toInt x = mode.toInt y ↔ ∀ switch, ¬ mode.Separates switch x y := by
  simp only [Separates, not_and, not_not]
  constructor
  · intro same switch switches
    rw [isBelow_iff_toInt_le switches nonnegX, isBelow_iff_toInt_le switches nonnegY, same]
  · intro alike
    refine le_antisymm ?_ ?_
    · obtain ⟨switch, switches, step⟩ := mode.exists_lowerStep_eq (mode.toInt y)
      have below := (isBelow_iff_toInt_le switches nonnegY).2 step.ge
      exact ((isBelow_iff_toInt_le switches nonnegX).1 ((alike switch switches).2 below)).trans
        step.le
    · obtain ⟨switch, switches, step⟩ := mode.exists_lowerStep_eq (mode.toInt x)
      have below := (isBelow_iff_toInt_le switches nonnegX).2 step.ge
      exact ((isBelow_iff_toInt_le switches nonnegY).1 ((alike switch switches).1 below)).trans
        step.le

/-! ## The nearer neighbour -/

/-- The modes that go to the nearer neighbour. -/
def IsNearest : RoundingMode → Prop
  | halfEven | halfUp | halfDown => True
  | down | up | floor | ceiling => False

namespace IsNearest

variable {mode : RoundingMode} {x bound : ℚ} {halves : ℤ}

theorem mirror_eq (nearest : mode.IsNearest) : mode.mirror = mode := by
  cases mode with
  | halfEven | halfUp | halfDown => rfl
  | down | up | floor | ceiling => cases nearest

theorem exists_tie (nearest : mode.IsNearest) (x : ℚ) :
    ∃ tie, ⌊x⌋ ≤ tie ∧ tie ≤ ⌊x⌋ + 1 ∧ mode.toInt x = nearestOr tie x := by
  have neighbours : ⌊x⌋ ≤ ⌈x⌉ := Int.floor_le_ceil x
  have next := Int.ceil_le_floor_add_one x
  cases mode with
  | halfEven => exact ⟨_, by split <;> omega, by split <;> omega, rfl⟩
  | halfUp =>
    simp only [toInt, awayFromZero]
    exact ⟨_, by split <;> omega, by split <;> omega, rfl⟩
  | halfDown =>
    simp only [toInt, towardZero]
    exact ⟨_, by split <;> omega, by split <;> omega, rfl⟩
  | down | up | floor | ceiling => cases nearest

theorem toInt_le (nearest : mode.IsNearest) (whole : 2 * bound = halves) (h : x < bound) :
    (mode.toInt x : ℚ) ≤ bound := by
  rcases Int.even_or_odd' halves with ⟨n, even | odd⟩
  · have integer : bound = n := by
      rw [even] at whole
      push_cast at whole
      linarith
    rw [integer] at h ⊢
    exact_mod_cast mode.toInt_le_intCast h.le
  · have half : bound = n + 1 / 2 := by
      rw [odd] at whole
      push_cast at whole
      linarith
    obtain ⟨tie, least, most, same⟩ := nearest.exists_tie x
    have : mode.toInt x ≤ n := by
      rw [same, nearestOr_le_iff least most, ← half]
      exact .inl h
    have : (mode.toInt x : ℚ) ≤ n := by exact_mod_cast this
    linarith

theorem le_toInt (nearest : mode.IsNearest) (whole : 2 * bound = halves) (h : bound < x) :
    bound ≤ (mode.toInt x : ℚ) := by
  have other : (mode.toInt (-x) : ℚ) ≤ -bound := by
    have negated : 2 * -bound = (-halves : ℤ) := by
      rw [Int.cast_neg, ← whole]
      ring
    exact nearest.toInt_le negated (by linarith)
  rw [toInt_neg, nearest.mirror_eq, Int.cast_neg] at other
  linarith

theorem toInt_eq_one (nearest : mode.IsNearest) (small : x < 1)
    (kept : (0 : ℚ) < mode.toInt x) : mode.toInt x = 1 ∧ 1 / 2 ≤ x := by
  have most : ⌈x⌉ ≤ 1 := Int.ceil_le.2 (by exact_mod_cast small.le)
  have ceil := mode.toInt_le_ceil x
  have least : 0 < mode.toInt x := by exact_mod_cast kept
  have one : mode.toInt x = 1 := by omega
  refine ⟨one, ?_⟩
  rcases lt_or_ge x (1 / 2) with lower | upper
  · have halves : 2 * (1 / 2 : ℚ) = (1 : ℤ) := by norm_num
    have rounded := nearest.toInt_le halves lower
    rw [one] at rounded
    norm_num at rounded
  · exact upper

end IsNearest

end RoundingMode

end Reckoner
