import Reckoner.Proofs.DoubleRounding
import Reckoner.Proofs.ExactLiterals
import Reckoner.Proofs.Tiling

/-! # Literals that are rounded twice

The digits of a literal are stored as far as they have room, and the next one decides whether the
last stored place goes up: so the stored decimal is the literal rounded half up to the places that
were taken. It is then rounded to the working precision by the mode, as the result of an operation
is. A literal with digits that a decimal has no room for is refused if it is small, so what is read
differs from the literal rounded once only where the literal or the stored decimal lies exactly on
a switch of the mode.
-/

namespace Reckoner

variable {precision : Precision}

namespace Digits

/-- The number below one that digits after the point stand for. -/
def fraction (digits : List Digit) : ℚ :=
  toNat digits / 10 ^ digits.length

theorem fraction_nonneg (digits : List Digit) : 0 ≤ fraction digits := by
  unfold fraction
  positivity

theorem fraction_lt_one (digits : List Digit) : fraction digits < 1 := by
  rw [fraction, div_lt_one (by positivity), ← natCast_tenPow]
  exact_mod_cast toNat_lt digits

theorem fraction_cons (digit : Digit) (digits : List Digit) :
    fraction (digit :: digits) = (digit.val + fraction digits) / 10 := by
  rw [fraction, fraction, toNat_cons, List.length_cons, pow_succ, ← div_div]
  push_cast [natCast_tenPow]
  rw [add_div, mul_div_cancel_right₀ _ (by positivity)]

end Digits

theorem RoundingMode.toInt_halfUp_natCast_add (n : ℕ) {rest : ℚ} (nonneg : 0 ≤ rest)
    (less : rest < 1) :
    halfUp.toInt (n + rest) = if 1 / 2 ≤ rest then (n + 1 : ℤ) else n := by
  have floor : ⌊(n : ℚ) + rest⌋ = n := by
    rw [Int.floor_natCast_add, Int.floor_eq_zero_iff.2 ⟨nonneg, less⟩, add_zero]
  have fract : Int.fract ((n : ℚ) + rest) = rest := by
    rw [Int.fract_natCast_add, Int.fract_eq_self.2 ⟨nonneg, less⟩]
  have sign : (0 : ℚ) ≤ n + rest := by positivity
  simp only [toInt, nearestOr, awayFromZero, if_pos sign, fract, floor]
  split_ifs with small up large
  · linarith
  · rfl
  · rw [ceil_eq_floor_add_one (by rw [fract]; linarith), floor]
  · linarith
  · rw [ceil_eq_floor_add_one (by rw [fract]; linarith), floor]
  · linarith

namespace Literal

theorem toRat_eq_add_fraction (literal : Literal) :
    literal.toRat = Digits.toNat literal.whole + Digits.fraction literal.places := by
  rw [toRat, Rat.mkRat_eq_div, Digits.toNat_append, Digits.fraction]
  push_cast [natCast_tenPow]
  rw [add_div, mul_div_cancel_right₀ _ (by positivity)]

theorem toRat_nonneg (literal : Literal) : 0 ≤ literal.toRat := by
  have := Digits.fraction_nonneg literal.places
  rw [toRat_eq_add_fraction]
  positivity

variable {mantissa scale : Nat} {value : Decimal}

theorem toRat_of_ofParts? (made : Decimal.ofParts? false mantissa scale = some value) :
    value.scale = scale ∧ value.toRat = mantissa / 10 ^ scale := by
  obtain ⟨sign, rfl, rfl⟩ := Decimal.ofParts?_eq_some_iff.1 made
  rw [Decimal.toRat_eq, sign]
  simp [signFactor]

theorem half_le_iff (digit : Digit) {rest : ℚ} (nonneg : 0 ≤ rest) (less : rest < 1) :
    1 / 2 ≤ (digit.val + rest) / 10 ↔ 5 ≤ digit.val := by
  constructor
  · intro half
    by_contra small
    have most : (digit.val : ℚ) ≤ 4 := by exact_mod_cast (by omega : digit.val ≤ 4)
    linarith
  · intro five
    have least : (5 : ℚ) ≤ digit.val := by exact_mod_cast five
    linarith

theorem digit_add_div_lt_one (digit : Digit) {rest : ℚ} (less : rest < 1) :
    (digit.val + rest) / 10 < 1 := by
  have most : (digit.val : ℚ) ≤ 9 := by exact_mod_cast Nat.le_of_lt_succ digit.isLt
  linarith

theorem toInt_halfUp_add_digit (mantissa : ℕ) (digit : Digit) {rest : ℚ} (nonneg : 0 ≤ rest)
    (less : rest < 1) :
    RoundingMode.halfUp.toInt (mantissa + (digit.val + rest) / 10) =
      (if 5 ≤ digit.val then mantissa + 1 else mantissa : ℕ) := by
  rw [RoundingMode.toInt_halfUp_natCast_add _ (by positivity) (digit_add_div_lt_one digit less)]
  simp only [half_le_iff digit nonneg less]
  split <;> rfl

/-- Where going up leaves no room, the mantissa was the largest one; it ends with a five, so going
    up at the place before it is rounding half up as well. -/
theorem toInt_halfUp_carry {rest : ℚ} (half : 1 / 2 ≤ rest) (less : rest < 1) :
    RoundingMode.halfUp.toInt (((mantissaLimit - 1 : ℕ) + rest) / 10) =
      ((mantissaLimit + 4) / 10 : ℕ) := by
  have split : ((mantissaLimit - 1 : ℕ) + rest) / 10 =
      (7922816251426433759354395033 : ℕ) + (5 + rest) / 10 := by
    norm_num [mantissaLimit]
    ring
  rw [split, RoundingMode.toInt_halfUp_natCast_add _ (by linarith) (by linarith),
    if_pos (by linarith)]
  norm_num [mantissaLimit]

theorem stores_of_carry {dropped : ℚ} (half : 1 / 2 ≤ dropped) (less : dropped < 1)
    (same : value.toRat = ((mantissaLimit + 4) / 10 : ℕ) / 10 ^ scale) :
    value.Stores .halfUp (((mantissaLimit - 1 : ℕ) + dropped) / 10 ^ (scale + 1)) scale := by
  have shifted : ((mantissaLimit - 1 : ℕ) + dropped) / 10 ^ (scale + 1) * 10 ^ scale =
      ((mantissaLimit - 1 : ℕ) + dropped) / 10 := by
    rw [pow_succ', ← div_div, div_mul_cancel₀ _ (by positivity)]
  constructor
  · rw [shifted, toInt_halfUp_carry half less, same, Int.cast_natCast]
  · right; right
    have least : (10 : ℚ) ^ 28 ≤ (mantissaLimit - 1 : ℕ) := by norm_num [mantissaLimit]
    rw [abs_of_nonneg (by positivity), shifted]
    linarith

/-- A value is closed where it is, rounded by the next digit, or the largest mantissa goes up and
    gives up its last place. -/
theorem cases_of_closeAt {digit : Digit} (room : scale ≠ 0 → mantissa < mantissaLimit)
    (h : closeAt mantissa scale digit = some value) :
    (value.scale = scale ∧
      value.toRat = (if 5 ≤ digit.val then mantissa + 1 else mantissa : ℕ) / 10 ^ scale) ∨
    (5 ≤ digit.val ∧ mantissa = mantissaLimit - 1 ∧ scale = value.scale + 1 ∧
      value.toRat = ((mantissaLimit + 4) / 10 : ℕ) / 10 ^ value.scale) := by
  simp only [closeAt] at h
  generalize roundedEq : (if 5 ≤ digit.val then mantissa + 1 else mantissa) = rounded at h ⊢
  split at h
  · exact .inl (toRat_of_ofParts? h)
  next wide =>
  split at h
  · cases h
  next placed =>
  right
  have last := room placed
  have up : 5 ≤ digit.val := by
    by_contra down
    rw [if_neg down] at roundedEq
    omega
  rw [if_pos up] at roundedEq
  obtain rfl : rounded = mantissaLimit := by omega
  obtain ⟨scaleEq, same⟩ := toRat_of_ofParts? h
  rw [← scaleEq] at same
  exact ⟨up, by omega, by omega, same⟩

theorem stores_of_closeAt {digit : Digit} {rest : ℚ} (nonneg : 0 ≤ rest) (less : rest < 1)
    (room : scale ≠ 0 → mantissa < mantissaLimit) (full : scale = maxScale ∨ 10 ^ 27 ≤ mantissa)
    (h : closeAt mantissa scale digit = some value) :
    value.Stores .halfUp ((mantissa + (digit.val + rest) / 10) / 10 ^ scale) value.scale := by
  rcases cases_of_closeAt room h with ⟨kept, same⟩ | ⟨up, rfl, lost, same⟩
  · have shifted : (mantissa + (digit.val + rest) / 10) / 10 ^ scale * 10 ^ scale =
        mantissa + (digit.val + rest) / 10 := div_mul_cancel₀ _ (by positivity)
    have above : 0 ≤ (digit.val + rest) / 10 := by positivity
    rw [kept]
    constructor
    · rw [same, shifted, toInt_halfUp_add_digit _ digit nonneg less, Int.cast_natCast]
    · refine .inr (full.imp_right fun long => ?_)
      have long' : (10 : ℚ) ^ 27 ≤ mantissa := by exact_mod_cast long
      rw [abs_of_nonneg (by positivity), shifted]
      linarith
  · rw [lost]
    exact stores_of_carry ((half_le_iff digit nonneg less).2 up) (digit_add_div_lt_one digit less)
      same

theorem taken_add_fraction (mantissa scale : ℕ) (digit : Digit) (digits : List Digit) :
    ((10 * mantissa + digit.val : ℕ) + Digits.fraction digits) / 10 ^ (scale + 1) =
      (mantissa + Digits.fraction (digit :: digits)) / 10 ^ scale := by
  rw [Digits.fraction_cons, pow_succ', ← div_div]
  push_cast
  congr 1
  ring

/-- Taking digits as long as there is room rounds half up to the places that were taken. -/
theorem stores_of_storePlaces {digits : List Digit} (deep : scale ≤ maxScale)
    (room : scale ≠ 0 → mantissa < mantissaLimit)
    (h : storePlaces mantissa scale digits = some value) :
    value.Stores .halfUp ((mantissa + Digits.fraction digits) / 10 ^ scale) value.scale := by
  induction digits generalizing mantissa scale with
  | nil =>
    obtain ⟨-, same⟩ := toRat_of_ofParts? h
    have none : Digits.fraction [] = 0 := by simp [Digits.fraction]
    rw [none, add_zero, ← same]
    exact value.stores_toRat .halfUp
  | cons digit digits ih =>
    rw [storePlaces] at h
    split at h
    · next fits =>
      have taken := ih fits.2 (fun _ => fits.1) h
      rwa [taken_add_fraction] at taken
    · next stops =>
      rw [Digits.fraction_cons]
      refine stores_of_closeAt (Digits.fraction_nonneg digits) (Digits.fraction_lt_one digits)
        room ?_ h
      unfold mantissaLimit at stops
      omega

theorem stores_of_stored? {literal : Literal} (h : literal.stored? = some value) :
    value.Stores .halfUp literal.toRat value.scale := by
  have stores := stores_of_storePlaces (Nat.zero_le _) (fun some => absurd rfl some) h
  rwa [pow_zero, div_one, ← toRat_eq_add_fraction] at stores

end Literal

theorem Decimal.Stores.toRat_eq_of_isPlaced {stored : Decimal} {mode : RoundingMode} {x : ℚ}
    {places : Nat} (stores : stored.Stores mode x places) (placed : IsPlaced x)
    (small : |x| < 1 / 10) : stored.toRat = x := by
  have enough : stored.toRat = x ∨ maxScale ≤ places := by
    rcases stores.full with exact | full | long
    · exact .inl exact
    · exact .inr full.ge
    · right
      have more : (10 : ℚ) ^ 28 < 10 ^ places := by
        have scale : (0 : ℚ) < 10 ^ places := by positivity
        nlinarith
      exact ((pow_lt_pow_iff_right₀ (by norm_num)).1 more).le
  rcases enough with exact | enough
  · exact exact
  · obtain ⟨more, rfl⟩ := Nat.exists_eq_add_of_le enough
    obtain ⟨whole, written⟩ := placed
    have offered : ∃ n : ℤ, x * 10 ^ (maxScale + more) = n := by
      have scaled : |x| * 10 ^ (maxScale + more) = (whole * 10 ^ more : ℤ) := by
        rw [written, pow_add, ← mul_assoc, div_mul_cancel₀ _ (by positivity)]
        push_cast
        rfl
      rcases abs_choice x with same | negated
      · exact ⟨_, same ▸ scaled⟩
      · rw [negated, neg_mul, neg_eq_iff_eq_neg] at scaled
        exact ⟨_, by rw [scaled, Int.cast_neg]⟩
    obtain ⟨n, offered⟩ := offered
    rw [stores.nearest, offered, RoundingMode.toInt_intCast, ← offered,
      mul_div_cancel_right₀ _ (by positivity)]

theorem Literal.chars_of_ofChars? {text : List Char} {literal : Literal}
    (h : ofChars? text = some literal) : literal.chars = text := by
  unfold ofChars? at h
  split at h
  · next read =>
    cases h
    rw [← chars_append_of_read? read, List.append_nil]
  · cases h

namespace Precision

theorem literal_of_parse {text : String} {value : Decimal} (h : precision.parse text = .ok value) :
    ∃ literal : Literal, literal.chars = text.toList ∧ precision.ofLiteral literal = .ok value := by
  unfold parse at h
  split at h
  · next literal read => exact ⟨literal, Literal.chars_of_ofChars? read, h⟩
  · cases h

theorem stored_of_ofLiteral {literal : Literal} {value : Decimal}
    (h : precision.ofLiteral literal = .ok value) :
    ∃ stored, literal.stored? = some stored ∧ precision.round stored = .ok value ∧
      (IsPlaced literal.toRat ∨ 10 ^ (precision.digits - 29 : ℤ) ≤ literal.toRat) := by
  unfold ofLiteral at h
  split at h
  · cases h
  next large =>
  rw [Literal.isTooSmall_iff precision.digits_le, not_and_or, not_not, not_lt] at large
  split at h
  · next stored made => exact ⟨stored, made, h, large⟩
  · cases h

/-- Below the number with which all places begin to show all digits, a literal that is read is
    stored as it is. -/
theorem toRat_stored_of_lt {literal : Literal} {stored : Decimal} {places : Nat}
    (stores : stored.Stores .halfUp literal.toRat places)
    (fits : IsPlaced literal.toRat ∨ 10 ^ (precision.digits - 29 : ℤ) ≤ literal.toRat)
    (below : literal.toRat < 10 ^ (precision.digits - 29 : ℤ)) :
    stored.toRat = literal.toRat := by
  have digits := precision.digits_le
  unfold maxDigits at digits
  have tenth : (10 : ℚ) ^ (precision.digits - 29 : ℤ) ≤ 10 ^ (-1 : ℤ) :=
    zpow_le_zpow_right₀ (by norm_num) (by omega)
  refine stores.toRat_eq_of_isPlaced (fits.resolve_right below.not_ge) ?_
  rw [abs_of_nonneg literal.toRat_nonneg]
  exact (below.trans_le tenth).trans_eq (by norm_num)

theorem toRat_eq_zero_of_stored {literal : Literal} {stored : Decimal} {places : Nat}
    (stores : stored.Stores .halfUp literal.toRat places)
    (fits : IsPlaced literal.toRat ∨ 10 ^ (precision.digits - 29 : ℤ) ≤ literal.toRat)
    (zero : stored.toRat = 0) : literal.toRat = 0 := by
  rcases lt_or_ge literal.toRat (10 ^ (precision.digits - 29 : ℤ)) with below | above
  · exact (toRat_stored_of_lt stores fits below).symm.trans zero
  · have digits := precision.digits_pos
    have least : (10 : ℚ) ^ (-28 : ℤ) ≤ literal.toRat :=
      (zpow_le_zpow_right₀ (by norm_num) (by omega)).trans above
    have last : (10 : ℚ) ^ (-28 : ℤ) * 10 ^ maxScale = 1 := by norm_num [maxScale]
    refine absurd zero (stores.toRat_ne_zero trivial ?_)
    rw [abs_of_nonneg literal.toRat_nonneg, ← last]
    gcongr

/-- What is read of a literal is the number it denotes, rounded half up to what a decimal has room
    for and then, in units of the last digit to keep, by the mode. It is the number rounded once if
    and only if no switch separates the number from the stored one, and a switch that does is one
    of the two. -/
theorem parse_eq_rounded_iff {text : String} {value : Decimal}
    (h : precision.parse text = .ok value) :
    ∃ (literal : Literal) (stored : Decimal) (places : Nat),
      literal.chars = text.toList ∧ literal.stored? = some stored ∧
      let exact := literal.toRat
      let unit := precision.unit exact
      stored.Stores .halfUp exact places ∧
      value.toRat = precision.rounding.toInt (stored.toRat / unit) * unit ∧
      (value.toRat = precision.rounded exact ↔
        ∀ switch, ¬ precision.rounding.Separates switch (exact / unit) (stored.toRat / unit)) ∧
      (∀ switch, precision.rounding.Separates switch (exact / unit) (stored.toRat / unit) →
        switch = exact / unit ∨ switch = stored.toRat / unit) := by
  obtain ⟨literal, written, read⟩ := literal_of_parse h
  obtain ⟨stored, made, kept, fits⟩ := stored_of_ofLiteral read
  have stores := Literal.stores_of_stored? made
  have nonneg := literal.toRat_nonneg
  refine ⟨literal, stored, stored.scale, written, made, ?_⟩
  intro exact unit
  have twice := round_eq_rounded_iff stores trivial (toRat_eq_zero_of_stored stores fits) kept
  have sign : decide (literal.toRat < 0) = false := decide_eq_false nonneg.not_gt
  rw [abs_of_nonneg nonneg, abs_of_nonneg (stores.nonneg nonneg), sign] at twice
  obtain ⟨rounds, once, touches⟩ := twice
  refine ⟨stores, rounds, once, fun switch separates => ?_⟩
  rcases lt_or_ge literal.toRat (10 ^ (precision.digits - 29 : ℤ)) with below | above
  · rw [toRat_stored_of_lt stores fits below] at separates
    exact absurd Iff.rfl separates.2
  · exact touches above switch separates

/-- Seventeen digits where sixteen are kept are read as what one rounding gives, and no switch is
    between the two numbers. -/
theorem literal_of_seventeen_digits :
    let shown : Decimal := ⟨false, 1234567890123457, 16, by decide, by decide⟩
    decimal64.parse "0.12345678901234567" = .ok shown ∧
      ∃ (literal : Literal) (stored : Decimal) (places : Nat),
        literal.chars = "0.12345678901234567".toList ∧ literal.stored? = some stored ∧
        let exact := literal.toRat
        let unit := decimal64.unit exact
        stored.Stores .halfUp exact places ∧
        shown.toRat = decimal64.rounding.toInt (stored.toRat / unit) * unit ∧
        shown.toRat = decimal64.rounded exact ∧
        ∀ switch, ¬ decimal64.rounding.Separates switch (exact / unit) (stored.toRat / unit) := by
  intro shown
  have read : decimal64.parse "0.12345678901234567" = .ok shown := by decide +kernel
  obtain ⟨literal, stored, places, written, made, stores, rounds, single, -⟩ :=
    parse_eq_rounded_iff read
  have value : literal.toRat = 12345678901234567 / 10 ^ 17 := by
    have only := literal.ofChars?_chars
    rw [written] at only
    let digits : List Digit := [1, 2, 3, 4, 5, 6, 7, 8, 9, 0, 1, 2, 3, 4, 5, 6, 7]
    have parsed : Literal.ofChars? "0.12345678901234567".toList =
        some ⟨[0], some digits, by decide⟩ := by decide +kernel
    obtain rfl := Option.some.inj (parsed.symm.trans only)
    rw [Literal.toRat, Rat.mkRat_eq_div]
    norm_num [Literal.places, Digits.toNat, tenPow, digits]
  have once : shown.toRat = decimal64.rounded literal.toRat := by
    have counted : literal.toRat / 10 ^ ((-1 : ℤ) + 1 - decimal64.digits) =
        (12345678901234567 : ℕ) / (10 : ℕ) := by
      norm_num [value, decimal64]
    have digits : decimal64.rounding.divide false 12345678901234567 10 = 1234567890123457 := by
      decide +kernel
    rw [decimal64.rounded_eq_divide (-1) (by norm_num [value]) (by norm_num [value]) (by norm_num)
      counted, digits]
    norm_num [shown, decimal64, Decimal.toRat_eq, signFactor]
  exact ⟨read, literal, stored, places, written, made, stores, rounds, once, single.1 once⟩

/-- Twenty-nine nines after the point, with all digits and rounding down, are read as one. -/
theorem not_forall_parse_eq_rounded :
    ¬ ∀ (precision : Precision) (literal : Literal) (value : Decimal),
      precision.parse (String.ofList literal.chars) = .ok value →
        value.toRat = precision.rounded literal.toRat := by
  intro rounds
  have once := rounds ⟨28, .down, by decide, by decide⟩
    ⟨[0], some (List.replicate 29 9), by decide⟩ ⟨false, 1, 0, by decide, by decide⟩
    (by decide +kernel)
  have exact : Literal.toRat ⟨[0], some (List.replicate 29 9), by decide⟩ = 1 - 1 / 10 ^ 29 := by
    rw [Literal.toRat, Rat.mkRat_eq_div]
    norm_num [Literal.places, List.replicate, Digits.toNat, tenPow]
  have one : Decimal.toRat ⟨false, 1, 0, by decide, by decide⟩ = 1 := by
    norm_num [Decimal.toRat_eq, signFactor]
  have toward := rounded_le_of_down ⟨28, .down, by decide, by decide⟩ rfl
    (by norm_num : (0 : ℚ) ≤ 1 - 1 / 10 ^ 29)
  rw [one, exact] at once
  rw [← once] at toward
  norm_num at toward

end Precision

end Reckoner
