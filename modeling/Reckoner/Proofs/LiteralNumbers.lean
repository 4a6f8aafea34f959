import Reckoner.Proofs.MostPlaces
import Reckoner.Proofs.Representable
import Reckoner.Proofs.StoredLiterals

/-! # Literals for one number

What is read of a literal depends on the number it denotes and not on how it is written. The test
for literals that are too small counts digits from the first to the last one that is not zero, which
the number has as well. Taking digits ends at a place that depends on the text, but only where the
number has ended before; any other literal is stored at the most places with which its number,
rounded half up, fits into a mantissa.
-/

namespace Reckoner

variable {precision : Precision}

theorem Decimal.Stores.toRat_eq_fit {value : Decimal} {mode : RoundingMode} {x : ℚ}
    (stores : value.Stores mode x value.scale) (nearest : mode.IsNearest)
    (last : value.toRat = x ∨ value.scale = maxScale ∨
      mantissaLimit ≤ mode.toInt (|x| * 10 ^ (value.scale + 1))) :
    value.toRat = mode.fit x := by
  rcases last with exact | last
  · rw [← exact, mode.fit_toRat]
  have scaled := stores.abs_mul nearest
  rw [value.abs_toRat_mul_pow] at scaled
  have mantissa : mode.toInt (|x| * 10 ^ value.scale) = value.mantissa := by
    exact_mod_cast scaled.symm
  have fits : mode.toInt (|x| * 10 ^ value.scale) < mantissaLimit := by
    rw [mantissa]
    exact_mod_cast value.mantissa_lt
  have places : mode.fittingPlaces x = value.scale := by
    refine le_antisymm ?_ (RoundingMode.le_fittingPlaces value.scale_le fits)
    rcases last with all | wide
    · exact all ▸ mode.fittingPlaces_le x
    · by_contra more
      rw [Nat.not_le] at more
      have next := RoundingMode.toInt_lt_of_le le_rfl more
        (RoundingMode.toInt_fittingPlaces_lt (x := x) (Nat.ne_zero_of_lt more))
      exact absurd wide next.not_ge
  rw [RoundingMode.fit, places, stores.nearest]

namespace Literal

variable {mantissa scale : Nat} {value : Decimal}

/-! ## Where digits are no longer taken -/

/-- A value that is closed at a digit has no room for the place of this digit, or for the place that
    is given up. -/
theorem full_of_closeAt {digit : Digit} {rest : ℚ} (nonneg : 0 ≤ rest) (less : rest < 1)
    (room : scale ≠ 0 → mantissa < mantissaLimit)
    (full : scale = maxScale ∨ mantissaLimit ≤ 10 * mantissa + digit.val)
    (h : closeAt mantissa scale digit = some value) :
    value.scale = maxScale ∨ mantissaLimit ≤ RoundingMode.halfUp.toInt
      ((mantissa + (digit.val + rest) / 10) / 10 ^ scale * 10 ^ (value.scale + 1)) := by
  rcases cases_of_closeAt room h with ⟨kept, -⟩ | ⟨up, rfl, lost, -⟩
  · rw [kept]
    refine full.imp_right fun wide => RoundingMode.halfUp.intCast_le_toInt ?_
    have wide' : (mantissaLimit : ℚ) ≤ 10 * mantissa + digit.val := by exact_mod_cast wide
    rw [pow_succ, ← mul_assoc, div_mul_cancel₀ _ (by positivity), Int.cast_natCast]
    linarith
  · right
    rw [← lost, div_mul_cancel₀ _ (by positivity), toInt_halfUp_add_digit _ digit nonneg less,
      if_pos up]
    decide

theorem full_of_storePlaces {digits : List Digit} (deep : scale ≤ maxScale)
    (room : scale ≠ 0 → mantissa < mantissaLimit)
    (h : storePlaces mantissa scale digits = some value) :
    value.toRat = (mantissa + Digits.fraction digits) / 10 ^ scale ∨ value.scale = maxScale ∨
      mantissaLimit ≤ RoundingMode.halfUp.toInt
        ((mantissa + Digits.fraction digits) / 10 ^ scale * 10 ^ (value.scale + 1)) := by
  induction digits generalizing mantissa scale with
  | nil =>
    left
    rw [(toRat_of_ofParts? h).2, Digits.fraction, Digits.toNat_nil]
    simp
  | cons digit digits ih =>
    rw [storePlaces] at h
    split at h
    · next fits =>
      have taken := ih fits.2 (fun _ => fits.1) h
      rwa [taken_add_fraction] at taken
    · next stops =>
      right
      rw [Digits.fraction_cons]
      refine full_of_closeAt (Digits.fraction_nonneg digits) (Digits.fraction_lt_one digits)
        room ?_ h
      omega

theorem toRat_stored? {literal : Literal} (h : literal.stored? = some value) :
    value.toRat = RoundingMode.halfUp.fit literal.toRat := by
  have full := full_of_storePlaces (Nat.zero_le _) (fun some => absurd rfl some) h
  rw [pow_zero, div_one, ← toRat_eq_add_fraction] at full
  refine (stores_of_stored? h).toRat_eq_fit trivial ?_
  rwa [abs_of_nonneg literal.toRat_nonneg]

/-! ## Literals that have no room -/

theorem closeAt_eq_none_iff {digit : Digit} (deep : scale ≤ maxScale)
    (room : scale ≠ 0 → mantissa < mantissaLimit) :
    closeAt mantissa scale digit = none ↔
      scale = 0 ∧ mantissaLimit ≤ if 5 ≤ digit.val then mantissa + 1 else mantissa := by
  simp only [closeAt]
  generalize roundedEq : (if 5 ≤ digit.val then mantissa + 1 else mantissa) = rounded
  split
  · next fits =>
    rw [Decimal.ofParts?_eq_none_iff]
    omega
  next wide =>
  split
  · next whole => exact iff_of_true rfl ⟨whole, Nat.not_lt.1 wide⟩
  · next placed =>
    have last := room placed
    have most : rounded ≤ mantissaLimit := by
      rw [← roundedEq]
      split <;> omega
    rw [Decimal.ofParts?_eq_none_iff]
    unfold mantissaLimit at *
    omega

theorem storePlaces_ne_none (digits : List Digit) (placed : scale ≠ 0) (deep : scale ≤ maxScale)
    (room : mantissa < mantissaLimit) : storePlaces mantissa scale digits ≠ none := by
  induction digits generalizing mantissa scale with
  | nil =>
    rw [storePlaces, ne_eq, Decimal.ofParts?_eq_none_iff]
    omega
  | cons digit digits ih =>
    rw [storePlaces]
    split
    · next fits => exact ih (Nat.succ_ne_zero scale) fits.2 fits.1
    · rw [ne_eq, closeAt_eq_none_iff deep fun _ => room]
      exact fun whole => placed whole.1

/-- A literal has no room exactly if its number, rounded half up to a whole one, has none. -/
theorem stored?_eq_none_iff {literal : Literal} :
    literal.stored? = none ↔ mantissaLimit ≤ RoundingMode.halfUp.toInt literal.toRat := by
  rw [stored?, toRat_eq_add_fraction]
  generalize Digits.toNat literal.whole = whole
  cases literal.places with
  | nil =>
    have integer : (whole : ℚ) + Digits.fraction [] = (whole : ℤ) := by simp [Digits.fraction]
    rw [storePlaces, Decimal.ofParts?_eq_none_iff, integer, RoundingMode.toInt_intCast]
    omega
  | cons digit digits =>
    rw [storePlaces, Digits.fraction_cons, toInt_halfUp_add_digit _ digit
      (Digits.fraction_nonneg digits) (Digits.fraction_lt_one digits)]
    split
    · next fits =>
      refine iff_of_false (storePlaces_ne_none digits Nat.one_ne_zero fits.2 fits.1) ?_
      split <;> omega
    · rw [closeAt_eq_none_iff (Nat.zero_le _) (fun placed => absurd rfl placed), Int.ofNat_le]
      exact and_iff_right rfl

end Literal

namespace Precision

/-! ## What is read -/

/-- What is read of a literal is its number, rounded half up at the most places that fit and then
    to the working precision. -/
theorem toRat_of_ofLiteral {literal : Literal} {value : Decimal}
    (h : precision.ofLiteral literal = .ok value) :
    value.toRat = precision.rounded (RoundingMode.halfUp.fit literal.toRat) := by
  obtain ⟨stored, made, rounds, -⟩ := stored_of_ofLiteral h
  rw [precision.toRat_of_round rounds, Literal.toRat_stored? made]

theorem ofLiteral_congr {first second : Literal} (same : first.toRat = second.toRat) :
    precision.ofLiteral first = precision.ofLiteral second := by
  have small : first.isTooSmall precision.digits = second.isTooSmall precision.digits := by
    rw [Bool.eq_iff_iff, Literal.isTooSmall_iff precision.digits_le,
      Literal.isTooSmall_iff precision.digits_le, same]
  have none : first.stored? = none ↔ second.stored? = none := by
    rw [Literal.stored?_eq_none_iff, Literal.stored?_eq_none_iff, same]
  rw [ofLiteral, ofLiteral, small]
  cases made : first.stored? with
  | none => rw [none.1 made]
  | some value =>
    obtain ⟨value', made'⟩ := Option.ne_none_iff_exists'.1 (mt none.2 (made ▸ Option.some_ne_none _))
    have equal : value.toRat = value'.toRat := by
      rw [Literal.toRat_stored? made, Literal.toRat_stored? made', same]
    rw [made']
    dsimp only
    rw [round_eq_of_toRat_eq equal]

theorem ofLiteral_eq_underflow_iff {literal : Literal} :
    precision.ofLiteral literal = .error .underflow ↔
      literal.isTooSmall precision.digits = true := by
  rw [ofLiteral]
  split
  · next small => exact iff_of_true rfl small
  · next large =>
    refine iff_of_false (fun refused => ?_) large
    split at refused
    · cases error_of_round refused
    · cases refused

/-- A literal is refused as too small exactly if its number is not zero, needs more than all places
    and is below the number with which these begin to show all digits, however many zeros are
    written on both sides of its digits. -/
theorem parse_eq_underflow_iff (precision : Precision) (literal : Literal) :
    precision.parse (String.ofList literal.chars) = .error .underflow ↔
      literal.toRat ≠ 0 ∧ ¬ IsPlaced literal.toRat ∧
        literal.toRat < 10 ^ (precision.digits - 29 : ℤ) := by
  rw [parse_ofList_chars, ofLiteral_eq_underflow_iff, Literal.isTooSmall_iff precision.digits_le]
  exact ⟨fun small => ⟨ne_zero_of_not_isPlaced small.1, small⟩, And.right⟩

/-- Literals for one number come to the same outcome, in the same writing, and literals that are
    read are in the order of their numbers. -/
theorem parse_of_number (precision : Precision) (first second : Literal) :
    (first.toRat = second.toRat →
      precision.parse (String.ofList first.chars) =
        precision.parse (String.ofList second.chars)) ∧
    (first.toRat ≤ second.toRat → ∀ low high,
      precision.parse (String.ofList first.chars) = .ok low →
        precision.parse (String.ofList second.chars) = .ok high → low.toRat ≤ high.toRat) := by
  rw [parse_ofList_chars, parse_ofList_chars]
  refine ⟨ofLiteral_congr, fun le low high h h' => ?_⟩
  have nearest : RoundingMode.halfUp.IsNearest := trivial
  rw [toRat_of_ofLiteral h, toRat_of_ofLiteral h']
  exact precision.rounded_mono (nearest.fit_mono le)

/-- The largest mantissa with all places, with zeros around it, and with a five behind it that makes
    it give up its last place. -/
theorem literals_around_largest_mantissa :
    let precision : Precision := ⟨28, .down, by decide, by decide⟩
    let places : List Digit :=
      [9, 2, 2, 8, 1, 6, 2, 5, 1, 4, 2, 6, 4, 3, 3, 7, 5, 9, 3, 5, 4, 3, 9, 5, 0, 3, 3, 5]
    let plain : Literal := ⟨[7], some places, by decide⟩
    let padded : Literal := ⟨[0, 7], some (places ++ [0, 0]), by decide⟩
    let longer : Literal := ⟨[7], some (places ++ [5]), by decide⟩
    let low : Decimal := ⟨false, 7922816251426433759354395033, 27, by decide, by decide⟩
    let high : Decimal := ⟨false, 7922816251426433759354395034, 27, by decide, by decide⟩
    plain.toRat = padded.toRat ∧
      precision.parse (String.ofList plain.chars) =
        precision.parse (String.ofList padded.chars) ∧
      plain.toRat ≤ longer.toRat ∧ precision.parse (String.ofList plain.chars) = .ok low ∧
      precision.parse (String.ofList longer.chars) = .ok high ∧ low.toRat ≤ high.toRat := by
  intro precision places plain padded longer low high
  have same : plain.toRat = padded.toRat := by decide +kernel
  have le : plain.toRat ≤ longer.toRat := by decide +kernel
  have read : precision.parse (String.ofList plain.chars) = .ok low := by decide +kernel
  have read' : precision.parse (String.ofList longer.chars) = .ok high := by decide +kernel
  obtain ⟨alike, -⟩ := parse_of_number precision plain padded
  obtain ⟨-, ordered⟩ := parse_of_number precision plain longer
  exact ⟨same, alike same, le, read, read', ordered le _ _ read read'⟩

end Precision

end Reckoner
