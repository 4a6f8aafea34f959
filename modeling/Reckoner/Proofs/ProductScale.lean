import Mathlib.Logic.Function.Iterate
import Reckoner.Proofs.ExactOperations

/-! # The scale of an exact product

How many zeros a product of two mantissas ends with is found out by dividing each mantissa by two
and by five as long as it comes out even. The product itself may have twice as many digits as a
mantissa has room for, and is not needed: the scale that is left is the least number of places with
which the exact product can be written, and it is what dropping the zeros of that product would
leave.
-/

namespace Reckoner

namespace Decimal

/-- Dividing by a factor goes on for as many rounds as the factor is counted, and no longer. -/
theorem isLeast_multiplicity {factor number : ℕ} (two : 2 ≤ factor) (positive : 0 < number) :
    IsLeast {rounds | (· / factor)^[rounds] number % factor ≠ 0} (multiplicity factor number) := by
  induction number using Nat.strongRecOn with
  | _ number ih =>
  by_cases divides : number % factor = 0
  · have quotient : 0 < number / factor :=
      Nat.div_pos (Nat.le_of_dvd positive (Nat.dvd_of_mod_eq_zero divides)) (by omega)
    obtain ⟨stops, first⟩ := ih _ (Nat.div_lt_self positive two) quotient
    rw [multiplicity, dif_pos ⟨two, positive, divides⟩]
    refine ⟨stops, fun rounds stopped => ?_⟩
    cases rounds with
    | zero => exact absurd divides stopped
    | succ rounds => exact Nat.succ_le_succ (first stopped)
  · rw [multiplicity, dif_neg fun more => divides more.2.2]
    exact ⟨divides, fun rounds _ => Nat.zero_le rounds⟩

theorem two_pow_multiplicity_le {factor number : ℕ} (positive : 0 < number) :
    2 ^ multiplicity factor number ≤ number := by
  induction number using Nat.strongRecOn with
  | _ number ih =>
  rw [multiplicity]
  split
  · next more =>
    obtain ⟨two, -, divides⟩ := more
    have product := Nat.div_mul_cancel (Nat.dvd_of_mod_eq_zero divides)
    have quotient : 0 < number / factor := Nat.pos_of_mul_pos_right (product ▸ positive)
    have halved := ih _ (Nat.div_lt_self positive two) quotient
    calc 2 ^ (multiplicity factor (number / factor) + 1)
        = 2 ^ multiplicity factor (number / factor) * 2 := pow_succ ..
      _ ≤ number / factor * factor := Nat.mul_le_mul halved two
      _ = number := product
  · exact positive

/-- The four loops over the mantissas end, each after fewer rounds than a mantissa has bits, and
    what they count makes up the least number of places with which the exact product can be written.
    These are the places left when the zeros at the end of the product are dropped. -/
theorem isLeast_productScale {left right : Decimal} (h : left.mantissa ≠ 0)
    (h' : right.mantissa ≠ 0) :
    (∀ mantissa ∈ [left.mantissa, right.mantissa], ∀ factor ∈ [2, 5],
      IsLeast {rounds | (· / factor)^[rounds] mantissa % factor ≠ 0}
        (multiplicity factor mantissa) ∧ multiplicity factor mantissa < 96) ∧
    IsLeast {places : ℕ | ∃ n : ℤ, left.toRat * right.toRat * 10 ^ places = n}
      (left.productScale right) ∧
    left.productScale right =
      (dropZeros (left.mantissa * right.mantissa) (left.scale + right.scale)).2 := by
  have least : IsLeast (placesFor (left.toRat * right.toRat)) (left.productScale right) :=
    ⟨(mem_placesFor_mul_iff h h').2 le_rfl, fun _ => (mem_placesFor_mul_iff h h').1⟩
  refine ⟨fun mantissa listed factor chosen => ?_, least,
    least.unique (isLeast_dropZeros (abs_toRat_mul left right))⟩
  obtain ⟨nonzero, room⟩ : mantissa ≠ 0 ∧ mantissa < mantissaLimit := by
    simp only [List.mem_cons, List.not_mem_nil, or_false] at listed
    rcases listed with rfl | rfl
    · exact ⟨h, left.mantissa_lt⟩
    · exact ⟨h', right.mantissa_lt⟩
  have two : 2 ≤ factor := by
    simp only [List.mem_cons, List.not_mem_nil, or_false] at chosen
    omega
  have positive := Nat.pos_of_ne_zero nonzero
  refine ⟨isLeast_multiplicity two positive, ?_⟩
  have bits : mantissaLimit = 2 ^ 96 := by decide
  exact (Nat.pow_lt_pow_iff_right (by decide)).1
    ((two_pow_multiplicity_le positive).trans_lt (bits ▸ room))

/-- A product of 58 digits with zeros for 41 of its 56 places. Two is a factor of the one mantissa
    as often as it can be. -/
theorem isLeast_productScale_wide :
    let left : Decimal := ⟨false, 39614081257132168796771975168, 28, by decide, by decide⟩
    let right : Decimal := ⟨true, 45474735088646411895751953125, 28, by decide, by decide⟩
    left.mantissa ≠ 0 ∧ right.mantissa ≠ 0 ∧
      IsLeast {rounds | (· / 2)^[rounds] left.mantissa % 2 ≠ 0} 95 ∧
      left.productScale right = 15 ∧
      IsLeast {places : ℕ | ∃ n : ℤ, left.toRat * right.toRat * 10 ^ places = n} 15 := by
  intro left right
  have h : left.mantissa ≠ 0 := by decide
  have h' : right.mantissa ≠ 0 := by decide
  have twos : multiplicity 2 left.mantissa = 95 := by decide +kernel
  have scale : left.productScale right = 15 := by decide +kernel
  obtain ⟨loops, least, -⟩ := isLeast_productScale h h'
  have halved := (loops left.mantissa (by simp) 2 (by simp)).1
  exact ⟨h, h', twos ▸ halved, scale, scale ▸ least⟩

end Decimal

end Reckoner
