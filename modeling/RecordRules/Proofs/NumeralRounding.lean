import RecordRules.Number.Numeral
import RecordRules.Proofs.Rounding

/-! Rounding of numerals. The floating-point number that a numeral stands for is the one nearest to it,
over the whole range: where the power of ten is not computed, since the numeral is too large or too
small, rounding leads to infinity or to zero as well. So a numeral on one side of a whole number is not
rounded to the other side of the number that the whole number is rounded to. -/

namespace RecordRules.Number

open Binary64

/-! ### The two ends of the range -/

namespace Binary64

theorem nearestMagnitude_overflowExponent :
    nearestMagnitude (Nat.pow 10 Numeral.overflowExponent) 1 = infinityMagnitude := by
  decide +kernel

theorem nearestMagnitude_of_overflow {coefficient zeros : Nat} (hcoefficient : coefficient ≠ 0)
    (h : Numeral.overflowExponent ≤ zeros) :
    nearestMagnitude (coefficient * Nat.pow 10 zeros) 1 = infinityMagnitude := by
  have hinfinity := nearestMagnitude_overflowExponent
  generalize Numeral.overflowExponent = least at h hinfinity
  have hlarge : Nat.pow 10 least ≤ coefficient * Nat.pow 10 zeros :=
    Nat.le_trans (Nat.pow_le_pow_right (by decide) h)
      (Nat.le_mul_of_pos_left _ (Nat.pos_of_ne_zero hcoefficient))
  apply Nat.le_antisymm (nearestMagnitude_le _ 1)
  rw [← hinfinity]
  exact nearestMagnitude_mono Nat.one_pos Nat.one_pos (Nat.mul_le_mul_right 1 hlarge)

/-- Half of the least positive number is a tie, which goes to zero. -/
theorem nearestMagnitude_half_least : nearestMagnitude 1 (Nat.pow 2 1075) = 0 := by
  decide +kernel

theorem pow_two_le_pow_ten (places : Nat) : Nat.pow 2 (3 * places) ≤ Nat.pow 10 places := by
  have hcube : Nat.pow 2 (3 * places) = Nat.pow 8 places := Nat.pow_mul 2 3 places
  rw [hcube]
  exact Nat.pow_le_pow_left (by decide) places

theorem nearestMagnitude_of_vanishes {coefficient places : Nat}
    (h : Numeral.vanishes coefficient places = true) :
    nearestMagnitude coefficient (Nat.pow 10 places) = 0 := by
  have hplaces : coefficient.log2 + 1 + 1075 ≤ 3 * places := of_decide_eq_true h
  have hleast := nearestMagnitude_half_least
  generalize 1075 = least at hplaces hleast
  have hsmall : coefficient * Nat.pow 2 least ≤ 1 * Nat.pow 10 places :=
    calc coefficient * Nat.pow 2 least
        ≤ Nat.pow 2 (coefficient.log2 + 1) * Nat.pow 2 least :=
          Nat.mul_le_mul_right _ (Nat.le_of_lt Nat.lt_log2_self)
      _ = Nat.pow 2 (coefficient.log2 + 1 + least) := (pow_two_add _ _).symm
      _ ≤ Nat.pow 2 (3 * places) := Nat.pow_le_pow_right Nat.two_pos hplaces
      _ ≤ Nat.pow 10 places := pow_two_le_pow_ten places
      _ = 1 * Nat.pow 10 places := (Nat.one_mul _).symm
  apply Nat.le_zero.mp
  rw [← hleast]
  exact nearestMagnitude_mono (Nat.pow_pos (by decide)) (pow_two_pos least) hsmall

end Binary64

/-! ### The number of a numeral -/

namespace Numeral

/-- The numerator of a numeral as a fraction of whole numbers, its sign left out. -/
def numerator (n : Numeral) : Nat :=
  n.coefficient * Nat.pow 10 n.exponent.toNat

/-- The denominator of a numeral as a fraction of whole numbers. -/
def denominator (n : Numeral) : Nat :=
  Nat.pow 10 (-n.exponent).toNat

theorem denominator_pos (n : Numeral) : 0 < n.denominator :=
  Nat.pow_pos (by decide)

/-- The number that a numeral stands for is the nearest one, also where no power is computed. -/
theorem toBinary64_eq_nearest (n : Numeral) :
    n.toBinary64 = .nearest n.negative n.numerator n.denominator := by
  obtain ⟨negative, coefficient, exponent⟩ := n
  rw [toBinary64]
  by_cases hzero : coefficient = 0
  · have hnumerator : (Numeral.mk negative coefficient exponent).numerator = 0 := by
      rw [numerator, hzero, Nat.zero_mul]
    rw [if_pos hzero, hnumerator, nearest, nearestMagnitude_zero (denominator_pos _)]
  · rw [if_neg hzero]
    cases exponent with
    | ofNat zeros =>
        have hdenominator : (Numeral.mk negative coefficient (.ofNat zeros)).denominator = 1 := by
          cases zeros <;> rfl
        have hnumerator : (Numeral.mk negative coefficient (.ofNat zeros)).numerator =
            coefficient * Nat.pow 10 zeros := rfl
        rw [hnumerator, hdenominator]
        by_cases hlarge : overflowExponent ≤ zeros
        · rw [nearest, nearestMagnitude_of_overflow hzero hlarge]
          exact if_pos hlarge
        · exact if_neg hlarge
    | negSucc places =>
        have hdenominator : (Numeral.mk negative coefficient (.negSucc places)).denominator =
            Nat.pow 10 (places + 1) := rfl
        have hnumerator : (Numeral.mk negative coefficient (.negSucc places)).numerator =
            coefficient := Nat.mul_one coefficient
        rw [hnumerator, hdenominator]
        by_cases hsmall : vanishes coefficient (places + 1) = true
        · rw [nearest, nearestMagnitude_of_vanishes hsmall]
          exact if_pos hsmall
        · exact if_neg hsmall

theorem isNaN_toBinary64 (n : Numeral) : n.toBinary64.isNaN = false := by
  rw [toBinary64_eq_nearest]
  exact isNaN_nearest _ _ _

/-- A numeral that is at most a whole number is not rounded above it. -/
theorem scaled_toBinary64_le {n : Numeral} {m : Int}
    (h : withSign n.negative n.numerator ≤ m * n.denominator) :
    n.toBinary64.scaled ≤ (ofInt m).scaled := by
  rw [toBinary64_eq_nearest, ofInt_eq_nearest]
  apply scaled_nearest_le n.denominator_pos Nat.one_pos
  rw [withSign_natAbs]
  omega

theorem le_scaled_toBinary64 {n : Numeral} {m : Int}
    (h : m * n.denominator ≤ withSign n.negative n.numerator) :
    (ofInt m).scaled ≤ n.toBinary64.scaled := by
  rw [toBinary64_eq_nearest, ofInt_eq_nearest]
  apply scaled_nearest_le Nat.one_pos n.denominator_pos
  rw [withSign_natAbs]
  omega

end Numeral

end RecordRules.Number
