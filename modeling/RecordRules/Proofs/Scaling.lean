import RecordRules.Number.Scaling
import RecordRules.Proofs.NearestNumber

/-! Scaling by powers of ten and the numbers between. A rational number is rounded to the number nearest
to it, unless it is half a step or more above the largest finite one. Scaling is a chain of such
roundings: of the power of ten, and of each product or quotient. Where the power and the number that is
scaled are not rounded, the chain has only one link, and so leads to the nearest number. -/

namespace RecordRules.Number

open Binary64

namespace Binary64

/-! ### Overflow -/

/-- From this number on numbers are rounded to infinity: half a step above the largest finite one. -/
def overflowBound : Nat :=
  (Nat.pow 2 54 - 1) * Nat.pow 2 970

theorem overflowBound_pos : 0 < overflowBound := by
  decide +kernel

theorem nearestMagnitude_overflowBound : nearestMagnitude overflowBound 1 = infinityMagnitude := by
  decide +kernel

theorem overflowBound_mul_unitsPerOne :
    overflowBound * unitsPerOne = (Nat.pow 2 54 - 1) * Nat.pow 2 2044 := by
  decide +kernel

section

variable {units den step : Nat}

theorem shiftFor_le_of_units_lt (hden : 0 < den)
    (h : units < (Nat.pow 2 54 - 1) * Nat.pow 2 step * den) : shiftFor units den ≤ step + 1 := by
  have hquotient : units / den < Nat.pow 2 (54 + step) := by
    rw [Nat.div_lt_iff_lt_mul hden, pow_two_add]
    exact Nat.lt_of_lt_of_le h
      (Nat.mul_le_mul_right _ (Nat.mul_le_mul_right _ (Nat.sub_le _ 1)))
  unfold shiftFor
  rcases Nat.eq_zero_or_pos (units / den) with hzero | hpos
  · rw [hzero, Nat.log2_zero]
    omega
  · have hlog := (Nat.log2_lt (Nat.ne_of_gt hpos)).mpr hquotient
    omega

/-- At the last shift, what is less than half a step above the largest significand is not rounded up
from it. -/
theorem roundedSignificand_lt_of_units_lt (hshift : shiftFor units den = step + 1)
    (h : units < (Nat.pow 2 54 - 1) * Nat.pow 2 step * den) :
    roundedSignificand units den < 2 * exponentWeight := by
  have hfull := div_shift_lt units den
  rw [hshift] at hfull
  rw [roundedSignificand, hshift]
  have hstep : den * Nat.pow 2 (step + 1) = 2 * (Nat.pow 2 step * den) := by
    rw [Nat.mul_comm, ← Nat.mul_assoc]
    exact congrArg (· * den) Nat.pow_succ'
  rw [Nat.mul_assoc] at h
  rw [hstep] at hfull ⊢
  generalize Nat.pow 2 step * den = half at h hfull ⊢
  rcases roundHalfEven_cases units (2 * half) with ⟨hround, _⟩ | ⟨hround, hup⟩
  · rw [hround]
    exact hfull
  · rw [hround]
    by_contra hcarry
    have hweight : exponentWeight = 4503599627370496 := rfl
    have hbound : Nat.pow 2 54 - 1 = 18014398509481983 := rfl
    have hsplit := Nat.div_add_mod units (2 * half)
    have hlast : 2 * half * (2 * exponentWeight - 1) ≤ 2 * half * (units / (2 * half)) :=
      Nat.mul_le_mul_left _ (by omega)
    rw [hweight] at hlast
    rw [hbound] at h
    omega

end

theorem nearestMagnitude_lt_of_lt {num den : Nat} (hden : 0 < den) (h : num < overflowBound * den) :
    nearestMagnitude num den < infinityMagnitude := by
  have hunits : num * unitsPerOne < (Nat.pow 2 54 - 1) * Nat.pow 2 2044 * den := by
    rw [← overflowBound_mul_unitsPerOne, Nat.mul_right_comm]
    exact Nat.mul_lt_mul_of_pos_right h unitsPerOne_pos
  have hinfinity : infinityMagnitude = 2045 * exponentWeight + 2 * exponentWeight := rfl
  have hweight : 0 < exponentWeight := pow_two_pos 52
  rw [nearestMagnitude_eq]
  apply Nat.lt_of_le_of_lt (Nat.min_le_left _ _)
  rcases Nat.lt_or_eq_of_le (shiftFor_le_of_units_lt hden hunits) with hlt | heq
  · calc shiftFor (num * unitsPerOne) den * exponentWeight + roundedSignificand (num * unitsPerOne) den
        ≤ 2044 * exponentWeight + 2 * exponentWeight :=
          Nat.add_le_add (Nat.mul_le_mul_right _ (Nat.le_of_lt_succ hlt)) (roundedSignificand_le _ _)
      _ < infinityMagnitude := by omega
  · have hround := roundedSignificand_lt_of_units_lt heq hunits
    rw [heq, hinfinity]
    omega

/-- Just the quotients from the bound on are rounded to infinity. -/
theorem isInfinite_nearest_iff (negative : Bool) {num den : Nat} (hden : 0 < den) :
    (nearest negative num den).isInfinite = true ↔ overflowBound * den ≤ num := by
  rw [isInfinite, magnitude_nearest, beq_iff_eq]
  constructor
  · intro h
    apply Nat.le_of_not_lt
    intro hlt
    exact absurd h (Nat.ne_of_lt (nearestMagnitude_lt_of_lt hden hlt))
  · intro h
    apply Nat.le_antisymm (nearestMagnitude_le num den)
    rw [← nearestMagnitude_overflowBound]
    exact nearestMagnitude_mono Nat.one_pos hden (by rwa [Nat.mul_one])

theorem isInfinite_nearest_eq_false_iff (negative : Bool) {num den : Nat} (hden : 0 < den) :
    (nearest negative num den).isInfinite = false ↔ num < overflowBound * den := by
  rw [Bool.eq_false_iff, ne_eq, isInfinite_nearest_iff negative hden, Nat.not_le]

end Binary64

/-! ### Rounding -/

/-- A rational number that is not too large is rounded to what the number nearest to it denotes. -/
structure RoundsTo (q r : Rat) : Prop where
  lt_bound : |q| < overflowBound
  nearest : ∃ x : Binary64, x.IsNearest q ∧ x.toRat = r

theorem RoundsTo.unique {q r r' : Rat} (h : RoundsTo q r) (h' : RoundsTo q r') : r = r' := by
  obtain ⟨x, hx, rfl⟩ := h.nearest
  obtain ⟨y, hy, rfl⟩ := h'.nearest
  exact hx.unique hy

theorem abs_withSign_div (negative : Bool) (num den : Nat) :
    |((withSign negative num : Int) : Rat) / den| = (num : Rat) / den := by
  rw [abs_div, Nat.abs_cast]
  cases negative <;> simp [withSign]

theorem roundsTo_iff (negative : Bool) {num den : Nat} (hden : 0 < den) (r : Rat) :
    RoundsTo ((withSign negative num : Int) / den) r ↔
      (nearest negative num den).isInfinite = false ∧ (nearest negative num den).toRat = r := by
  have hpos : (0 : Rat) < den := Nat.cast_pos.mpr hden
  have hrange : |((withSign negative num : Int) : Rat) / den| < overflowBound ↔
      (nearest negative num den).isInfinite = false := by
    rw [abs_withSign_div, div_lt_iff₀ hpos, isInfinite_nearest_eq_false_iff negative hden]
    exact_mod_cast Iff.rfl
  constructor
  · rintro ⟨hlt, x, hx, rfl⟩
    have hfinite := hrange.mp hlt
    exact ⟨hfinite, (isNearest_nearest hden hfinite).unique hx⟩
  · rintro ⟨hfinite, rfl⟩
    exact ⟨hrange.mpr hfinite, _, isNearest_nearest hden hfinite, rfl⟩

/-! ### Products, quotients and powers of ten -/

namespace Binary64

variable {x y : Binary64}

theorem toRat_eq_zero_iff : x.toRat = 0 ↔ x.units = 0 := by
  have hone : ((unitsPerOne : Int) : Rat) ≠ 0 := Int.cast_ne_zero.mpr unitsPerOne_int_pos.ne'
  rw [toRat_eq, div_eq_zero_iff, or_iff_left hone, Int.cast_eq_zero, ← natAbs_scaled,
    Int.natAbs_eq_zero]

theorem withSign_xor_mul (negative negative' : Bool) (m n : Nat) :
    withSign (negative ^^ negative') (m * n) = withSign negative m * withSign negative' n := by
  cases negative <;> cases negative' <;> simp [withSign]

theorem toRat_mul_toRat (x y : Binary64) :
    x.toRat * y.toRat = (withSign (x.negative ^^ y.negative) (x.units * y.units) : Int) /
      ((unitsPerOne * unitsPerOne : Nat) : Rat) := by
  rw [toRat_eq, toRat_eq, scaled, scaled, withSign_xor_mul, div_mul_div_comm]
  push_cast
  rfl

theorem toRat_div_toRat (x y : Binary64) :
    x.toRat / y.toRat =
      (withSign (x.negative ^^ y.negative) x.units : Int) / (y.units : Rat) := by
  have hone : ((unitsPerOne : Int) : Rat) ≠ 0 := Int.cast_ne_zero.mpr unitsPerOne_int_pos.ne'
  rw [toRat_eq, toRat_eq, div_div_div_cancel_right₀ hone, scaled, scaled]
  cases x.negative <;> cases y.negative <;> simp [withSign, div_neg, neg_div]

theorem roundsTo_times_iff (x y : Binary64) (r : Rat) :
    RoundsTo (x.toRat * y.toRat) r ↔ (x.times y).isInfinite = false ∧ (x.times y).toRat = r := by
  rw [toRat_mul_toRat]
  exact roundsTo_iff _ (Nat.mul_pos unitsPerOne_pos unitsPerOne_pos) r

theorem roundsTo_dividedBy_iff (x : Binary64) (hy : 0 < y.units) (r : Rat) :
    RoundsTo (x.toRat / y.toRat) r ↔
      (x.dividedBy y).isInfinite = false ∧ (x.dividedBy y).toRat = r := by
  rw [toRat_div_toRat]
  exact roundsTo_iff _ hy r

theorem isInfinite_powerOfTen {places : Nat} (h : places ≤ lastPower) :
    (powerOfTen places).isInfinite = false := by
  have hlast : (powerOfTen lastPower).isInfinite = false := by decide +kernel
  unfold powerOfTen at hlast ⊢
  generalize lastPower = last at h hlast
  rw [isInfinite_nearest_eq_false_iff false Nat.one_pos] at hlast ⊢
  exact Nat.lt_of_le_of_lt (Nat.pow_le_pow_right (by decide) h) hlast

theorem unitsPerOne_le_units_powerOfTen (places : Nat) :
    unitsPerOne ≤ (powerOfTen places).units := by
  have hone : (nearest false 1 1).units = 1 * unitsPerOne :=
    units_nearest_of_shiftFor_le false (shiftFor_le_of_lt (by decide))
  rw [Nat.one_mul] at hone
  rw [← hone, powerOfTen]
  apply units_nearest_le false false Nat.one_pos Nat.one_pos
  rw [Nat.mul_one, Nat.mul_one]
  exact Nat.pow_pos (by decide)

theorem units_powerOfTen_pos (places : Nat) : 0 < (powerOfTen places).units :=
  Nat.lt_of_lt_of_le unitsPerOne_pos (unitsPerOne_le_units_powerOfTen places)

theorem roundsTo_powerOfTen_iff {places : Nat} (h : places ≤ lastPower) (r : Rat) :
    RoundsTo (10 ^ places) r ↔ (powerOfTen places).toRat = r := by
  have hpower : (10 : Rat) ^ places =
      (withSign false (Nat.pow 10 places) : Int) / ((1 : Nat) : Rat) := by
    rw [withSign_false, Nat.cast_one, div_one]
    exact_mod_cast rfl
  rw [hpower, roundsTo_iff false Nat.one_pos]
  exact and_iff_right (isInfinite_powerOfTen h)

/-- Dividing by a power of ten that is not a fraction does not lead beyond the finite numbers. -/
theorem isFinite_dividedBy_powerOfTen (hx : x.IsFinite) (places : Nat) :
    (x.dividedBy (powerOfTen places)).IsFinite := by
  rw [IsFinite, dividedBy, magnitude_nearest]
  have hle : nearestMagnitude x.units (powerOfTen places).units ≤
      nearestMagnitude x.units unitsPerOne :=
    nearestMagnitude_mono (units_powerOfTen_pos places) unitsPerOne_pos
      (Nat.mul_le_mul_left _ (unitsPerOne_le_units_powerOfTen places))
  rw [nearestMagnitude_units hx.isNaN] at hle
  exact Nat.lt_of_le_of_lt hle hx

theorem negative_times_powerOfTen (x : Binary64) (places : Nat) :
    (x.times (powerOfTen places)).negative = x.negative := by
  rw [times, negative_nearest, powerOfTen, negative_nearest, Bool.xor_false]

theorem negative_dividedBy_powerOfTen (x : Binary64) (places : Nat) :
    (x.dividedBy (powerOfTen places)).negative = x.negative := by
  rw [dividedBy, negative_nearest, powerOfTen, negative_nearest, Bool.xor_false]

end Binary64

/-! ### Scaling -/

/-- The roundings that a number goes through on its way to `q * 10 ^ exponent`. The powers of ten up to
`10 ^ 308` are rounded, and the number is multiplied by or divided by them; beyond that it is divided in
steps, and only zero is multiplied. -/
inductive ScalesTo : Rat → Int → Rat → Prop where
  | times {q power r : Rat} {places : Nat} (hplaces : places ≤ 308)
      (hpower : RoundsTo (10 ^ places) power) (hproduct : RoundsTo (q * power) r) :
      ScalesTo q places r
  | dividedBy {q power r : Rat} {places : Nat} (hpos : 0 < places) (hplaces : places ≤ 308)
      (hpower : RoundsTo (10 ^ places) power) (hquotient : RoundsTo (q / power) r) :
      ScalesTo q (-places) r
  | step {q power next r : Rat} {places : Nat} (hpos : 0 < places)
      (hpower : RoundsTo (10 ^ 308) power) (hquotient : RoundsTo (q / power) next)
      (hrest : ScalesTo next (-places) r) : ScalesTo q (-(places + 308)) r
  | zero (exponent : Int) : ScalesTo 0 exponent 0

theorem roundsTo_zero : RoundsTo 0 0 := by
  have hquotient : (0 : Rat) = (withSign false 0 : Int) / ((1 : Nat) : Rat) := by simp [withSign]
  have hzero : (nearest false 0 1).toRat = 0 :=
    toRat_eq_zero_iff.mpr (units_nearest_zero false Nat.one_pos)
  nth_rewrite 1 [hquotient]
  rw [roundsTo_iff false Nat.one_pos, isInfinite_nearest_eq_false_iff false Nat.one_pos]
  exact ⟨Nat.mul_pos overflowBound_pos Nat.one_pos, hzero⟩

theorem RoundsTo.eq_zero {r : Rat} (h : RoundsTo 0 r) : r = 0 :=
  h.unique roundsTo_zero

theorem ScalesTo.eq_zero {q r : Rat} {exponent : Int} (h : ScalesTo q exponent r) (hq : q = 0) :
    r = 0 := by
  induction h with
  | times _ _ hproduct =>
      rw [hq, zero_mul] at hproduct
      exact hproduct.eq_zero
  | dividedBy _ _ _ hquotient =>
      rw [hq, zero_div] at hquotient
      exact hquotient.eq_zero
  | step _ _ hquotient _ ih =>
      rw [hq, zero_div] at hquotient
      exact ih hquotient.eq_zero
  | zero => rfl

namespace Binary64

variable {x y : Binary64}

theorem scale?_neg (x : Binary64) {places : Nat} (h : 0 < places) :
    x.scale? (-(places : Int)) = some (x.dividedByPower places) := by
  obtain ⟨k, rfl⟩ := Nat.exists_eq_add_of_lt h
  rw [Nat.zero_add]
  rfl

theorem timesPower?_of_le {places : Nat} (h : places ≤ lastPower)
    (hfinite : (x.times (powerOfTen places)).isInfinite = false) :
    x.timesPower? places = some (x.times (powerOfTen places)) := by
  simp [timesPower?, h, hfinite]

theorem dividedByPower_of_le {places : Nat} (h : places ≤ lastPower) :
    x.dividedByPower places = x.dividedBy (powerOfTen places) := by
  rw [dividedByPower, if_pos h]

theorem dividedByPower_add {places : Nat} (hpos : 0 < places) (hx : x.units ≠ 0) :
    x.dividedByPower (places + lastPower) =
      (x.dividedBy (powerOfTen lastPower)).dividedByPower places := by
  rw [dividedByPower, if_neg (by omega), if_neg hx, Nat.add_sub_cancel]

theorem dividedByPower_of_zero (places : Nat) (hx : x.units = 0) :
    (x.dividedByPower places).units = 0 := by
  rw [dividedByPower]
  split
  · rw [dividedBy, hx]
    exact units_nearest_zero _ (units_powerOfTen_pos places)
  · exact hx

theorem isNaN_times (x y : Binary64) : (x.times y).isNaN = false :=
  isNaN_nearest _ _ _

/-- What division by a power of ten leads to, on the way that the roundings prescribe. -/
theorem scalesTo_dividedByPower {places : Nat} (hpos : 0 < places) (hx : x.IsFinite) :
    (x.dividedByPower places).IsFinite ∧ (x.dividedByPower places).negative = x.negative ∧
      ScalesTo x.toRat (-places) (x.dividedByPower places).toRat := by
  fun_induction dividedByPower x places with
  | case1 x places hplaces =>
      have hfinite := isFinite_dividedBy_powerOfTen hx places
      refine ⟨hfinite, negative_dividedBy_powerOfTen x places, ?_⟩
      exact .dividedBy hpos hplaces ((roundsTo_powerOfTen_iff hplaces _).mpr rfl)
        ((roundsTo_dividedBy_iff x (units_powerOfTen_pos places) _).mpr
          ⟨((isFinite_iff _).mp hfinite).2, rfl⟩)
  | case2 x places _ hzero =>
      refine ⟨hx, rfl, ?_⟩
      rw [toRat_eq_zero_iff.mpr hzero]
      exact .zero _
  | case3 x places hmany _ ih =>
      have hfinite := isFinite_dividedBy_powerOfTen hx lastPower
      have hrest : 0 < places - lastPower := by omega
      obtain ⟨hend, hnegative, hscales⟩ := ih hrest hfinite
      refine ⟨hend, hnegative.trans (negative_dividedBy_powerOfTen x lastPower), ?_⟩
      have hsplit : (places : Int) = ((places - lastPower : Nat) : Int) + 308 := by
        unfold lastPower at hmany ⊢
        omega
      rw [hsplit]
      exact .step hrest ((roundsTo_powerOfTen_iff (Nat.le_refl _) _).mpr rfl)
        ((roundsTo_dividedBy_iff x (units_powerOfTen_pos lastPower) _).mpr
          ⟨((isFinite_iff _).mp hfinite).2, rfl⟩) hscales

theorem scalesTo_timesPower? {places : Nat} (hx : x.IsFinite) (h : x.timesPower? places = some y) :
    y.IsFinite ∧ y.negative = x.negative ∧ ScalesTo x.toRat places y.toRat := by
  unfold timesPower? at h
  split at h
  case isTrue hplaces =>
    simp only at h
    split at h
    case isTrue => cases h
    case isFalse hfinite =>
      cases h
      rw [Bool.not_eq_true] at hfinite
      exact ⟨(isFinite_iff _).mpr ⟨isNaN_times _ _, hfinite⟩, negative_times_powerOfTen x places,
        .times hplaces ((roundsTo_powerOfTen_iff hplaces _).mpr rfl)
          ((roundsTo_times_iff x _ _).mpr ⟨hfinite, rfl⟩)⟩
  case isFalse =>
    split at h
    case isTrue hzero =>
      cases h
      refine ⟨hx, rfl, ?_⟩
      rw [toRat_eq_zero_iff.mpr hzero]
      exact .zero _
    case isFalse => cases h

/-- What scaling gives is finite, keeps the sign and is reached by the roundings. -/
theorem scalesTo_of_scale? {exponent : Int} (hx : x.IsFinite) (h : x.scale? exponent = some y) :
    y.IsFinite ∧ y.negative = x.negative ∧ ScalesTo x.toRat exponent y.toRat := by
  cases exponent with
  | ofNat places => exact scalesTo_timesPower? hx h
  | negSucc places =>
      cases h
      exact scalesTo_dividedByPower (Nat.succ_pos places) hx

theorem exists_scale?_of_zero (hx : x.units = 0) (exponent : Int) :
    ∃ y, x.scale? exponent = some y ∧ y.toRat = 0 := by
  simp only [toRat_eq_zero_iff]
  cases exponent with
  | negSucc places => exact ⟨_, rfl, dividedByPower_of_zero _ hx⟩
  | ofNat places =>
      by_cases hplaces : places ≤ lastPower
      · have hden : 0 < unitsPerOne * unitsPerOne := Nat.mul_pos unitsPerOne_pos unitsPerOne_pos
        have hproduct : x.times (powerOfTen places) =
            nearest (x.negative ^^ (powerOfTen places).negative) 0 (unitsPerOne * unitsPerOne) := by
          rw [times, hx, Nat.zero_mul]
        have hfinite : (x.times (powerOfTen places)).isInfinite = false := by
          rw [hproduct, isInfinite_nearest_eq_false_iff _ hden]
          exact Nat.mul_pos overflowBound_pos hden
        refine ⟨_, timesPower?_of_le hplaces hfinite, ?_⟩
        rw [hproduct, units_nearest_zero _ hden]
      · exact ⟨x, by simp [scale?, timesPower?, hplaces, hx], hx⟩

/-- Scaling gives a number wherever the roundings lead to one. -/
theorem exists_scale?_of_scalesTo {q r : Rat} {exponent : Int} (h : ScalesTo q exponent r) :
    ∀ {x : Binary64}, x.toRat = q → ∃ y, x.scale? exponent = some y ∧ y.toRat = r := by
  induction h with
  | times hplaces hpower hproduct =>
      rintro x rfl
      rw [← (roundsTo_powerOfTen_iff hplaces _).mp hpower, roundsTo_times_iff] at hproduct
      exact ⟨_, timesPower?_of_le hplaces hproduct.1, hproduct.2⟩
  | @dividedBy _ _ _ places hpos hplaces hpower hquotient =>
      rintro x rfl
      rw [← (roundsTo_powerOfTen_iff hplaces _).mp hpower,
        roundsTo_dividedBy_iff x (units_powerOfTen_pos places)] at hquotient
      exact ⟨_, scale?_neg x hpos, by rw [dividedByPower_of_le hplaces, hquotient.2]⟩
  | @step q power next r places hpos hpower hquotient hrest ih =>
      rintro x rfl
      by_cases hzero : x.units = 0
      · rw [toRat_eq_zero_iff.mpr hzero, zero_div] at hquotient
        rw [hrest.eq_zero hquotient.eq_zero]
        exact exists_scale?_of_zero hzero _
      · rw [← (roundsTo_powerOfTen_iff (Nat.le_refl lastPower) _).mp hpower,
          roundsTo_dividedBy_iff x (units_powerOfTen_pos lastPower)] at hquotient
        obtain ⟨y, hy, hrat⟩ := ih hquotient.2
        rw [scale?_neg _ hpos] at hy
        have hmany : -((places : Int) + 308) = -((places + lastPower : Nat) : Int) := by
          unfold lastPower
          omega
        refine ⟨y, ?_, hrat⟩
        rw [hmany, scale?_neg x (Nat.add_pos_left hpos _), dividedByPower_add hpos hzero, hy]
  | zero exponent =>
      intro x hx
      exact exists_scale?_of_zero (toRat_eq_zero_iff.mp hx) exponent

end Binary64

/-! ### Scaling without rounding twice -/

namespace Binary64

/-- A whole number of at most 53 bits is not rounded, and neither is a small power of ten. -/
theorem toRat_nearest_of_lt (negative : Bool) {n : Nat} (h : n < Nat.pow 2 53) :
    (nearest negative n 1).toRat = (withSign negative n : Int) := by
  have hone : ((unitsPerOne : Int) : Rat) ≠ 0 := Int.cast_ne_zero.mpr unitsPerOne_int_pos.ne'
  rw [toRat_eq, scaled_nearest, units_nearest_of_shiftFor_le negative (shiftFor_le_of_lt h),
    withSign_mul, Int.cast_mul, mul_div_cancel_right₀ _ hone]

theorem toRat_powerOfTen {places : Nat} (h : places ≤ 22) :
    (powerOfTen places).toRat = 10 ^ places := by
  have hunits : ∀ k : Fin 23, (powerOfTen k).scaled = (Nat.pow 10 k : Nat) * unitsPerOne := by
    decide +kernel
  have hone : ((unitsPerOne : Int) : Rat) ≠ 0 := Int.cast_ne_zero.mpr unitsPerOne_int_pos.ne'
  rw [toRat_eq, hunits ⟨places, Nat.lt_succ_of_le h⟩, Int.cast_mul, mul_div_cancel_right₀ _ hone]
  exact_mod_cast rfl

end Binary64

/-- With a small exponent and no rounding before, scaling leads to the number nearest to the product. -/
theorem ScalesTo.roundsTo_of_short {q r : Rat} {exponent : Int} (h : ScalesTo q exponent r)
    (hshort : exponent.natAbs ≤ 22) : RoundsTo (q * 10 ^ exponent) r := by
  cases h with
  | times hplaces hpower hproduct =>
      rw [Int.natAbs_natCast] at hshort
      rw [← (roundsTo_powerOfTen_iff hplaces _).mp hpower, toRat_powerOfTen hshort] at hproduct
      rwa [zpow_natCast]
  | dividedBy _ hplaces hpower hquotient =>
      rw [Int.natAbs_neg, Int.natAbs_natCast] at hshort
      rw [← (roundsTo_powerOfTen_iff hplaces _).mp hpower, toRat_powerOfTen hshort] at hquotient
      rwa [zpow_neg, zpow_natCast, ← div_eq_mul_inv]
  | step => omega
  | zero =>
      rw [zero_mul]
      exact roundsTo_zero

end RecordRules.Number
