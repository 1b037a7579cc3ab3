import Mathlib.Tactic.Linarith
import RecordRules.Proofs.ExactJudgement

/-! Rounding leads to the nearest number. Of the finite floating-point numbers those with at least the
shift of a quotient are multiples of one power of two, of which the rounded significand is a nearest one;
those with a smaller shift are all below the least multiple with a full significand, which the quotient
is not. Another sign takes no number nearer. As of two neighbours only one has an even significand, the
rule for ties leaves no choice, so that only one number is nearest. -/

namespace RecordRules.Number

/-! ### Whole numbers -/

/-- How far two whole numbers are apart. -/
def distance (m n : Nat) : Nat :=
  (m - n : Int).natAbs

/-- No multiple is nearer than the rounded one, and none is as near unless the rounded one is even. -/
theorem distance_roundHalfEven {den : Nat} (hden : 0 < den) (num k : Nat) :
    distance (roundHalfEven num den * den) num ≤ distance (k * den) num ∧
      (distance (roundHalfEven num den * den) num = distance (k * den) num →
        k = roundHalfEven num den ∨ roundHalfEven num den % 2 = 0) := by
  have hsplit := Nat.div_add_mod' num den
  have hrest := Nat.mod_lt num hden
  have hnext : (num / den + 1) * den = num / den * den + den := Nat.succ_mul _ _
  have hother : k * den + den ≤ num / den * den ∨ k = num / den ∨ k = num / den + 1 ∨
      num / den * den + 2 * den ≤ k * den := by
    rcases Nat.lt_trichotomy k (num / den) with hlt | heq | hgt
    · have hmul := Nat.mul_le_mul_right den hlt
      rw [Nat.succ_mul] at hmul
      exact Or.inl hmul
    · exact Or.inr (Or.inl heq)
    · rcases Nat.lt_or_eq_of_le hgt with hlt | heq
      · have hmul := Nat.mul_le_mul_right den hlt
        rw [Nat.succ_mul, hnext] at hmul
        exact Or.inr (Or.inr (Or.inr (by omega)))
      · exact Or.inr (Or.inr (Or.inl heq.symm))
  unfold distance
  rcases roundHalfEven_cases num den with ⟨hround, hdown⟩ | ⟨hround, hup⟩
  · rw [hround]
    rcases hother with hless | rfl | rfl | hmore
    · omega
    · exact ⟨Nat.le_refl _, fun _ => Or.inl rfl⟩
    · rw [hnext]
      omega
    · omega
  · rw [hround, hnext]
    rcases hother with hless | rfl | rfl | hmore
    · omega
    · omega
    · exact ⟨by rw [hnext], fun _ => Or.inl rfl⟩
    · omega

theorem natAbs_withSign_sub (negative : Bool) (m n : Nat) :
    (withSign negative m - withSign negative n).natAbs = distance m n := by
  unfold distance
  cases negative with
  | false => rfl
  | true =>
      rw [Binary64.withSign_true, Binary64.withSign_true]
      omega

theorem distance_le_natAbs (negative negative' : Bool) (m n : Nat) :
    distance m n ≤ (withSign negative m - withSign negative' n).natAbs := by
  unfold distance
  cases negative <;> cases negative' <;>
    simp only [Binary64.withSign_true, Binary64.withSign_false] <;> omega

/-- Only of zero does the sign make no difference. -/
theorem eq_of_natAbs_eq_distance {negative negative' : Bool} {m n : Nat}
    (h : (withSign negative m - withSign negative' n).natAbs = distance m n) :
    withSign negative m = withSign negative' m ∨ n = 0 := by
  unfold distance at h
  by_cases hsign : negative = negative'
  · exact Or.inl (by rw [hsign])
  · cases negative <;> cases negative' <;>
      simp only [Binary64.withSign_true, Binary64.withSign_false, not_true] at h hsign ⊢ <;> omega

namespace Binary64

/-! ### Units -/

/-- A number is on the grid of a shift, or below its full significands. -/
theorem units_eq_mul_or_lt (y : Binary64) (shift : Nat) :
    (∃ k, y.units = k * Nat.pow 2 shift) ∨
      (0 < shift ∧ y.units < exponentWeight * Nat.pow 2 shift) := by
  rcases Nat.lt_or_ge y.shift shift with hlt | hge
  · refine Or.inr ⟨Nat.zero_lt_of_lt hlt, ?_⟩
    calc y.units < 2 * exponentWeight * Nat.pow 2 y.shift :=
          Nat.mul_lt_mul_of_pos_right y.significand_lt (pow_two_pos _)
      _ = exponentWeight * Nat.pow 2 (y.shift + 1) := by
          rw [pow_two_add, Nat.mul_comm 2, Nat.mul_assoc, Nat.mul_comm 2]
      _ ≤ exponentWeight * Nat.pow 2 shift :=
          Nat.mul_le_mul_left _ (Nat.pow_le_pow_right Nat.two_pos hlt)
  · refine Or.inl ⟨y.significand * Nat.pow 2 (y.shift - shift), ?_⟩
    rw [Nat.mul_assoc, ← pow_two_add, Nat.sub_add_cancel hge]
    rfl

theorem nearestMagnitude_of_finite {negative : Bool} {num den : Nat}
    (h : (nearest negative num den).isInfinite = false) :
    shiftFor (num * unitsPerOne) den * exponentWeight +
      roundedSignificand (num * unitsPerOne) den ≤ infinityMagnitude := by
  rw [isInfinite, magnitude_nearest, nearestMagnitude_eq, beq_eq_false_iff_ne] at h
  omega

theorem mul_exponentWeight_add_mod_two (k m : Nat) : (k * exponentWeight + m) % 2 = m % 2 := by
  have hweight : exponentWeight = 2 * Nat.pow 2 51 := rfl
  rw [hweight, Nat.mul_left_comm, Nat.mul_add_mod]

theorem significand_mod_two (x : Binary64) : x.significand % 2 = x.magnitude % 2 := by
  rw [← x.shift_add_significand, mul_exponentWeight_add_mod_two]

theorem significand_nearest_mod_two {negative : Bool} {num den : Nat}
    (h : (nearest negative num den).isInfinite = false) :
    (nearest negative num den).significand % 2 =
      roundedSignificand (num * unitsPerOne) den % 2 := by
  rw [significand_mod_two, magnitude_nearest, nearestMagnitude_eq,
    Nat.min_eq_left (nearestMagnitude_of_finite h), mul_exponentWeight_add_mod_two]

/-- The rounded significand, at the shift of the quotient, is nearer than the units of any number. -/
theorem distance_roundedSignificand {den : Nat} (hden : 0 < den) (units : Nat) (y : Binary64) :
    distance (roundedSignificand units den * Nat.pow 2 (shiftFor units den) * den) units ≤
        distance (y.units * den) units ∧
      (distance (roundedSignificand units den * Nat.pow 2 (shiftFor units den) * den) units =
          distance (y.units * den) units →
        y.units = roundedSignificand units den * Nat.pow 2 (shiftFor units den) ∨
          roundedSignificand units den % 2 = 0) := by
  have hgrid : ∀ k, k * Nat.pow 2 (shiftFor units den) * den =
      k * (den * Nat.pow 2 (shiftFor units den)) := by
    intro k
    rw [Nat.mul_assoc, Nat.mul_comm (Nat.pow 2 _)]
  have hstep : 0 < den * Nat.pow 2 (shiftFor units den) := Nat.mul_pos hden (pow_two_pos _)
  rw [hgrid, roundedSignificand]
  rcases y.units_eq_mul_or_lt (shiftFor units den) with ⟨k, hunits⟩ | ⟨hshift, hbelow⟩
  · rw [hunits, hgrid]
    obtain ⟨hle, htie⟩ := distance_roundHalfEven hstep units k
    refine ⟨hle, fun h => (htie h).imp_left ?_⟩
    intro hsame
    rw [hsame]
  · -- the least full significand is nearer, which is not above the quotient
    have hless : y.units * den < exponentWeight * (den * Nat.pow 2 (shiftFor units den)) := by
      rw [← hgrid]
      exact Nat.mul_lt_mul_of_pos_right hbelow hden
    have hleast : exponentWeight * (den * Nat.pow 2 (shiftFor units den)) ≤ units :=
      (Nat.le_div_iff_mul_le hstep).mp (le_div_shift hshift)
    have hle := (distance_roundHalfEven hstep units exponentWeight).1
    unfold distance at hle ⊢
    omega

/-- No number has units nearer to a quotient than the rounded one. -/
theorem distance_units_nearest (negative : Bool) {num den : Nat} (hden : 0 < den)
    (hfinite : (nearest negative num den).isInfinite = false) (y : Binary64) :
    distance ((nearest negative num den).units * den) (num * unitsPerOne) ≤
        distance (y.units * den) (num * unitsPerOne) ∧
      (distance ((nearest negative num den).units * den) (num * unitsPerOne) =
          distance (y.units * den) (num * unitsPerOne) →
        y.units = (nearest negative num den).units ∨
          (nearest negative num den).significand % 2 = 0) := by
  rw [significand_nearest_mod_two hfinite,
    units_nearest negative num den (nearestMagnitude_of_finite hfinite)]
  exact distance_roundedSignificand hden _ y

/-! ### What is denoted -/

/-- Neither infinity nor what is not a number. -/
def IsFinite (x : Binary64) : Prop :=
  x.magnitude < infinityMagnitude

theorem isFinite_iff (x : Binary64) : x.IsFinite ↔ x.isNaN = false ∧ x.isInfinite = false := by
  rw [IsFinite, isNaN, isInfinite, decide_eq_false_iff_not, beq_eq_false_iff_ne]
  omega

/-- The finite number that is nearest to a rational number: none is nearer, and if another one is as near,
then this is the one with the even significand. -/
structure IsNearest (x : Binary64) (q : Rat) : Prop where
  finite : x.IsFinite
  le : ∀ y : Binary64, y.IsFinite → |x.toRat - q| ≤ |y.toRat - q|
  even : ∀ y : Binary64, y.IsFinite → |x.toRat - q| = |y.toRat - q| →
    y.toRat = x.toRat ∨ x.significand % 2 = 0

/-- The distance to a quotient, in units. -/
theorem abs_toRat_sub (x : Binary64) (n : Int) {den : Nat} (hden : 0 < den) :
    |x.toRat - n / den| =
      ((x.scaled * den - n * unitsPerOne).natAbs : Rat) / (unitsPerOne * den : Nat) := by
  have hone : (0 : Rat) < unitsPerOne := Nat.cast_pos.mpr unitsPerOne_pos
  have hquotient : (0 : Rat) < den := Nat.cast_pos.mpr hden
  have hproduct : (0 : Rat) < (unitsPerOne * den : Nat) :=
    Nat.cast_pos.mpr (Nat.mul_pos unitsPerOne_pos hden)
  rw [Nat.cast_natAbs, ← abs_of_pos hproduct, Int.cast_abs, ← abs_div, toRat_eq, Int.cast_natCast,
    div_sub_div _ _ hone.ne' hquotient.ne']
  push_cast
  rw [mul_comm (unitsPerOne : Rat) n]

theorem scaled_eq_of_units_eq {y : Binary64} {negative : Bool} {num den : Nat} (hden : 0 < den)
    (hunits : y.units = (nearest negative num den).units)
    (h : (y.scaled * den - withSign negative num * unitsPerOne).natAbs =
      distance (y.units * den) (num * unitsPerOne)) :
    y.scaled = (nearest negative num den).scaled := by
  rw [scaled, ← withSign_mul, ← withSign_mul] at h
  rw [scaled_nearest, scaled, ← hunits]
  rcases eq_of_natAbs_eq_distance h with hsame | hzero
  · rw [withSign_mul, withSign_mul] at hsame
    exact Int.eq_of_mul_eq_mul_right (Int.natCast_ne_zero.mpr (Nat.ne_of_gt hden)) hsame
  · obtain rfl : num = 0 := (Nat.mul_eq_zero.mp hzero).resolve_right (Nat.ne_of_gt unitsPerOne_pos)
    rw [hunits, units_nearest_zero negative hden]
    cases y.negative <;> cases negative <;> rfl

/-- A quotient is rounded to the number nearest to it, if it is rounded to a finite one. -/
theorem isNearest_nearest {negative : Bool} {num den : Nat} (hden : 0 < den)
    (hfinite : (nearest negative num den).isInfinite = false) :
    (nearest negative num den).IsNearest ((withSign negative num : Int) / den) := by
  have hproduct : (0 : Rat) < (unitsPerOne * den : Nat) :=
    Nat.cast_pos.mpr (Nat.mul_pos unitsPerOne_pos hden)
  have hself : ((nearest negative num den).scaled * den - withSign negative num * unitsPerOne).natAbs =
      distance ((nearest negative num den).units * den) (num * unitsPerOne) := by
    rw [scaled_nearest, ← withSign_mul, ← withSign_mul, natAbs_withSign_sub]
  have hother : ∀ y : Binary64,
      distance (y.units * den) (num * unitsPerOne) ≤
        (y.scaled * den - withSign negative num * unitsPerOne).natAbs := fun y => by
    rw [scaled, ← withSign_mul, ← withSign_mul]
    exact distance_le_natAbs _ _ _ _
  refine ⟨(isFinite_iff _).mpr ⟨isNaN_nearest _ _ _, hfinite⟩, fun y _ => ?_, fun y _ h => ?_⟩
  · rw [abs_toRat_sub _ _ hden, abs_toRat_sub _ _ hden, div_le_div_iff_of_pos_right hproduct,
      Nat.cast_le, hself]
    exact Nat.le_trans (distance_units_nearest negative hden hfinite y).1 (hother y)
  · rw [abs_toRat_sub _ _ hden, abs_toRat_sub _ _ hden, div_left_inj' hproduct.ne', Nat.cast_inj,
      hself] at h
    obtain ⟨hle, htie⟩ := distance_units_nearest negative hden hfinite y
    -- the sign of the other number does not take it further away
    have hge : distance (y.units * den) (num * unitsPerOne) ≤
        distance ((nearest negative num den).units * den) (num * unitsPerOne) := by
      rw [h]
      exact hother y
    have hsame := Nat.le_antisymm hle hge
    rcases htie hsame with hunits | heven
    · rw [toRat_eq, toRat_eq, scaled_eq_of_units_eq hden hunits (h.symm.trans hsame)]
      exact Or.inl rfl
    · exact Or.inr heven

theorem isNearest_ofInt {n : Int} (hfinite : (ofInt n).isInfinite = false) :
    (ofInt n).IsNearest n := by
  have hnearest := isNearest_nearest Nat.one_pos hfinite
  rw [withSign_natAbs, Nat.cast_one, div_one] at hnearest
  exact hnearest

/-! ### One nearest number -/

variable {x y : Binary64} {q : Rat}

theorem IsFinite.isNaN (h : x.IsFinite) : x.isNaN = false :=
  ((isFinite_iff x).mp h).1

theorem magnitude_lt_iff (hx : x.IsFinite) (hy : y.IsFinite) :
    x.magnitude < y.magnitude ↔ x.units < y.units := by
  constructor
  · intro h
    apply Nat.lt_of_not_le
    intro hle
    exact Nat.not_le_of_lt h (magnitude_le_of_units_le hy.isNaN hx.isNaN hle)
  · intro h
    apply Nat.lt_of_not_le
    intro hle
    exact Nat.not_le_of_lt h (units_le_of_magnitude_le hy.isNaN hx.isNaN hle)

/-- The number of the next magnitude has an odd significand, and so is not yet the other one. -/
theorem exists_units_between (negative : Bool) (hx : x.IsFinite) (hy : y.IsFinite)
    (hevenx : x.significand % 2 = 0) (heveny : y.significand % 2 = 0) (h : x.units < y.units) :
    ∃ z : Binary64, z.IsFinite ∧ z.negative = negative ∧ x.units < z.units ∧ z.units < y.units := by
  rw [significand_mod_two] at hevenx heveny
  have hmagnitude := (magnitude_lt_iff hx hy).mpr h
  have hnext : x.magnitude + 1 < y.magnitude := by omega
  have hrange : x.magnitude + 1 < signWeight := Nat.lt_trans hnext y.magnitude_lt_signWeight
  have hz := magnitude_ofMagnitude negative hrange
  have hfinite : (ofMagnitude negative (x.magnitude + 1)).IsFinite := by
    rw [IsFinite, hz]
    exact Nat.lt_trans hnext hy
  refine ⟨_, hfinite, negative_ofMagnitude negative hrange, ?_, ?_⟩
  · rw [← magnitude_lt_iff hx hfinite, hz]
    exact Nat.lt_succ_self _
  · rw [← magnitude_lt_iff hfinite hy, hz]
    exact hnext

/-- Two numbers with even significands are not next to each other. -/
theorem exists_scaled_between (hx : x.IsFinite) (hy : y.IsFinite) (hevenx : x.significand % 2 = 0)
    (heveny : y.significand % 2 = 0) (h : x.scaled < y.scaled) :
    ∃ z : Binary64, z.IsFinite ∧ x.scaled < z.scaled ∧ z.scaled < y.scaled := by
  have hunitsx := x.natAbs_scaled
  have hunitsy := y.natAbs_scaled
  rcases lt_or_ge x.scaled 0 with hnegative | hnonneg
  · rcases lt_or_ge 0 y.scaled with hpositive | hnonpos
    · have hzero : (ofMagnitude false 0).scaled = 0 := by decide
      have hfinite : (ofMagnitude false 0).IsFinite := by
        rw [isFinite_iff]
        decide
      exact ⟨_, hfinite, hzero.symm ▸ hnegative, hzero.symm ▸ hpositive⟩
    · obtain ⟨z, hz, hsign, hlow, hhigh⟩ :=
        exists_units_between true hy hx heveny hevenx (by omega)
      have hscaled : z.scaled = -(z.units : Int) := by rw [scaled, hsign, withSign_true]
      exact ⟨z, hz, by omega, by omega⟩
  · obtain ⟨z, hz, hsign, hlow, hhigh⟩ :=
      exists_units_between false hx hy hevenx heveny (by omega)
    have hscaled : z.scaled = z.units := by rw [scaled, hsign, withSign_false]
    exact ⟨z, hz, by omega, by omega⟩

theorem toRat_lt_toRat_iff : x.toRat < y.toRat ↔ x.scaled < y.scaled := by
  have hpos : (0 : Rat) < (unitsPerOne : Int) := Int.cast_pos.mpr unitsPerOne_int_pos
  rw [toRat_eq, toRat_eq, div_lt_div_iff_of_pos_right hpos, Int.cast_lt]

theorem IsNearest.not_toRat_lt (hx : x.IsNearest q) (hy : y.IsNearest q) : ¬ x.toRat < y.toRat := by
  intro hlt
  have hsame : |x.toRat - q| = |y.toRat - q| := le_antisymm (hx.le y hy.finite) (hy.le x hx.finite)
  have hevenx := (hx.even y hy.finite hsame).resolve_left hlt.ne'
  have heveny := (hy.even x hx.finite hsame.symm).resolve_left hlt.ne
  obtain ⟨z, hz, hlow, hhigh⟩ :=
    exists_scaled_between hx.finite hy.finite hevenx heveny (toRat_lt_toRat_iff.mp hlt)
  rw [← toRat_lt_toRat_iff] at hlow hhigh
  have hnearer : |z.toRat - q| < |x.toRat - q| := by
    rcases abs_eq_abs.mp hsame with heq | hneg
    · exact absurd (sub_left_injective heq) hlt.ne
    · have hside : x.toRat - q < 0 := by linarith
      rw [abs_of_neg hside, abs_lt]
      constructor <;> linarith
  exact absurd (hx.le z hz) (not_le_of_gt hnearer)

/-- Only one number is nearest, up to the sign of zero. -/
theorem IsNearest.unique (hx : x.IsNearest q) (hy : y.IsNearest q) : x.toRat = y.toRat :=
  le_antisymm (not_lt.mp (hy.not_toRat_lt hx)) (not_lt.mp (hx.not_toRat_lt hy))

theorem magnitude_eq_of_toRat_eq (hx : x.IsFinite) (hy : y.IsFinite) (h : x.toRat = y.toRat) :
    x.magnitude = y.magnitude := by
  have hscaled : x.scaled = y.scaled := by
    apply Int.le_antisymm
    · exact Int.not_lt.mp fun hlt => h.not_gt (toRat_lt_toRat_iff.mpr hlt)
    · exact Int.not_lt.mp fun hlt => h.not_lt (toRat_lt_toRat_iff.mpr hlt)
  apply magnitude_eq_of_units_eq hx.isNaN hy.isNaN
  rw [← natAbs_scaled, ← natAbs_scaled, hscaled]

/-- A finite number is known by what it denotes and its sign. -/
theorem eq_of_toRat_eq (hx : x.IsFinite) (hy : y.IsFinite) (hrat : x.toRat = y.toRat)
    (hsign : x.negative = y.negative) : x = y := by
  have hmagnitude := magnitude_eq_of_toRat_eq hx hy hrat
  have hbits : x.bits.toNat = y.bits.toNat := by
    unfold magnitude at hmagnitude
    unfold negative at hsign
    have hweight : signWeight = 9223372036854775808 := rfl
    have hxrange := x.bits.toNat_lt
    have hyrange := y.bits.toNat_lt
    rw [decide_eq_decide] at hsign
    rw [hweight] at hmagnitude hsign
    omega
  obtain ⟨bits⟩ := x
  obtain ⟨other⟩ := y
  exact congrArg mk (UInt64.toNat_inj.mp hbits)

theorem IsNearest.of_toRat_eq (hx : x.IsNearest q) (hy : y.IsFinite) (h : y.toRat = x.toRat) :
    y.IsNearest q := by
  refine ⟨hy, fun z hz => ?_, fun z hz hsame => ?_⟩
  · rw [h]
    exact hx.le z hz
  · rw [h] at hsame ⊢
    rw [significand_mod_two, magnitude_eq_of_toRat_eq hy hx.finite h, ← significand_mod_two]
    exact hx.even z hz hsame

end Binary64

end RecordRules.Number
