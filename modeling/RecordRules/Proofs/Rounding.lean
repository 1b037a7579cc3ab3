import RecordRules.Proofs.Binary64

/-! The order of rounded numbers. Rounding a quotient to a whole number keeps the order of quotients,
and so does rounding to a floating-point number: with the same shift it is the former, and a larger
shift leaves even the least significand above every smaller one. As a floating-point number is its own
rounding, a number is on the same side of it as the number nearest to it, or rounds to it. A whole
number stays whole when it is rounded. -/

namespace RecordRules.Number

theorem pow_two_add (m n : Nat) : Nat.pow 2 (m + n) = Nat.pow 2 m * Nat.pow 2 n :=
  Nat.pow_add 2 m n

/-! ### Rounding to a whole number -/

/-- A quotient is rounded down or up, to the nearer side, and a tie to the even one. -/
theorem roundHalfEven_cases (num den : Nat) :
    (roundHalfEven num den = num / den ∧
        (2 * (num % den) < den ∨ (2 * (num % den) = den ∧ num / den % 2 = 0))) ∨
      (roundHalfEven num den = num / den + 1 ∧
        (den < 2 * (num % den) ∨ (2 * (num % den) = den ∧ num / den % 2 = 1))) := by
  simp only [roundHalfEven]
  split
  case isTrue hdown => exact Or.inl ⟨rfl, hdown⟩
  case isFalse hdown =>
    rw [not_or, Nat.not_lt, not_and] at hdown
    refine Or.inr ⟨rfl, ?_⟩
    rcases Nat.lt_or_eq_of_le hdown.1 with hlt | heq
    · exact Or.inl hlt
    · have hodd := hdown.2 heq.symm
      exact Or.inr ⟨heq.symm, by omega⟩

theorem div_le_roundHalfEven (num den : Nat) : num / den ≤ roundHalfEven num den := by
  rcases roundHalfEven_cases num den with h | h <;> omega

theorem roundHalfEven_le (num den : Nat) : roundHalfEven num den ≤ num / den + 1 := by
  rcases roundHalfEven_cases num den with h | h <;> omega

theorem div_le_div_of_mul_le_mul {num den num' den' : Nat} (hden : 0 < den) (hden' : 0 < den')
    (h : num * den' ≤ num' * den) : num / den ≤ num' / den' := by
  rw [Nat.le_div_iff_mul_le hden']
  apply Nat.le_of_mul_le_mul_right _ hden
  calc num / den * den' * den = num / den * den * den' := Nat.mul_right_comm _ _ _
    _ ≤ num * den' := Nat.mul_le_mul_right _ (Nat.div_mul_le_self num den)
    _ ≤ num' * den := h

theorem mod_mul_le_mod_mul {num den num' den' : Nat} (hdiv : num / den = num' / den')
    (h : num * den' ≤ num' * den) : num % den * den' ≤ num' % den' * den := by
  have hsplit : num * den' = num / den * (den * den') + num % den * den' := by
    rw [← Nat.mul_assoc, ← Nat.add_mul, Nat.div_add_mod']
  have hsplit' : num' * den = num / den * (den * den') + num' % den' * den := by
    rw [hdiv, Nat.mul_comm den den', ← Nat.mul_assoc, ← Nat.add_mul, Nat.div_add_mod']
  omega

/-- A larger quotient is not rounded to a smaller whole number. -/
theorem roundHalfEven_mono {num den num' den' : Nat} (hden : 0 < den) (hden' : 0 < den')
    (h : num * den' ≤ num' * den) : roundHalfEven num den ≤ roundHalfEven num' den' := by
  have hdiv := div_le_div_of_mul_le_mul hden hden' h
  have hupper := roundHalfEven_le num den
  have hlower := div_le_roundHalfEven num' den'
  rcases Nat.lt_or_eq_of_le hdiv with hlt | heq
  · omega
  · have hmod := mod_mul_le_mod_mul heq h
    rcases roundHalfEven_cases num den with ⟨hround, _⟩ | ⟨hround, hup⟩
    · omega
    · rcases roundHalfEven_cases num' den' with ⟨hround', hdown⟩ | ⟨hround', _⟩
      · -- rounded up, and a larger quotient down: both would be ties, to different sides
        have hhalf : den * den' ≤ 2 * (num % den) * den' := Nat.mul_le_mul_right _ (by omega)
        have hhalf' : 2 * (num' % den') * den ≤ den' * den := Nat.mul_le_mul_right _ (by omega)
        have hbetween : 2 * (num % den) * den' ≤ 2 * (num' % den') * den := by
          rw [Nat.mul_assoc, Nat.mul_assoc]
          exact Nat.mul_le_mul_left 2 hmod
        have hcomm := Nat.mul_comm den den'
        have htie : 2 * (num % den) = den := Nat.eq_of_mul_eq_mul_right hden' (by omega)
        have htie' : 2 * (num' % den') = den' := Nat.eq_of_mul_eq_mul_right hden (by omega)
        omega
      · omega

namespace Binary64

/-! ### The shift of a quotient -/

theorem log2_le_log2 {m n : Nat} (h : m ≤ n) : m.log2 ≤ n.log2 := by
  by_cases hm : m = 0
  · rw [hm, Nat.log2_zero]
    exact Nat.zero_le _
  · have hn : n ≠ 0 := by omega
    exact (Nat.le_log2 hn).mpr (Nat.le_trans (Nat.log2_self_le hm) h)

theorem shiftFor_mono {units den units' den' : Nat} (hden : 0 < den) (hden' : 0 < den')
    (h : units * den' ≤ units' * den) : shiftFor units den ≤ shiftFor units' den' :=
  Nat.sub_le_sub_right (log2_le_log2 (div_le_div_of_mul_le_mul hden hden' h)) 52

/-- With its shift, a quotient has at most 53 bits before the point. -/
theorem div_shift_lt (units den : Nat) :
    units / (den * Nat.pow 2 (shiftFor units den)) < 2 * exponentWeight := by
  have hlog : units / den < Nat.pow 2 (52 + 1 + shiftFor units den) := by
    apply Nat.lt_of_lt_of_le Nat.lt_log2_self
    exact Nat.pow_le_pow_right Nat.two_pos (by unfold shiftFor; omega)
  rw [← Nat.div_div_eq_div_mul, Nat.div_lt_iff_lt_mul (pow_two_pos _)]
  rw [pow_two_add] at hlog
  exact hlog

/-- Where there is a shift, a quotient has all of the 53 bits. -/
theorem le_div_shift {units den : Nat} (h : 0 < shiftFor units den) :
    exponentWeight ≤ units / (den * Nat.pow 2 (shiftFor units den)) := by
  have hshift : 52 + shiftFor units den = (units / den).log2 := by
    unfold shiftFor at h ⊢
    omega
  have hne : units / den ≠ 0 := by
    intro hzero
    rw [hzero, Nat.log2_zero] at hshift
    omega
  rw [← Nat.div_div_eq_div_mul, Nat.le_div_iff_mul_le (pow_two_pos _), exponentWeight_mul_pow,
    hshift]
  exact Nat.log2_self_le hne

/-! ### Rounding to a floating-point number -/

/-- The significand of the number nearest to `units / den` units, before a carry. -/
def roundedSignificand (units den : Nat) : Nat :=
  roundHalfEven units (den * Nat.pow 2 (shiftFor units den))

theorem roundedSignificand_le (units den : Nat) :
    roundedSignificand units den ≤ 2 * exponentWeight :=
  Nat.le_trans (roundHalfEven_le _ _) (div_shift_lt units den)

theorem le_roundedSignificand {units den : Nat} (h : 0 < shiftFor units den) :
    exponentWeight ≤ roundedSignificand units den :=
  Nat.le_trans (le_div_shift h) (div_le_roundHalfEven _ _)

theorem nearestMagnitude_eq (num den : Nat) :
    nearestMagnitude num den =
      min (shiftFor (num * unitsPerOne) den * exponentWeight +
        roundedSignificand (num * unitsPerOne) den) infinityMagnitude :=
  rfl

/-- A larger quotient is not rounded to a number of smaller magnitude. -/
theorem nearestMagnitude_mono {num den num' den' : Nat} (hden : 0 < den) (hden' : 0 < den')
    (h : num * den' ≤ num' * den) : nearestMagnitude num den ≤ nearestMagnitude num' den' := by
  have hunits : num * unitsPerOne * den' ≤ num' * unitsPerOne * den := by
    rw [Nat.mul_right_comm, Nat.mul_right_comm num']
    exact Nat.mul_le_mul_right _ h
  rw [nearestMagnitude_eq, nearestMagnitude_eq]
  generalize num * unitsPerOne = units at hunits ⊢
  generalize num' * unitsPerOne = units' at hunits ⊢
  have hbits : shiftFor units den * exponentWeight + roundedSignificand units den ≤
      shiftFor units' den' * exponentWeight + roundedSignificand units' den' := by
    rcases Nat.lt_or_eq_of_le (shiftFor_mono hden hden' hunits) with hlt | heq
    · -- the rounded significand does not reach the least one of the next shift by more than a carry
      have hupper := roundedSignificand_le units den
      have hlower := le_roundedSignificand (Nat.lt_of_le_of_lt (Nat.zero_le _) hlt)
      calc shiftFor units den * exponentWeight + roundedSignificand units den
          ≤ shiftFor units den * exponentWeight + 2 * exponentWeight := Nat.add_le_add_left hupper _
        _ = (shiftFor units den + 1) * exponentWeight + exponentWeight := by
          rw [Nat.add_mul]
          omega
        _ ≤ shiftFor units' den' * exponentWeight + roundedSignificand units' den' :=
          Nat.add_le_add (Nat.mul_le_mul_right _ hlt) hlower
    · rw [roundedSignificand, roundedSignificand, heq]
      apply Nat.add_le_add_left
      have hpow := pow_two_pos (shiftFor units' den')
      apply roundHalfEven_mono (Nat.mul_pos hden hpow) (Nat.mul_pos hden' hpow)
      rw [← Nat.mul_assoc, ← Nat.mul_assoc]
      exact Nat.mul_le_mul_right _ hunits
  exact Nat.le_min.mpr ⟨Nat.le_trans (Nat.min_le_left _ _) hbits, Nat.min_le_right _ _⟩

/-! ### Magnitudes and units -/

variable {x y : Binary64}

theorem infinityMagnitude_lt_signWeight : infinityMagnitude < signWeight := by
  decide

theorem nearestMagnitude_le (num den : Nat) : nearestMagnitude num den ≤ infinityMagnitude :=
  Nat.min_le_right _ _

theorem nearestMagnitude_lt_signWeight (num den : Nat) : nearestMagnitude num den < signWeight :=
  Nat.lt_of_le_of_lt (nearestMagnitude_le num den) infinityMagnitude_lt_signWeight

theorem magnitude_nearest (negative : Bool) (num den : Nat) :
    (nearest negative num den).magnitude = nearestMagnitude num den :=
  magnitude_ofMagnitude negative (nearestMagnitude_lt_signWeight num den)

theorem negative_nearest (negative : Bool) (num den : Nat) :
    (nearest negative num den).negative = negative :=
  negative_ofMagnitude negative (nearestMagnitude_lt_signWeight num den)

theorem isNaN_nearest (negative : Bool) (num den : Nat) :
    (nearest negative num den).isNaN = false := by
  rw [isNaN, magnitude_nearest]
  exact decide_eq_false (Nat.not_lt.mpr (nearestMagnitude_le num den))

/-- A number is the one nearest to its own units. -/
theorem nearestMagnitude_units (h : x.isNaN = false) :
    nearestMagnitude x.units unitsPerOne = x.magnitude :=
  nearestMagnitude_of_units h unitsPerOne_pos rfl

theorem magnitude_le_of_units_le (hx : x.isNaN = false) (hy : y.isNaN = false)
    (h : x.units ≤ y.units) : x.magnitude ≤ y.magnitude := by
  rw [← nearestMagnitude_units hx, ← nearestMagnitude_units hy]
  exact nearestMagnitude_mono unitsPerOne_pos unitsPerOne_pos (Nat.mul_le_mul_right _ h)

theorem units_le_of_magnitude_le (hx : x.isNaN = false) (hy : y.isNaN = false)
    (h : x.magnitude ≤ y.magnitude) : x.units ≤ y.units := by
  apply Nat.le_of_not_lt
  intro hlt
  have heq : x.magnitude = y.magnitude :=
    Nat.le_antisymm h (magnitude_le_of_units_le hy hx (Nat.le_of_lt hlt))
  rw [units_congr heq] at hlt
  exact Nat.lt_irrefl _ hlt

theorem units_nearest_le {num den num' den' : Nat} (negative negative' : Bool) (hden : 0 < den)
    (hden' : 0 < den') (h : num * den' ≤ num' * den) :
    (nearest negative num den).units ≤ (nearest negative' num' den').units := by
  apply units_le_of_magnitude_le (isNaN_nearest _ _ _) (isNaN_nearest _ _ _)
  rw [magnitude_nearest, magnitude_nearest]
  exact nearestMagnitude_mono hden hden' h

theorem nearestMagnitude_zero {den : Nat} (hden : 0 < den) : nearestMagnitude 0 den = 0 := by
  have hunits : (ofMagnitude false 0).units = 0 := by decide
  have hmagnitude : (ofMagnitude false 0).magnitude = 0 := by decide
  have hzero : nearestMagnitude 0 den = (ofMagnitude false 0).magnitude := by
    apply nearestMagnitude_of_units (by decide) hden
    rw [hunits, Nat.zero_mul, Nat.zero_mul]
  rw [hzero, hmagnitude]

theorem units_nearest_zero (negative : Bool) {den : Nat} (hden : 0 < den) :
    (nearest negative 0 den).units = 0 := by
  have hunits : (ofMagnitude false 0).units = 0 := by decide
  have hmagnitude : (nearest negative 0 den).magnitude = (ofMagnitude false 0).magnitude := by
    rw [magnitude_nearest, nearestMagnitude_zero hden]
    decide
  exact (units_congr hmagnitude).trans hunits

/-! ### Signed numbers -/

theorem withSign_false (m : Nat) : withSign false m = m :=
  rfl

theorem withSign_true (m : Nat) : withSign true m = -(m : Int) :=
  rfl

theorem scaled_nearest (negative : Bool) (num den : Nat) :
    (nearest negative num den).scaled =
      withSign negative (nearest negative num den).units := by
  rw [scaled, negative_nearest]

/-- A larger signed quotient is not rounded to a smaller number. -/
theorem scaled_nearest_le {negative negative' : Bool} {num den num' den' : Nat} (hden : 0 < den)
    (hden' : 0 < den')
    (h : withSign negative num * den' ≤ withSign negative' num' * den) :
    (nearest negative num den).scaled ≤ (nearest negative' num' den').scaled := by
  rw [← withSign_mul, ← withSign_mul] at h
  rw [scaled_nearest, scaled_nearest]
  cases negative with
  | false =>
      rw [withSign_false] at h ⊢
      cases negative' with
      | false =>
          rw [withSign_false] at h ⊢
          exact Int.ofNat_le.mpr (units_nearest_le _ _ hden hden' (Int.ofNat_le.mp h))
      | true =>
          -- only zero is at most a number with a minus
          rw [withSign_true] at h ⊢
          have hnum : num = 0 := by
            have hzero : num * den' = 0 := by omega
            exact (Nat.mul_eq_zero.mp hzero).resolve_right (Nat.ne_of_gt hden')
          have hnum' : num' = 0 := by
            have hzero : num' * den = 0 := by omega
            exact (Nat.mul_eq_zero.mp hzero).resolve_right (Nat.ne_of_gt hden)
          rw [hnum, hnum', units_nearest_zero _ hden, units_nearest_zero _ hden']
          exact Int.le_refl 0
  | true =>
      rw [withSign_true] at h ⊢
      cases negative' with
      | false =>
          rw [withSign_false]
          omega
      | true =>
          rw [withSign_true] at h ⊢
          have hswap : num' * den ≤ num * den' := Int.ofNat_le.mp (Int.neg_le_neg_iff.mp h)
          exact Int.neg_le_neg (Int.ofNat_le.mpr (units_nearest_le _ _ hden' hden hswap))

theorem scaled_nearest_units (h : x.isNaN = false) :
    (nearest x.negative x.units unitsPerOne).scaled = x.scaled := by
  rw [scaled_nearest, scaled]
  congr 1
  exact units_congr (by rw [magnitude_nearest, nearestMagnitude_units h])

theorem ofInt_eq_nearest (n : Int) : ofInt n = nearest (decide (n < 0)) n.natAbs 1 :=
  rfl

theorem isNaN_ofInt (n : Int) : (ofInt n).isNaN = false :=
  isNaN_nearest _ _ _

theorem scaled_ofInt_mono {m n : Int} (h : m ≤ n) : (ofInt m).scaled ≤ (ofInt n).scaled := by
  apply scaled_nearest_le Nat.one_pos Nat.one_pos
  rw [withSign_natAbs, withSign_natAbs]
  omega

/-- A floating-point number that is at most a whole number is at most the number nearest to it. -/
theorem scaled_le_ofInt {n : Int} (hx : x.isNaN = false) (h : x.scaled ≤ n * unitsPerOne) :
    x.scaled ≤ (ofInt n).scaled := by
  rw [← scaled_nearest_units hx]
  apply scaled_nearest_le unitsPerOne_pos Nat.one_pos
  rw [withSign_natAbs]
  rw [scaled] at h
  omega

theorem ofInt_le_scaled {n : Int} (hx : x.isNaN = false) (h : n * unitsPerOne ≤ x.scaled) :
    (ofInt n).scaled ≤ x.scaled := by
  rw [← scaled_nearest_units hx]
  apply scaled_nearest_le Nat.one_pos unitsPerOne_pos
  rw [withSign_natAbs]
  rw [scaled] at h
  omega

/-! ### Whole numbers stay whole -/

/-- The bits of an exponent and a significand that are added give the number of this significand, also
where the significand carries into the exponent. -/
theorem units_ofMagnitude (negative : Bool) {shift significand : Nat}
    (hupper : significand ≤ 2 * exponentWeight) (hlower : shift = 0 ∨ exponentWeight ≤ significand)
    (hrange : shift * exponentWeight + significand < signWeight) :
    (ofMagnitude negative (shift * exponentWeight + significand)).units =
      significand * Nat.pow 2 shift := by
  have hmagnitude := magnitude_ofMagnitude negative hrange
  have hweight : 0 < exponentWeight := pow_two_pos 52
  simp only [units, Binary64.significand, Binary64.shift, exponentField, fraction, hmagnitude]
  rcases Nat.lt_or_ge significand exponentWeight with hsmall | hnormal
  · obtain rfl : shift = 0 := by omega
    rw [Nat.zero_mul, Nat.zero_add, Nat.div_eq_of_lt hsmall, Nat.mod_eq_of_lt hsmall, if_pos rfl]
  · obtain ⟨above, rfl⟩ := Nat.exists_eq_add_of_le hnormal
    have hshifted : shift * exponentWeight + (exponentWeight + above) =
        above + (shift + 1) * exponentWeight := by
      rw [Nat.add_mul]
      omega
    rw [hshifted, Nat.add_mul_div_right _ _ hweight, Nat.add_mul_mod_self_right]
    rcases Nat.lt_or_ge above exponentWeight with hfits | hcarry
    · rw [Nat.div_eq_of_lt hfits, Nat.mod_eq_of_lt hfits, if_neg (by omega), Nat.zero_add,
        Nat.add_sub_cancel]
    · obtain rfl : above = exponentWeight := by omega
      rw [Nat.div_self hweight, Nat.mod_self, if_neg (by omega), Nat.add_zero, ← Nat.mul_two,
        Nat.mul_assoc, Nat.add_comm 1, Nat.add_sub_cancel, Nat.mul_comm 2]
      exact congrArg _ (Nat.pow_succ 2 shift)

/-- The units of the number nearest to a quotient, where it is not beyond the finite numbers. -/
theorem units_nearest (negative : Bool) (num den : Nat)
    (hrange : shiftFor (num * unitsPerOne) den * exponentWeight +
      roundedSignificand (num * unitsPerOne) den ≤ infinityMagnitude) :
    (nearest negative num den).units =
      roundedSignificand (num * unitsPerOne) den *
        Nat.pow 2 (shiftFor (num * unitsPerOne) den) := by
  rw [nearest, nearestMagnitude_eq, Nat.min_eq_left hrange]
  apply units_ofMagnitude negative (roundedSignificand_le _ _)
  · rcases Nat.eq_zero_or_pos (shiftFor (num * unitsPerOne) den) with hzero | hpos
    · exact Or.inl hzero
    · exact Or.inr (le_roundedSignificand hpos)
  · exact Nat.lt_of_le_of_lt hrange infinityMagnitude_lt_signWeight

theorem shift_of_isInfinite (h : x.isInfinite = true) : x.shift = 2046 := by
  rw [shift, exponentField, beq_iff_eq.mp h]
  rfl

theorem units_of_isInfinite (h : x.isInfinite = true) : x.units = Nat.pow 2 (52 + x.shift) := by
  have hsignificand : x.significand = exponentWeight := by
    rw [significand, exponentField, fraction, beq_iff_eq.mp h]
    rfl
  rw [units, hsignificand, exponentWeight_mul_pow]

theorem pow_two_dvd_unitsPerOne {k : Nat} (h : k ≤ 1074) : Nat.pow 2 k ∣ unitsPerOne := by
  unfold unitsPerOne
  generalize 1074 = places at h ⊢
  exact Nat.pow_dvd_pow 2 h

theorem unitsPerOne_dvd_pow_two {k : Nat} (h : 1074 ≤ k) : unitsPerOne ∣ Nat.pow 2 k := by
  unfold unitsPerOne
  generalize 1074 = places at h ⊢
  exact Nat.pow_dvd_pow 2 h

theorem pow_two_mul_unitsPerOne_le {j k : Nat} (h : j + 1074 ≤ k) :
    Nat.pow 2 j * unitsPerOne ≤ Nat.pow 2 k := by
  unfold unitsPerOne
  generalize 1074 = places at h ⊢
  rw [← pow_two_add]
  exact Nat.pow_le_pow_right Nat.two_pos h

/-- A whole number that leaves no bit of its significand behind the point is not rounded. -/
theorem units_nearest_of_shiftFor_le (negative : Bool) {num : Nat}
    (h : shiftFor (num * unitsPerOne) 1 ≤ 1074) :
    (nearest negative num 1).units = num * unitsPerOne := by
  have hrange : shiftFor (num * unitsPerOne) 1 * exponentWeight +
      roundedSignificand (num * unitsPerOne) 1 ≤ infinityMagnitude :=
    calc shiftFor (num * unitsPerOne) 1 * exponentWeight + roundedSignificand (num * unitsPerOne) 1
        ≤ 1074 * exponentWeight + 2 * exponentWeight :=
          Nat.add_le_add (Nat.mul_le_mul_right _ h) (roundedSignificand_le _ _)
      _ ≤ infinityMagnitude := by decide
  rw [units_nearest negative num 1 hrange, roundedSignificand, Nat.one_mul]
  generalize shiftFor (num * unitsPerOne) 1 = shift at h
  obtain ⟨k, hk⟩ : Nat.pow 2 shift ∣ num * unitsPerOne :=
    Nat.dvd_mul_left_of_dvd (pow_two_dvd_unitsPerOne h) _
  rw [Nat.mul_comm (Nat.pow 2 shift)] at hk
  rw [hk, roundHalfEven_mul (pow_two_pos shift)]

/-- The number nearest to a whole number is whole: either it is a multiple of a power of two that is
itself whole, or the whole number needs no rounding. -/
theorem unitsPerOne_dvd_units_ofInt (n : Int) : unitsPerOne ∣ (ofInt n).units := by
  rw [ofInt_eq_nearest]
  generalize n.natAbs = num
  generalize decide (n < 0) = negative
  rcases Nat.le_total (shiftFor (num * unitsPerOne) 1) 1074 with hsmall | hlarge
  · rw [units_nearest_of_shiftFor_le negative hsmall]
    exact Nat.dvd_mul_left _ _
  · by_cases hrange : shiftFor (num * unitsPerOne) 1 * exponentWeight +
        roundedSignificand (num * unitsPerOne) 1 ≤ infinityMagnitude
    · rw [units_nearest negative num 1 hrange]
      exact Nat.dvd_mul_left_of_dvd (unitsPerOne_dvd_pow_two hlarge) _
    · have hinfinite : (nearest negative num 1).isInfinite = true := by
        rw [isInfinite, magnitude_nearest, nearestMagnitude_eq, beq_iff_eq]
        exact Nat.min_eq_right (Nat.le_of_not_le hrange)
      have hshift := shift_of_isInfinite hinfinite
      rw [units_of_isInfinite hinfinite]
      exact unitsPerOne_dvd_pow_two (by omega)

theorem shiftFor_le_of_lt {num : Nat} (h : num < Nat.pow 2 53) :
    shiftFor (num * unitsPerOne) 1 ≤ 1074 := by
  have hbits : num * unitsPerOne < Nat.pow 2 53 * unitsPerOne :=
    Nat.mul_lt_mul_of_pos_right h unitsPerOne_pos
  unfold shiftFor
  unfold unitsPerOne at hbits ⊢
  generalize 1074 = places at hbits ⊢
  rw [← pow_two_add] at hbits
  rw [Nat.div_one]
  generalize num * Nat.pow 2 places = units at hbits ⊢
  rcases Nat.eq_zero_or_pos units with hzero | hpos
  · rw [hzero, Nat.log2_zero]
    omega
  · have hlog := (Nat.log2_lt (Nat.ne_of_gt hpos)).mpr hbits
    omega

/-- A whole number of at most 53 bits is not rounded. -/
theorem scaled_ofInt_of_lt {n : Int} (h : n.natAbs < Nat.pow 2 53) :
    (ofInt n).scaled = n * unitsPerOne := by
  rw [ofInt_eq_nearest, scaled_nearest, units_nearest_of_shiftFor_le _ (shiftFor_le_of_lt h),
    withSign_mul, withSign_natAbs]

/-- No 64-bit integer is rounded to infinity. -/
theorem isInfinite_ofInt (n : Int64) : (ofInt n.toInt).isInfinite = false := by
  have hbound : n.toInt.natAbs ≤ Nat.pow 2 63 := by
    have hlow := n.le_toInt
    have hhigh := n.toInt_lt
    have hpow : Nat.pow 2 63 = 9223372036854775808 := rfl
    omega
  have hmagnitude : nearestMagnitude n.toInt.natAbs 1 ≤ nearestMagnitude (Nat.pow 2 63) 1 :=
    nearestMagnitude_mono Nat.one_pos Nat.one_pos (Nat.mul_le_mul_right 1 hbound)
  have hfinite : nearestMagnitude (Nat.pow 2 63) 1 < infinityMagnitude := by decide +kernel
  rw [isInfinite, ofInt_eq_nearest, magnitude_nearest, beq_eq_false_iff_ne]
  omega

theorem scaled_eq_truncated_mul (h : unitsPerOne ∣ x.units) :
    x.scaled = x.truncated * unitsPerOne := by
  rw [scaled, truncated, ← withSign_mul, wholePart, Nat.div_mul_cancel h]

end Binary64

end RecordRules.Number
