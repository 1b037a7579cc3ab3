import RecordRules.Number.Nearest

/-! 64-bit floating-point numbers and what they denote. The bits below the sign are given back by the
units that they count, as the number nearest to a quotient that is a floating-point number itself is
just this number. So numbers that denote the same differ in the sign of zero at most, and a whole
number that is a floating-point number is not rounded. -/

namespace RecordRules.Number

theorem natAbs_withSign (negative : Bool) (magnitude : Nat) :
    (withSign negative magnitude).natAbs = magnitude := by
  cases negative <;> simp [withSign]

theorem withSign_natAbs (n : Int) : withSign (decide (n < 0)) n.natAbs = n := by
  unfold withSign
  by_cases h : n < 0
  · rw [if_pos (decide_eq_true h)]
    omega
  · rw [if_neg (by simpa using h)]
    omega

theorem withSign_mul (negative : Bool) (m k : Nat) :
    withSign negative (m * k) = withSign negative m * k := by
  cases negative with
  | false => exact Int.natCast_mul m k
  | true =>
      show -((m * k : Nat) : Int) = -(m : Int) * k
      rw [Int.natCast_mul, Int.neg_mul]

/-- An exact quotient is not rounded. -/
theorem roundHalfEven_mul {den : Nat} (hden : 0 < den) (k : Nat) :
    roundHalfEven (k * den) den = k := by
  simp only [roundHalfEven, Nat.mul_mod_left, Nat.mul_div_cancel k hden]
  rw [if_pos (Or.inl (by omega))]

theorem pow_two_pos (k : Nat) : 0 < Nat.pow 2 k :=
  Nat.two_pow_pos k

namespace Binary64

/-- What a number denotes, in units of `2 ^ -1074`; what is not a number denotes nothing. -/
def denoted? (x : Binary64) : Option Int :=
  if x.isNaN then none else some x.scaled

theorem compare?_eq (x y : Binary64) :
    x.compare? y = x.denoted?.bind fun a => y.denoted?.map (compare a) := by
  unfold compare? denoted?
  cases x.isNaN <;> cases y.isNaN <;> rfl

theorem compareInt?_eq (x : Binary64) (n : Int) :
    x.compareInt? n = x.denoted?.map fun a => compare a (n * unitsPerOne) := by
  unfold compareInt? denoted?
  cases x.isNaN <;> rfl

theorem denoted?_eq_some_iff (x : Binary64) (a : Int) :
    x.denoted? = some a ↔ x.isNaN = false ∧ x.scaled = a := by
  unfold denoted?
  cases x.isNaN <;> simp

theorem denoted?_eq_none_iff (x : Binary64) : x.denoted? = none ↔ x.isNaN = true := by
  unfold denoted?
  cases x.isNaN <;> simp

theorem unitsPerOne_pos : 0 < unitsPerOne := by
  unfold unitsPerOne
  generalize 1074 = places
  exact pow_two_pos places

/-! ### Bits and units -/

variable {x y : Binary64}

theorem ofMagnitude_bits (negative : Bool) {m : Nat} (h : m < signWeight) :
    (ofMagnitude negative m).bits.toNat = if negative then signWeight + m else m := by
  have hweight : signWeight = 9223372036854775808 := rfl
  cases negative with
  | false => exact UInt64.toNat_ofNat_of_lt' (by simp [UInt64.size]; omega)
  | true => exact UInt64.toNat_ofNat_of_lt' (by simp [UInt64.size]; omega)

theorem magnitude_ofMagnitude (negative : Bool) {m : Nat} (h : m < signWeight) :
    (ofMagnitude negative m).magnitude = m := by
  rw [magnitude, ofMagnitude_bits negative h]
  cases negative with
  | false => exact Nat.mod_eq_of_lt h
  | true => rw [if_pos rfl, Nat.add_mod_left, Nat.mod_eq_of_lt h]

theorem negative_ofMagnitude (negative : Bool) {m : Nat} (h : m < signWeight) :
    (ofMagnitude negative m).negative = negative := by
  rw [Binary64.negative, ofMagnitude_bits negative h]
  cases negative with
  | false => simpa using h
  | true => simp

theorem magnitude_lt_signWeight (x : Binary64) : x.magnitude < signWeight :=
  Nat.mod_lt _ (pow_two_pos 63)

theorem magnitude_eq (x : Binary64) :
    x.magnitude = x.exponentField * exponentWeight + x.fraction :=
  (Nat.div_add_mod' x.magnitude exponentWeight).symm

theorem fraction_lt (x : Binary64) : x.fraction < exponentWeight :=
  Nat.mod_lt _ (pow_two_pos 52)

theorem units_congr (h : x.magnitude = y.magnitude) : x.units = y.units := by
  unfold units significand shift exponentField fraction
  rw [h]

/-- The significand is put behind the exponent without its hidden bit, which counts for one more. -/
theorem shift_add_significand (x : Binary64) :
    x.shift * exponentWeight + x.significand = x.magnitude := by
  rw [magnitude_eq, shift, significand]
  cases x.exponentField with
  | zero => simp
  | succ e =>
    rw [if_neg (Nat.succ_ne_zero e), Nat.add_sub_cancel, Nat.succ_mul, Nat.add_assoc]

theorem significand_lt (x : Binary64) : x.significand < 2 * exponentWeight := by
  have hfraction := x.fraction_lt
  unfold significand
  split <;> omega

/-- Where there is a shift, the significand has its hidden bit. -/
theorem exponentWeight_le_significand (h : 0 < x.shift) : exponentWeight ≤ x.significand := by
  have hfield : x.exponentField ≠ 0 := by
    unfold shift at h
    omega
  rw [significand, if_neg hfield]
  exact Nat.le_add_right _ _

theorem exponentWeight_mul_pow (k : Nat) : exponentWeight * Nat.pow 2 k = Nat.pow 2 (52 + k) :=
  (Nat.pow_add 2 52 k).symm

/-- The place of the highest unit bit gives the shift. -/
theorem log2_units (x : Binary64) : x.units.log2 - 52 = x.shift := by
  have hupper : x.units < Nat.pow 2 (52 + x.shift + 1) := by
    calc x.units < 2 * exponentWeight * Nat.pow 2 x.shift :=
          Nat.mul_lt_mul_of_pos_right x.significand_lt (pow_two_pos _)
      _ = 2 * Nat.pow 2 (52 + x.shift) := by rw [Nat.mul_assoc, exponentWeight_mul_pow]
      _ = Nat.pow 2 (52 + x.shift + 1) := Nat.pow_succ'.symm
  by_cases hshift : 0 < x.shift
  · have hlower : Nat.pow 2 (52 + x.shift) ≤ x.units := by
      rw [← exponentWeight_mul_pow]
      exact Nat.mul_le_mul_right _ (exponentWeight_le_significand hshift)
    have hne : x.units ≠ 0 := by
      have := pow_two_pos (52 + x.shift)
      omega
    have hlog : x.units.log2 = 52 + x.shift := (Nat.log2_eq_iff hne).mpr ⟨hlower, hupper⟩
    omega
  · by_cases hzero : x.units = 0
    · rw [hzero, Nat.log2_zero]
      omega
    · have hlog : x.units.log2 < 52 + x.shift + 1 := (Nat.log2_lt hzero).mpr hupper
      omega

/-! ### Rounding what needs none -/

/-- The number nearest to a quotient that a floating-point number denotes has the bits of that
number. -/
theorem nearestMagnitude_of_units (hnumber : x.isNaN = false) {num den : Nat} (hden : 0 < den)
    (h : num * unitsPerOne = x.units * den) : nearestMagnitude num den = x.magnitude := by
  have hquotient : num * unitsPerOne = x.significand * (den * Nat.pow 2 x.shift) := by
    rw [h, units, Nat.mul_assoc, Nat.mul_comm (Nat.pow 2 x.shift)]
  have hshift : shiftFor (num * unitsPerOne) den = x.shift := by
    rw [shiftFor, h, Nat.mul_div_cancel _ hden, log2_units]
  have hround : roundHalfEven (num * unitsPerOne) (den * Nat.pow 2 x.shift) = x.significand := by
    rw [hquotient, roundHalfEven_mul (Nat.mul_pos hden (pow_two_pos _))]
  have hrange : x.magnitude ≤ infinityMagnitude := by simpa [isNaN] using hnumber
  simp only [nearestMagnitude, hshift, hround, shift_add_significand]
  exact Nat.min_eq_left hrange

/-- Numbers of the same units have the same bits below the sign. -/
theorem magnitude_eq_of_units_eq (hx : x.isNaN = false) (hy : y.isNaN = false)
    (h : x.units = y.units) : x.magnitude = y.magnitude := by
  rw [← nearestMagnitude_of_units hx unitsPerOne_pos rfl,
    ← nearestMagnitude_of_units hy unitsPerOne_pos rfl, h]

theorem natAbs_scaled (x : Binary64) : x.scaled.natAbs = x.units :=
  natAbs_withSign x.negative x.units

theorem magnitude_eq_of_denoted?_eq (h : x.denoted? = y.denoted?) (hx : x.isNaN = false) :
    x.magnitude = y.magnitude := by
  have hdenoted := h.symm.trans ((denoted?_eq_some_iff x x.scaled).mpr ⟨hx, rfl⟩)
  obtain ⟨hy, hscaled⟩ := (denoted?_eq_some_iff y x.scaled).mp hdenoted
  apply magnitude_eq_of_units_eq hx hy
  rw [← natAbs_scaled, ← natAbs_scaled, hscaled]

/-- A whole number that a floating-point number denotes is taken as it is. -/
theorem denoted?_ofInt {n : Int} (h : x.denoted? = some (n * unitsPerOne)) :
    (ofInt n).denoted? = some (n * unitsPerOne) := by
  obtain ⟨hnumber, hscaled⟩ := (denoted?_eq_some_iff x _).mp h
  have hunits : n.natAbs * unitsPerOne = x.units := by
    rw [← natAbs_scaled, hscaled, Int.natAbs_mul, Int.natAbs_natCast]
  have hnearest : nearestMagnitude n.natAbs 1 = x.magnitude :=
    nearestMagnitude_of_units hnumber Nat.one_pos (by rw [hunits, Nat.mul_one])
  have hofInt : ofInt n = ofMagnitude (decide (n < 0)) x.magnitude := by
    rw [ofInt, nearest, hnearest]
  have hmagnitude : (ofInt n).magnitude = x.magnitude := by
    rw [hofInt, magnitude_ofMagnitude _ x.magnitude_lt_signWeight]
  rw [denoted?_eq_some_iff]
  constructor
  · rw [isNaN, hmagnitude]
    exact hnumber
  · rw [scaled, units_congr hmagnitude, ← hunits, hofInt,
      negative_ofMagnitude _ x.magnitude_lt_signWeight, withSign_mul, withSign_natAbs]

end Binary64

end RecordRules.Number
