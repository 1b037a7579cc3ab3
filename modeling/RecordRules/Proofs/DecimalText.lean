import Mathlib.Algebra.Order.Field.Basic
import Mathlib.Algebra.Order.Field.Rat
import RecordRules.Proofs.SpelledNumber

/-! Decimal notation and the rational numbers that it denotes. The grammar is given apart from the
reader: a sign, digits with a point on some side of them, and a power of ten, of which only the digits
must be there. The reader takes just what the grammar has, and the numeral that it reads is what the
grammar says is denoted. The number of 64 bits that is spelled is nearest to that, so it is on no other
side of a rounded whole number than the rational number is of the whole number. -/

namespace RecordRules.Number

open RuleText Binary64

/-! ### The rational number of a numeral -/

namespace Numeral

/-- What a numeral denotes. -/
def toRat (n : Numeral) : Rat :=
  withSign n.negative n.coefficient * 10 ^ n.exponent

theorem toRat_eq (n : Numeral) :
    n.toRat = (withSign n.negative n.numerator : Int) / (n.denominator : Rat) := by
  have hexponent : (10 : Rat) ^ n.exponent =
      10 ^ (n.exponent.toNat : Int) / 10 ^ ((-n.exponent).toNat : Int) := by
    rw [← zpow_sub₀ (by decide), Int.toNat_sub_toNat_neg]
  rw [toRat, hexponent, numerator, denominator, withSign_mul]
  simp only [Nat.pow_eq, Nat.cast_pow, Nat.cast_ofNat, Int.cast_mul, Int.cast_pow, Int.cast_ofNat,
    zpow_natCast, mul_div_assoc]

variable {n : Numeral} {m : Int}

/-- A numeral that denotes at most a whole number is not rounded above it. -/
theorem scaled_le_of_toRat_le (h : n.toRat ≤ m) : n.toBinary64.scaled ≤ (ofInt m).scaled := by
  have hpos : (0 : Rat) < n.denominator := Nat.cast_pos.mpr n.denominator_pos
  rw [toRat_eq, div_le_iff₀ hpos] at h
  exact scaled_toBinary64_le (by exact_mod_cast h)

theorem le_scaled_of_le_toRat (h : m ≤ n.toRat) : (ofInt m).scaled ≤ n.toBinary64.scaled := by
  have hpos : (0 : Rat) < n.denominator := Nat.cast_pos.mpr n.denominator_pos
  rw [toRat_eq, le_div_iff₀ hpos] at h
  exact le_scaled_toBinary64 (by exact_mod_cast h)

/-- Only numbers that are in strict order themselves are in strict order once they are rounded. -/
theorem toRat_lt_of_scaled_lt (h : n.toBinary64.scaled < (ofInt m).scaled) : n.toRat < m := by
  apply lt_of_not_ge
  intro hle
  exact absurd (le_scaled_of_le_toRat hle) (not_le_of_gt h)

theorem lt_toRat_of_scaled_lt (h : (ofInt m).scaled < n.toBinary64.scaled) : m < n.toRat := by
  apply lt_of_not_ge
  intro hle
  exact absurd (scaled_le_of_toRat_le hle) (not_le_of_gt h)

end Numeral

/-! ### The grammar -/

/-- An optional sign; the flag says that it is a minus. -/
inductive SignText : List Char → Bool → Prop where
  | absent : SignText [] false
  | plus : SignText ['+'] false
  | minus : SignText ['-'] true

/-- An optional point and the digits after it. -/
inductive FractionText : List Char → List Char → Prop where
  | absent : FractionText [] []
  | pointed {digits : List Char} (h : ∀ c ∈ digits, c.isDigit = true) :
      FractionText ('.' :: digits) digits

/-- An optional power of ten, as its exponent with a mark in front. -/
inductive ExponentText : List Char → Int → Prop where
  | absent : ExponentText [] 0
  | marked {mark : Char} {sign digits : List Char} {negative : Bool}
      (hmark : mark = 'e' ∨ mark = 'E') (hsign : SignText sign negative)
      (hdigits : IsRun Char.isDigit digits) :
      ExponentText (mark :: (sign ++ digits)) (withSign negative (digitsValue digits))

/-- What digits before and after a point denote. -/
def positionalValue (whole fraction : List Char) : Rat :=
  digitsValue whole + digitsValue fraction / 10 ^ (fraction.length : Int)

/-- Decimal notation and the rational number that it denotes. There is a digit before or after the
point. -/
inductive DecimalText : List Char → Rat → Prop where
  | mk {sign whole point fraction exponent : List Char} {negative : Bool} {power : Int}
      (hsign : SignText sign negative) (hwhole : ∀ c ∈ whole, c.isDigit = true)
      (hfraction : FractionText point fraction) (hdigit : whole ≠ [] ∨ fraction ≠ [])
      (hexponent : ExponentText exponent power) :
      DecimalText (sign ++ (whole ++ (point ++ exponent)))
        ((if negative then -positionalValue whole fraction else positionalValue whole fraction) *
          10 ^ power)

theorem digitsValue_append (whole fraction : List Char) :
    digitsValue (whole ++ fraction) =
      digitsValue whole * Nat.pow 10 fraction.length + digitsValue fraction := by
  rw [digitsValue, Nat.ofDigitChars_append, Nat.ofDigitChars_eq_ofDigitChars_zero, Nat.mul_comm]
  rfl

/-- The digits on both sides of a point, read as one number, count units of the last place. -/
theorem positionalValue_eq (whole fraction : List Char) :
    positionalValue whole fraction =
      digitsValue (whole ++ fraction) / 10 ^ (fraction.length : Int) := by
  have hpower : (10 : Rat) ^ (fraction.length : Int) ≠ 0 := zpow_ne_zero _ (by decide)
  rw [digitsValue_append, Nat.cast_add, Nat.cast_mul, Nat.pow_eq, Nat.cast_pow, Nat.cast_ofNat,
    ← zpow_natCast, add_div, mul_div_cancel_right₀ _ hpower, positionalValue]

/-- The numeral that is made of the parts of decimal notation denotes what the notation denotes. -/
theorem Numeral.toRat_ofParts (negative : Bool) (whole fraction : List Char) (power : Int) :
    (ofParts negative whole fraction power).toRat =
      (if negative then -positionalValue whole fraction else positionalValue whole fraction) *
        10 ^ power := by
  have hsigned : (if negative then -positionalValue whole fraction else positionalValue whole fraction) =
      (withSign negative (digitsValue (whole ++ fraction)) : Int) / 10 ^ (fraction.length : Int) := by
    rw [positionalValue_eq]
    cases negative with
    | false =>
        rw [withSign_false, Int.cast_natCast]
        rfl
    | true =>
        rw [withSign_true, Int.cast_neg, Int.cast_natCast, neg_div]
        rfl
  rw [hsigned, toRat, ofParts, zpow_sub₀ (by decide), mul_div_assoc', div_mul_eq_mul_div]

/-! ### The reader of each part -/

theorem SignText.splitSign_append {sign rest : List Char} {negative : Bool}
    (h : SignText sign negative) (hrest : StartsOutside isSignChar rest) :
    splitSign (sign ++ rest) = (negative, rest) := by
  cases h with
  | absent => exact splitSign_of_startsOutside hrest
  | plus => rfl
  | minus => rfl

theorem exists_signText (chars : List Char) :
    ∃ sign, SignText sign (splitSign chars).1 ∧ chars = sign ++ (splitSign chars).2 := by
  unfold splitSign
  split
  · exact ⟨_, .minus, rfl⟩
  · exact ⟨_, .plus, rfl⟩
  · exact ⟨_, .absent, rfl⟩

theorem wholeNumber?_eq_some_iff {chars : List Char} {n : Int} :
    wholeNumber? chars = some n ↔
      ∃ sign negative digits, chars = sign ++ digits ∧ SignText sign negative ∧
        IsRun Char.isDigit digits ∧ n = withSign negative (digitsValue digits) := by
  have hread : wholeNumber? chars =
      if isDigitRun (splitSign chars).2 then
        some (withSign (splitSign chars).1 (digitsValue (splitSign chars).2)) else none := rfl
  rw [hread]
  constructor
  · intro h
    split at h
    case isFalse => cases h
    case isTrue hdigits =>
      obtain ⟨sign, hsign, hchars⟩ := exists_signText chars
      exact ⟨sign, _, _, hchars, hsign, (isDigitRun_iff _).mp hdigits, (Option.some_inj.mp h).symm⟩
  · rintro ⟨sign, negative, digits, rfl, hsign, hdigits, rfl⟩
    rw [hsign.splitSign_append (startsOutside_sign_digits hdigits)]
    exact if_pos ((isDigitRun_iff digits).mpr hdigits)

theorem exponent?_eq_some_iff {chars : List Char} {power : Int} :
    exponent? chars = some power ↔ ExponentText chars power := by
  constructor
  · intro h
    cases chars with
    | nil =>
        obtain rfl := Option.some_inj.mp h
        exact .absent
    | cons mark rest =>
        rw [exponent?] at h
        split at h
        case isFalse => cases h
        case isTrue hmark =>
          obtain ⟨sign, negative, digits, rfl, hsign, hdigits, rfl⟩ := wholeNumber?_eq_some_iff.mp h
          exact .marked hmark hsign hdigits
  · intro h
    cases h with
    | absent => rfl
    | marked hmark hsign hdigits =>
        rw [exponent?, if_pos hmark]
        exact wholeNumber?_eq_some_iff.mpr ⟨_, _, _, rfl, hsign, hdigits, rfl⟩

/-- An exponent starts with no digit and no point, so it ends what stands before it. -/
theorem ExponentText.head? {exponent : List Char} {power : Int} (h : ExponentText exponent power) {c : Char}
    (hc : exponent.head? = some c) : c.isDigit = false ∧ c ≠ '.' := by
  cases h with
  | absent => cases hc
  | marked hmark _ _ =>
      obtain rfl := Option.some_inj.mp hc
      rcases hmark with rfl | rfl <;> decide

theorem FractionText.splitFraction_append {point fraction exponent : List Char} {power : Int}
    (h : FractionText point fraction) (hexponent : ExponentText exponent power) :
    splitFraction (point ++ exponent) = (fraction, exponent) := by
  have hdigit : StartsOutside Char.isDigit exponent :=
    startsOutside_iff.mpr fun c hc => (hexponent.head? hc).1
  cases h with
  | absent =>
      rw [List.nil_append, splitFraction]
      rintro rest rfl
      exact (hexponent.head? rfl).2 rfl
  | pointed hdigits =>
      rw [List.cons_append, splitFraction, spanDigits, takeWhile_of_all hdigits hdigit,
        dropWhile_of_all hdigits hdigit]

theorem exists_fractionText (chars : List Char) :
    ∃ point, FractionText point (splitFraction chars).1 ∧ chars = point ++ (splitFraction chars).2 := by
  unfold splitFraction
  split
  · refine ⟨_, .pointed kind_of_mem_takeWhile, ?_⟩
    rw [List.cons_append, spanDigits, List.takeWhile_append_dropWhile]
  · exact ⟨_, .absent, rfl⟩

/-- What is read as unsigned decimal notation, from its parts. -/
theorem decimalNotation?_eq_some_iff {negative : Bool} {chars : List Char} {n : Numeral} :
    decimalNotation? negative chars = some n ↔
      ∃ whole point fraction exponent power, chars = whole ++ (point ++ exponent) ∧
        (∀ c ∈ whole, c.isDigit = true) ∧ FractionText point fraction ∧
        (whole ≠ [] ∨ fraction ≠ []) ∧ ExponentText exponent power ∧
        n = .ofParts negative whole fraction power := by
  have hread : decimalNotation? negative chars =
      if (chars.takeWhile Char.isDigit).isEmpty &&
          (splitFraction (chars.dropWhile Char.isDigit)).1.isEmpty then none
      else (exponent? (splitFraction (chars.dropWhile Char.isDigit)).2).map
        (.ofParts negative (chars.takeWhile Char.isDigit)
          (splitFraction (chars.dropWhile Char.isDigit)).1) := rfl
  rw [hread]
  constructor
  · intro h
    split at h
    case isTrue => cases h
    case isFalse hdigit =>
      obtain ⟨power, hexponent, rfl⟩ := Option.map_eq_some_iff.mp h
      obtain ⟨point, hfraction, hafter⟩ := exists_fractionText (chars.dropWhile Char.isDigit)
      refine ⟨_, point, _, _, power, ?_, kind_of_mem_takeWhile, hfraction, ?_,
        exponent?_eq_some_iff.mp hexponent, rfl⟩
      · rw [← hafter, List.takeWhile_append_dropWhile]
      · rw [Bool.and_eq_true, List.isEmpty_iff, List.isEmpty_iff, not_and_or] at hdigit
        exact hdigit
  · rintro ⟨whole, point, fraction, exponent, power, rfl, hwhole, hfraction, hdigit, hexponent, rfl⟩
    have hafter : StartsOutside Char.isDigit (point ++ exponent) := by
      cases hfraction with
      | absent => exact startsOutside_iff.mpr fun c hc => (hexponent.head? hc).1
      | pointed _ => exact startsOutside_cons rfl
    rw [takeWhile_of_all hwhole hafter, dropWhile_of_all hwhole hafter,
      hfraction.splitFraction_append hexponent, exponent?_eq_some_iff.mpr hexponent, if_neg]
    · rfl
    · rw [Bool.and_eq_true, List.isEmpty_iff, List.isEmpty_iff, not_and_or]
      exact hdigit

/-- Digits and a point are no signs, so the sign ends where they start. -/
theorem startsOutside_sign_unsigned {whole point fraction : List Char} (exponent : List Char)
    (hwhole : ∀ c ∈ whole, c.isDigit = true) (hfraction : FractionText point fraction)
    (hdigit : whole ≠ [] ∨ fraction ≠ []) :
    StartsOutside isSignChar (whole ++ (point ++ exponent)) := by
  cases whole with
  | cons c rest =>
      have hc := (isDigit_iff c).mp (hwhole c List.mem_cons_self)
      exact startsOutside_cons (isSignChar_eq_false hc.1)
  | nil =>
      cases hfraction with
      | absent => exact absurd rfl (hdigit.resolve_left fun h => h rfl)
      | pointed _ => exact startsOutside_cons rfl

/-- The reader takes just the texts of the grammar, and what it reads denotes what the grammar says. -/
theorem decimalText_iff {chars : List Char} {q : Rat} :
    DecimalText chars q ↔
      ∃ n, decimalNotation? (splitSign chars).1 (splitSign chars).2 = some n ∧ n.toRat = q := by
  constructor
  · rintro ⟨hsign, hwhole, hfraction, hdigit, hexponent⟩
    rw [hsign.splitSign_append (startsOutside_sign_unsigned _ hwhole hfraction hdigit)]
    exact ⟨_, decimalNotation?_eq_some_iff.mpr
      ⟨_, _, _, _, _, rfl, hwhole, hfraction, hdigit, hexponent, rfl⟩, Numeral.toRat_ofParts _ _ _ _⟩
  · rintro ⟨n, hread, rfl⟩
    obtain ⟨sign, hsign, hchars⟩ := exists_signText chars
    generalize splitSign chars = parts at hread hsign hchars
    obtain ⟨whole, point, fraction, exponent, power, hunsigned, hwhole, hfraction, hdigit, hexponent,
      rfl⟩ := decimalNotation?_eq_some_iff.mp hread
    rw [hchars, hunsigned, Numeral.toRat_ofParts]
    exact .mk hsign hwhole hfraction hdigit hexponent

/-- A text of the grammar denotes one number. -/
theorem DecimalText.unique {chars : List Char} {q r : Rat} (hq : DecimalText chars q)
    (hr : DecimalText chars r) : q = r := by
  obtain ⟨n, hread, rfl⟩ := decimalText_iff.mp hq
  obtain ⟨other, hother, rfl⟩ := decimalText_iff.mp hr
  rw [Option.some_inj.mp (hread.symm.trans hother)]

/-- Decimal notation spells the number of 64 bits that is nearest to what it denotes. -/
theorem DecimalText.binary64? {chars : List Char} {q : Rat} (h : DecimalText chars q) :
    ∃ n : Numeral, Number.binary64? chars = some n.toBinary64 ∧ n.toRat = q := by
  obtain ⟨n, hread, hdenotes⟩ := decimalText_iff.mp h
  refine ⟨n, ?_, hdenotes⟩
  rw [Number.binary64?]
  simp only [hread]

end RecordRules.Number
