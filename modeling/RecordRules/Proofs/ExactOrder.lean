import RecordRules.Evaluation.Judgement
import RecordRules.Proofs.LiteralText
import RecordRules.Proofs.Rounding

/-! The order of numbers of one kind. A floating-point number stands to an integer as it stands to the
number nearest to the integer, unless these are the same, and then it is whole. Digit runs without
leading zeros stand to each other as the numbers they denote, since the longer one is larger, and the
first different digit decides between two of one length. So the order of a number of a record and a
whole number of a rule is that of what they denote, whatever way it is found. -/

namespace RecordRules

open Number RuleText

theorem compare_mul_right {k : Int} (hk : 0 < k) (n m : Int) :
    compare (n * k) (m * k) = compare n m := by
  simp only [compare, compareOfLessAndEq, Int.mul_lt_mul_right hk,
    Int.mul_eq_mul_right_iff (Int.ne_of_gt hk)]

theorem compare_natCast (m n : Nat) : compare (m : Int) (n : Int) = compare m n := by
  simp only [compare, compareOfLessAndEq, Int.ofNat_lt, Int.ofNat_inj]

namespace Number.Binary64

theorem unitsPerOne_int_pos : (0 : Int) < unitsPerOne :=
  Int.natCast_pos.mpr unitsPerOne_pos

theorem compareInt?_of_not_isNaN {x : Binary64} (h : x.isNaN = false) (n : Int) :
    x.compareInt? n = some (compare x.scaled (n * unitsPerOne)) := by
  rw [compareInt?, h]
  rfl

theorem compare?_of_not_isNaN {x y : Binary64} (hx : x.isNaN = false) (hy : y.isNaN = false) :
    x.compare? y = some (compare x.scaled y.scaled) := by
  rw [compare?, hx, hy]
  rfl

/-- A number is on the same side of a whole number as the number nearest to it, where it is not that
number. -/
theorem compare_ofInt_of_ne {x : Binary64} {n : Int} (hx : x.isNaN = false)
    (hne : x.scaled ≠ (ofInt n).scaled) :
    compare x.scaled (n * unitsPerOne) = compare x.scaled (ofInt n).scaled := by
  rcases Int.lt_or_gt_of_ne hne with hlt | hgt
  · have hbelow : x.scaled < n * unitsPerOne :=
      Int.not_le.mp fun hle => Int.not_le.mpr hlt (ofInt_le_scaled hx hle)
    rw [Int.compare_eq_lt.mpr hlt, Int.compare_eq_lt.mpr hbelow]
  · have habove : n * unitsPerOne < x.scaled :=
      Int.not_le.mp fun hle => Int.not_le.mpr hgt (scaled_le_ofInt hx hle)
    rw [Int.compare_eq_gt.mpr hgt, Int.compare_eq_gt.mpr habove]

/-- A number that a whole number is rounded to is whole. -/
theorem scaled_of_eq_ofInt {x : Binary64} {n : Int} (h : x.scaled = (ofInt n).scaled) :
    x.scaled = x.truncated * unitsPerOne := by
  apply scaled_eq_truncated_mul
  rw [← natAbs_scaled, h, natAbs_scaled]
  exact unitsPerOne_dvd_units_ofInt n

end Number.Binary64

open Binary64

/-- Rounding the integer first, and comparing integers where this makes the two the same, is the exact
order. -/
theorem compareToInteger?_eq (x : Binary64) (n : Int64) :
    compareToInteger? x n = x.compareInt? n.toInt := by
  rw [compareToInteger?]
  cases hx : x.isNaN with
  | true =>
      rw [compare?, compareInt?, hx]
      rfl
  | false =>
      rw [compare?_of_not_isNaN hx (isNaN_ofInt _), compareInt?_of_not_isNaN hx]
      by_cases heq : x.scaled = (ofInt n.toInt).scaled
      · rw [scaled_of_eq_ofInt heq, compare_mul_right unitsPerOne_int_pos, ← scaled_of_eq_ofInt heq,
          Int.compare_eq_eq.mpr heq]
      · rw [compare_ofInt_of_ne hx heq]
        have hne : compare x.scaled (ofInt n.toInt).scaled ≠ .eq := fun h =>
          heq (Int.compare_eq_eq.mp h)
        cases horder : compare x.scaled (ofInt n.toInt).scaled with
        | lt => rfl
        | gt => rfl
        | eq => exact absurd horder hne

/-! ### Digit runs -/

namespace Number

theorem digitsValue_cons (c : Char) (digits : List Char) :
    digitsValue (c :: digits) =
      (c.toNat - 48) * Nat.pow 10 digits.length + digitsValue digits := by
  rw [digitsValue, Nat.ofDigitChars_cons, Nat.ofDigitChars_eq_ofDigitChars_zero, Nat.mul_zero,
    Nat.zero_add, Nat.mul_comm]
  rfl

theorem digitsValue_lt {digits : List Char} (h : ∀ c ∈ digits, c.isDigit = true) :
    digitsValue digits < Nat.pow 10 digits.length := by
  induction digits with
  | nil => exact Nat.one_pos
  | cons c digits ih =>
      obtain ⟨hc, hdigits⟩ := List.forall_mem_cons.mp h
      have hcode := (isDigit_iff c).mp hc
      have hrest := ih hdigits
      have hpow : Nat.pow 10 (c :: digits).length = 10 * Nat.pow 10 digits.length := Nat.pow_succ'
      have hfirst : (c.toNat - 48) * Nat.pow 10 digits.length ≤ 9 * Nat.pow 10 digits.length :=
        Nat.mul_le_mul_right _ (by omega)
      rw [digitsValue_cons, hpow]
      omega

/-- Without a leading zero, a digit run denotes at least the power of ten of its first digit. -/
theorem pow_length_le_digitsValue {c : Char} {digits : List Char} (hc : c.isDigit = true)
    (hzero : c ≠ '0') : Nat.pow 10 digits.length ≤ digitsValue (c :: digits) := by
  have hcode := (isDigit_iff c).mp hc
  have hne : c.toNat ≠ 48 := fun h => hzero (Char.toNat_inj.mp h)
  have hfirst : 1 * Nat.pow 10 digits.length ≤ (c.toNat - 48) * Nat.pow 10 digits.length :=
    Nat.mul_le_mul_right _ (by omega)
  rw [digitsValue_cons]
  omega

theorem digitsValue_lt_of_length_lt {digits other : List Char}
    (hdigits : ∀ c ∈ digits, c.isDigit = true) (hother : IsRun Char.isDigit other)
    (hzero : other.head? ≠ some '0') (h : digits.length < other.length) :
    digitsValue digits < digitsValue other := by
  obtain ⟨hne, hall⟩ := hother
  obtain ⟨c, rest, rfl⟩ := List.exists_cons_of_ne_nil hne
  have hc : c ≠ '0' := fun heq => hzero (by rw [List.head?_cons, heq])
  calc digitsValue digits < Nat.pow 10 digits.length := digitsValue_lt hdigits
    _ ≤ Nat.pow 10 rest.length :=
      Nat.pow_le_pow_right (by decide) (Nat.le_of_lt_succ h)
    _ ≤ digitsValue (c :: rest) := pow_length_le_digitsValue (hall c List.mem_cons_self) hc

/-- Of two digit runs of one length the first different digit decides. -/
theorem lt_iff_digitsValue_lt {digits other : List Char} (hdigits : ∀ c ∈ digits, c.isDigit = true)
    (hother : ∀ c ∈ other, c.isDigit = true) (hlength : digits.length = other.length) :
    digits < other ↔ digitsValue digits < digitsValue other := by
  induction digits generalizing other with
  | nil =>
      obtain rfl := List.eq_nil_of_length_eq_zero hlength.symm
      exact iff_of_false (List.lt_irrefl []) (Nat.lt_irrefl _)
  | cons c digits ih =>
      cases other with
      | nil => cases hlength
      | cons d other =>
          obtain ⟨hc, hdigits⟩ := List.forall_mem_cons.mp hdigits
          obtain ⟨hd, hother⟩ := List.forall_mem_cons.mp hother
          have hlength : digits.length = other.length := Nat.succ_inj.mp hlength
          have hcode := (isDigit_iff c).mp hc
          have hcode' := (isDigit_iff d).mp hd
          have hlow := digitsValue_lt hdigits
          have hlow' := digitsValue_lt hother
          have hchars : c < d ↔ c.toNat < d.toNat := Iff.rfl
          rw [List.cons_lt_cons_iff, ih hdigits hother hlength, hchars, ← Char.toNat_inj,
            digitsValue_cons, digitsValue_cons, hlength]
          rw [hlength] at hlow
          generalize Nat.pow 10 other.length = power at hlow hlow' ⊢
          rcases Nat.lt_trichotomy c.toNat d.toNat with hlt | heq | hgt
          · have hstep : (c.toNat - 48 + 1) * power ≤ (d.toNat - 48) * power :=
              Nat.mul_le_mul_right _ (by omega)
            rw [Nat.succ_mul] at hstep
            exact iff_of_true (Or.inl hlt) (by omega)
          · rw [heq]
            omega
          · have hstep : (d.toNat - 48 + 1) * power ≤ (c.toNat - 48) * power :=
              Nat.mul_le_mul_right _ (by omega)
            rw [Nat.succ_mul] at hstep
            exact iff_of_false (by omega) (by omega)

theorem utf8ByteSize_digits {digits : List Char} (h : ∀ c ∈ digits, c.isDigit = true) :
    (String.ofList digits).utf8ByteSize = digits.length := by
  induction digits with
  | nil => rfl
  | cons c digits ih =>
      obtain ⟨hc, hdigits⟩ := List.forall_mem_cons.mp h
      have hcode := (isDigit_iff c).mp hc
      have hsize : c.utf8Size = 1 := Char.utf8Size_eq_one_iff.mpr (by
        show c.toNat ≤ 127
        omega)
      rw [String.ofList_cons, String.utf8ByteSize_append, String.utf8ByteSize_singleton, hsize,
        ih hdigits, List.length_cons, Nat.add_comm]

/-- The decimal digits of a number other than zero have no leading zero. -/
theorem head?_decimalDigits {n : Nat} (h : 0 < n) : (decimalDigits n).head? ≠ some '0' := by
  induction n using Nat.strongRecOn with
  | ind n ih =>
      unfold decimalDigits
      rcases Nat.lt_or_ge n 10 with hsmall | hlarge
      · rw [Nat.toDigits_of_lt_base hsmall, List.head?_cons, ne_eq, Option.some_inj]
        have hdigit : ∀ k < 10, 0 < k → Nat.digitChar k ≠ '0' := by decide
        exact hdigit n hsmall h
      · have hdiv : 0 < n / 10 := Nat.div_pos hlarge (by decide)
        rw [Nat.toDigits_of_base_le (by decide) hlarge, List.head?_append,
          Option.or_of_isSome (List.isSome_head?.mpr Nat.toDigits_ne_nil)]
        exact ih (n / 10) (Nat.div_lt_self (by omega) (by decide)) hdiv

end Number

/-- Digit runs of one length are in the order of their characters. -/
theorem compare_digits_of_length_eq {a b : String} (ha : ∀ c ∈ a.toList, c.isDigit = true)
    (hb : ∀ c ∈ b.toList, c.isDigit = true) (hlength : a.toList.length = b.toList.length) :
    compare a b = compare (digitsValue a.toList) (digitsValue b.toList) := by
  have hlt : a < b ↔ digitsValue a.toList < digitsValue b.toList :=
    String.lt_iff.trans (lt_iff_digitsValue_lt ha hb hlength)
  have hgt : b < a ↔ digitsValue b.toList < digitsValue a.toList :=
    String.lt_iff.trans (lt_iff_digitsValue_lt hb ha hlength.symm)
  have hcompare : compare a b = compareOfLessAndEq a b := rfl
  rw [hcompare, compareOfLessAndEq]
  rcases Nat.lt_trichotomy (digitsValue a.toList) (digitsValue b.toList) with hless | hsame | hmore
  · rw [if_pos (hlt.mpr hless), Nat.compare_eq_lt.mpr hless]
  · have hnot : ¬ a < b := fun h => Nat.ne_of_lt (hlt.mp h) hsame
    have hnot' : ¬ b < a := fun h => Nat.ne_of_gt (hgt.mp h) hsame
    have hequal : a = b := String.le_antisymm (String.not_lt.mp hnot') (String.not_lt.mp hnot)
    rw [if_neg hnot, if_pos hequal, Nat.compare_eq_eq.mpr hsame]
  · have hnot : ¬ a < b := fun h => Nat.lt_asymm hmore (hlt.mp h)
    have hne : a ≠ b := by
      rintro rfl
      exact Nat.lt_irrefl _ hmore
    rw [if_neg hnot, if_neg hne, Nat.compare_eq_gt.mpr hmore]

theorem compareDigitRuns_eq {a b : String} (ha : IsRun Char.isDigit a.toList)
    (hb : IsRun Char.isDigit b.toList) (hza : a.toList.head? ≠ some '0')
    (hzb : b.toList.head? ≠ some '0') :
    compareDigitRuns a b = compare (digitsValue a.toList) (digitsValue b.toList) := by
  have hsize := utf8ByteSize_digits ha.2
  have hsize' := utf8ByteSize_digits hb.2
  rw [String.ofList_toList] at hsize hsize'
  rw [compareDigitRuns, hsize, hsize']
  rcases Nat.lt_trichotomy a.toList.length b.toList.length with hlt | heq | hgt
  · rw [Nat.compare_eq_lt.mpr hlt,
      Nat.compare_eq_lt.mpr (digitsValue_lt_of_length_lt ha.2 hb hzb hlt)]
    rfl
  · rw [Nat.compare_eq_eq.mpr heq, Ordering.eq_then, compare_digits_of_length_eq ha.2 hb.2 heq]
  · rw [Nat.compare_eq_gt.mpr hgt,
      Nat.compare_eq_gt.mpr (digitsValue_lt_of_length_lt hb.2 ha hza hgt)]
    rfl

/-! ### Numbers beyond the 64-bit integers -/

namespace Number.Binary64

variable {x : Binary64}

theorem scaled_of_not_negative (h : x.negative = false) : x.scaled = x.units := by
  rw [scaled, h, withSign_false]

theorem negative_of_scaled_pos (h : 0 < x.scaled) : x.negative = false := by
  refine Bool.eq_false_iff.mpr fun hnegative => ?_
  rw [scaled, hnegative, withSign_true] at h
  omega

theorem isNaN_of_isInfinite (h : x.isInfinite = true) : x.isNaN = false := by
  rw [isNaN, beq_iff_eq.mp h]
  exact decide_eq_false (Nat.lt_irrefl _)

theorem int64Bound_mul_unitsPerOne :
    int64Bound * unitsPerOne = ((Nat.pow 2 63 * unitsPerOne : Nat) : Int) := by
  have hbound : int64Bound = ((Nat.pow 2 63 : Nat) : Int) := rfl
  rw [hbound, Int.natCast_mul]

/-- Infinity, in units, is beyond the 64-bit integers. -/
theorem int64Bound_le_of_isInfinite (hinfinite : x.isInfinite = true)
    (hpositive : x.negative = false) : int64Bound * unitsPerOne ≤ x.scaled := by
  have hshift := shift_of_isInfinite hinfinite
  rw [int64Bound_mul_unitsPerOne, scaled_of_not_negative hpositive, units_of_isInfinite hinfinite]
  exact Int.ofNat_le.mpr (pow_two_mul_unitsPerOne_le (by omega))

/-- A number beyond the 64-bit integers is whole: its shift leaves no bit behind the point. -/
theorem scaled_of_int64Bound_le (h : int64Bound * unitsPerOne ≤ x.scaled) :
    x.scaled = ((x.wholePart : Nat) : Int) * unitsPerOne := by
  have hpos : 0 < int64Bound * unitsPerOne := Int.mul_pos (by decide) unitsPerOne_int_pos
  have hpositive := negative_of_scaled_pos (Int.lt_of_lt_of_le hpos h)
  rw [scaled_of_not_negative hpositive, int64Bound_mul_unitsPerOne, Int.ofNat_le] at h
  have hshift : 1074 ≤ x.shift := by
    apply Nat.le_of_not_lt
    intro hlt
    have hpow : Nat.pow 2 x.shift ∣ unitsPerOne := pow_two_dvd_unitsPerOne (Nat.le_of_lt hlt)
    have hunits : x.units < Nat.pow 2 63 * unitsPerOne :=
      Nat.mul_lt_mul_of_lt_of_le (Nat.lt_trans x.significand_lt (by decide))
        (Nat.le_of_dvd unitsPerOne_pos hpow) unitsPerOne_pos
    exact Nat.not_lt.mpr h hunits
  have hdvd : unitsPerOne ∣ x.units := Nat.dvd_mul_left_of_dvd (unitsPerOne_dvd_pow_two hshift) _
  rw [scaled_eq_truncated_mul hdvd, truncated, hpositive, withSign_false]

end Number.Binary64

section

variable {x : Binary64} {digits : String}

theorem compareToDigits?_of_isNaN (h : x.isNaN = true) : compareToDigits? x digits = none := by
  rw [compareToDigits?, if_pos h]

theorem compareToDigits?_of_lt (hx : x.isNaN = false) (h : x.scaled < int64Bound * unitsPerOne) :
    compareToDigits? x digits = some .lt := by
  rw [compareToDigits?, if_neg (Bool.eq_false_iff.mp hx), compareInt?_of_not_isNaN hx,
    Int.compare_eq_lt.mpr h, if_pos rfl]

theorem compareToDigits?_of_le (hx : x.isNaN = false) (h : int64Bound * unitsPerOne ≤ x.scaled) :
    compareToDigits? x digits =
      if x.isInfinite then some .gt else some (compareDigitRuns x.wholePart.repr digits) := by
  have hnlt : ¬ some (compare x.scaled (int64Bound * unitsPerOne)) = some .lt := fun heq =>
    Int.not_lt.mpr h (Int.compare_eq_lt.mp (Option.some_inj.mp heq))
  rw [compareToDigits?, if_neg (Bool.eq_false_iff.mp hx), compareInt?_of_not_isNaN hx, if_neg hnlt]

/-- What digits beyond the 64-bit integers denote is beyond these integers. -/
theorem int64Bound_le_digitsValue (h : (Literal.digits digits).InGrammar) :
    int64Bound ≤ digitsValue digits.toList := by
  have hmax := h.2.2
  rw [Int64.toInt_maxValue] at hmax
  unfold int64Bound
  omega

/-- The digits of a whole part beyond the 64-bit integers are in the order of what they denote. -/
theorem compareDigitRuns_wholePart (h : int64Bound * unitsPerOne ≤ x.scaled)
    (hdigits : (Literal.digits digits).InGrammar) :
    compareDigitRuns x.wholePart.repr digits =
      compare x.scaled (digitsValue digits.toList * unitsPerOne) := by
  have hwhole := scaled_of_int64Bound_le h
  have hpos : 0 < x.wholePart := by
    have hbound : 0 < int64Bound * unitsPerOne := Int.mul_pos (by decide) unitsPerOne_int_pos
    refine Nat.pos_of_ne_zero fun hzero => ?_
    rw [hwhole, hzero, Int.natCast_zero, Int.zero_mul] at h
    exact Int.not_le.mpr hbound h
  have hrepr : x.wholePart.repr.toList = decimalDigits x.wholePart := Nat.toList_repr
  rw [hwhole, compare_mul_right unitsPerOne_int_pos, compare_natCast,
    compareDigitRuns_eq (by rw [hrepr]; exact isRun_decimalDigits _) hdigits.1
      (by rw [hrepr]; exact head?_decimalDigits hpos) hdigits.2.1,
    hrepr, digitsValue_decimalDigits]

end

/-- The order that is found by the digits is the exact one; only of infinity, which is above all
numbers, it is not the order of the units. -/
theorem compareToDigits?_eq (x : Binary64) {digits : String} (h : (Literal.digits digits).InGrammar) :
    compareToDigits? x digits =
      if x.isInfinite && !x.negative then some .gt
      else x.compareInt? (digitsValue digits.toList) := by
  cases hx : x.isNaN with
  | true =>
      have hfinite : x.isInfinite = false :=
        Bool.eq_false_iff.mpr fun hinfinite => by
          rw [isNaN_of_isInfinite hinfinite] at hx
          cases hx
      rw [compareToDigits?_of_isNaN hx, compareInt?, hx, hfinite]
      rfl
  | false =>
      rw [compareInt?_of_not_isNaN hx]
      rcases Int.lt_or_le x.scaled (int64Bound * unitsPerOne) with hlt | hle
      · have hfinite : ¬ (x.isInfinite && !x.negative) = true := by
          intro hinfinite
          rw [Bool.and_eq_true, Bool.not_eq_true'] at hinfinite
          exact Int.not_le.mpr hlt (int64Bound_le_of_isInfinite hinfinite.1 hinfinite.2)
        have hbelow : x.scaled < digitsValue digits.toList * unitsPerOne :=
          Int.lt_of_lt_of_le hlt
            (Int.mul_le_mul_of_nonneg_right (int64Bound_le_digitsValue h) (Int.natCast_nonneg _))
        rw [compareToDigits?_of_lt hx hlt, if_neg hfinite, Int.compare_eq_lt.mpr hbelow]
      · have hpos : 0 < int64Bound * unitsPerOne := Int.mul_pos (by decide) unitsPerOne_int_pos
        rw [compareToDigits?_of_le hx hle, compareDigitRuns_wholePart hle h,
          negative_of_scaled_pos (Int.lt_of_lt_of_le hpos hle), Bool.not_false, Bool.and_true]

/-! ### Numbers and the whole numbers of a rule -/

namespace Literal

/-- The whole number that a literal denotes. -/
def whole? : Literal → Option Int
  | .integer n => some n.toInt
  | .digits s => some (digitsValue s.toList)
  | .text _ => none

theorem whole?_ofToken {token : String} (h : IsRun Char.isDigit token.toList) :
    (ofToken token).whole? = some (digitsValue token.toList : Int) := by
  rw [ofToken_digits h]
  by_cases hle : (digitsValue token.toList : Int) ≤ Int64.maxValue.toInt
  · rw [ofNumberText_of_le h hle, whole?,
      toInt_of_int64?_eq_some (int64?_of_le hle)]
  · rw [ofNumberText_of_lt h (Int.not_le.mp hle), whole?, String.toList_ofList,
      digitsValue_dropWhile_zero]

variable {literal : Literal} {d : Int}

theorem whole?_nonneg (h : literal.InGrammar) (hwhole : literal.whole? = some d) : 0 ≤ d := by
  cases literal with
  | text s => cases hwhole
  | integer n => exact Option.some_inj.mp hwhole ▸ h
  | digits s => exact Option.some_inj.mp hwhole ▸ Int.natCast_nonneg _

theorem kind_of_whole? (h : literal.whole? = some d) : literal.kind = .number := by
  cases literal with
  | text s => cases h
  | integer n => rfl
  | digits s => rfl

end Literal

theorem exactOrder?_integer {literal : Literal} {d : Int} (h : literal.InGrammar)
    (hwhole : literal.whole? = some d) (n : Int64) :
    exactOrder? (.integer n) literal = some (compare n.toInt d) := by
  cases literal with
  | text s => cases hwhole
  | integer m =>
      obtain rfl := Option.some_inj.mp hwhole
      rfl
  | digits s =>
      obtain rfl := Option.some_inj.mp hwhole
      have hbound := int64Bound_le_digitsValue h
      have hlt : n.toInt < digitsValue s.toList := by
        have := n.toInt_lt
        unfold int64Bound at hbound
        omega
      rw [Int.compare_eq_lt.mpr hlt]
      rfl

theorem exactOrder?_decimal {literal : Literal} {d : Int} (h : literal.InGrammar)
    (hwhole : literal.whole? = some d) (x : Binary64) :
    exactOrder? (.decimal x) literal =
      if x.isInfinite && !x.negative then some .gt else x.compareInt? d := by
  cases literal with
  | text s => cases hwhole
  | digits s =>
      obtain rfl := Option.some_inj.mp hwhole
      exact compareToDigits?_eq x h
  | integer m =>
      obtain rfl := Option.some_inj.mp hwhole
      rw [exactOrder?, compareToInteger?_eq]
      split
      case isFalse => rfl
      case isTrue hinfinite =>
        rw [Bool.and_eq_true, Bool.not_eq_true'] at hinfinite
        have hlt : m.toInt * unitsPerOne < int64Bound * unitsPerOne := by
          have hrange : m.toInt < int64Bound := m.toInt_lt
          exact Int.mul_lt_mul_of_pos_right hrange unitsPerOne_int_pos
        have hbound := int64Bound_le_of_isInfinite hinfinite.1 hinfinite.2
        rw [compareInt?_of_not_isNaN (isNaN_of_isInfinite hinfinite.1),
          Int.compare_eq_gt.mpr (Int.lt_of_lt_of_le hlt hbound)]

end RecordRules
