import Mathlib.Algebra.Order.Field.Rat
import Mathlib.Algebra.Order.Field.Basic
import Mathlib.Order.Compare
import Mathlib.Order.WithBotTop
import RecordRules.Proofs.ExactOrder
import RecordRules.Proofs.PolicyComparison

/-! The judgement of a number against a whole number is exact. What a number denotes is a rational
number or one of the two infinities: the bits of a finite floating-point number are a significand and a
power of two. A comparator holds of a number and a whole number of a rule just where it relates what
they denote, so rounding is never seen, whichever of the ways of comparing them is taken. -/

namespace RecordRules

open Number RuleText

/-! ### What a number denotes -/

namespace Number.Binary64

/-- What the sign, the exponent and the significand of a finite number denote. -/
def toRat (x : Binary64) : Rat :=
  withSign x.negative x.significand * 2 ^ ((x.shift : Int) - 1074)

/-- What a number denotes, infinity included; what is not a number denotes nothing. -/
def extended? (x : Binary64) : Option (WithBotTop Rat) :=
  if x.isNaN then none
  else if x.isInfinite then some (if x.negative then ⊥ else ⊤)
  else some x.toRat

end Number.Binary64

/-- What a number of a record denotes; a text denotes nothing. -/
def Value.extended? : Value → Option (WithBotTop Rat)
  | .integer n => some ((n.toInt : Rat) : WithBotTop Rat)
  | .decimal x => x.extended?
  | .text _ => none

/-- The relation that a comparator names; a symbol that names none relates nothing. -/
def Comparator.Relates {α : Type} [LT α] [LE α] : Comparator → α → α → Prop
  | .greater, a, b => b < a
  | .less, a, b => a < b
  | .equal, a, b => a = b
  | .greaterEqual, a, b => b ≤ a
  | .lessEqual, a, b => a ≤ b
  | .unrecognized _, _, _ => False

theorem Comparator.admits_cmp {α : Type} [LinearOrder α] (comparator : Comparator) (a b : α) :
    comparator.admits (cmp a b) = true ↔ comparator.Relates a b := by
  cases comparator with
  | greater => rw [admits, beq_iff_eq, cmp_eq_gt_iff, Relates]
  | less => rw [admits, beq_iff_eq, cmp_eq_lt_iff, Relates]
  | equal => rw [admits, beq_iff_eq, cmp_eq_eq_iff, Relates]
  | greaterEqual => rw [admits, bne_iff_ne, ne_eq, cmp_eq_lt_iff, not_lt, Relates]
  | lessEqual => rw [admits, bne_iff_ne, ne_eq, cmp_eq_gt_iff, not_lt, Relates]
  | unrecognized text => exact iff_of_false Bool.false_ne_true id

/-- A comparator holds of the order of two elements, the first of which may be missing, where it relates
them. -/
theorem Comparator.holds_map_cmp {α : Type} [LinearOrder α] (comparator : Comparator)
    (a? : Option α) (b : α) :
    comparator.holds (a?.map fun a => cmp a b) = true ↔
      ∃ a, a? = some a ∧ comparator.Relates a b := by
  cases a? with
  | none =>
      refine iff_of_false Bool.false_ne_true ?_
      rintro ⟨a, h, _⟩
      cases h
  | some a =>
      refine (comparator.admits_cmp a b).trans ⟨fun h => ⟨a, rfl, h⟩, ?_⟩
      rintro ⟨a', ha, h⟩
      obtain rfl := Option.some_inj.mp ha
      exact h

/-! ### The exact order as the order of what is denoted -/

theorem compare_eq_cmp (m n : Int) : compare m n = cmp m n := by
  rcases lt_trichotomy m n with hlt | heq | hgt
  · rw [Int.compare_eq_lt.mpr hlt, hlt.cmp_eq_lt]
  · rw [Int.compare_eq_eq.mpr heq, heq.cmp_eq_eq]
  · rw [Int.compare_eq_gt.mpr hgt, hgt.cmp_eq_gt]

namespace Number.Binary64

variable {x : Binary64}

theorem natCast_pow_two (k : Nat) : ((Nat.pow 2 k : Nat) : Rat) = 2 ^ (k : Int) := by
  rw [zpow_natCast]
  exact_mod_cast rfl

/-- The rational number that is denoted, from the count of units of `2 ^ -1074`. -/
theorem toRat_eq (x : Binary64) : x.toRat = x.scaled / (unitsPerOne : Int) := by
  have hunits : ((unitsPerOne : Int) : Rat) = 2 ^ (1074 : Int) := by
    have hplaces : (1074 : Int) = ((1074 : Nat) : Int) := rfl
    rw [hplaces, Int.cast_natCast]
    unfold unitsPerOne
    generalize 1074 = places
    exact natCast_pow_two places
  rw [toRat, hunits, zpow_sub₀ two_ne_zero, mul_div_assoc', scaled, units, withSign_mul,
    Int.cast_mul, Int.cast_natCast, natCast_pow_two]

theorem compareInt?_eq_cmp (hx : x.isNaN = false) (n : Int) :
    x.compareInt? n = some (cmp (x.toRat : WithBotTop Rat) ((n : Rat) : WithBotTop Rat)) := by
  have hpos : (0 : Rat) < (unitsPerOne : Int) := Int.cast_pos.mpr unitsPerOne_int_pos
  have hwhole : (n : Rat) = ((n * unitsPerOne : Int) : Rat) / (unitsPerOne : Int) := by
    rw [Int.cast_mul, mul_div_cancel_right₀ _ (ne_of_gt hpos)]
  have hmono : StrictMono fun k : Int => ((k / (unitsPerOne : Int) : Rat) : WithBotTop Rat) :=
    WithBotTop.coe_strictMono.comp fun _ _ h =>
      div_lt_div_of_pos_right (Int.cast_lt.mpr h) hpos
  rw [compareInt?_of_not_isNaN hx, compare_eq_cmp, toRat_eq, hwhole]
  exact congrArg some (hmono.cmp_map_eq _ _).symm

/-- Minus infinity, in units, is below all whole numbers of rules. -/
theorem compareInt?_of_negative_infinity (hinfinite : x.isInfinite = true)
    (hnegative : x.negative = true) {d : Int} (hd : 0 ≤ d) : x.compareInt? d = some .lt := by
  have hpos : 0 < x.units := by
    rw [units_of_isInfinite hinfinite]
    exact pow_two_pos _
  have hscaled : x.scaled < 0 := by
    rw [scaled, hnegative, withSign_true]
    omega
  have hnonneg : 0 ≤ d * unitsPerOne := Int.mul_nonneg hd (Int.natCast_nonneg _)
  rw [compareInt?_of_not_isNaN (isNaN_of_isInfinite hinfinite),
    Int.compare_eq_lt.mpr (Int.lt_of_lt_of_le hscaled hnonneg)]

/-- The order that is found for a floating-point number is that of what it denotes. -/
theorem order_eq_cmp (x : Binary64) {d : Int} (hd : 0 ≤ d) :
    (if x.isInfinite && !x.negative then some .gt else x.compareInt? d) =
      x.extended?.map fun a => cmp a ((d : Rat) : WithBotTop Rat) := by
  cases hinfinite : x.isInfinite with
  | false =>
      rw [extended?, hinfinite, Bool.false_and]
      cases hnan : x.isNaN with
      | true =>
          rw [compareInt?, hnan]
          rfl
      | false => exact compareInt?_eq_cmp hnan d
  | true =>
      rw [extended?, hinfinite, isNaN_of_isInfinite hinfinite, Bool.true_and]
      cases hnegative : x.negative with
      | false =>
          have htop : ((d : Rat) : WithBotTop Rat) < ⊤ :=
            WithBot.coe_lt_coe.mpr (WithTop.coe_lt_top _)
          exact congrArg some htop.cmp_eq_gt.symm
      | true =>
          have hbottom : (⊥ : WithBotTop Rat) < ((d : Rat) : WithBotTop Rat) :=
            WithBot.bot_lt_coe _
          exact (compareInt?_of_negative_infinity hinfinite hnegative hd).trans
            (congrArg some hbottom.cmp_eq_lt.symm)

end Number.Binary64

/-! ### The judgement -/

/-- The order that the judgement finds for a number and a whole number of a rule is that of what they
denote. -/
theorem exactOrder?_eq_cmp {literal : Literal} {d : Int} (h : literal.InGrammar)
    (hwhole : literal.whole? = some d) {value : Value} (hvalue : value.kind = .number) :
    exactOrder? value literal =
      value.extended?.map fun a => cmp a ((d : Rat) : WithBotTop Rat) := by
  cases value with
  | text s => cases hvalue
  | decimal x =>
      rw [exactOrder?_decimal h hwhole]
      exact x.order_eq_cmp (Literal.whole?_nonneg h hwhole)
  | integer n =>
      have hmono : StrictMono fun k : Int => ((k : Rat) : WithBotTop Rat) :=
        WithBotTop.coe_strictMono.comp Int.cast_strictMono
      rw [exactOrder?_integer h hwhole, compare_eq_cmp]
      exact congrArg some (hmono.cmp_map_eq _ _).symm

/-- An operand whose literal is a digit run, of any length and with leading zeros or without, holds of
a number just where its comparator relates what the number denotes to what the digits denote. The
infinities are beyond all digits, what is not a number satisfies no comparator, and the policy for
values of different kinds has no effect. -/
theorem judge_number_eq_exact_order (policy : Policy) (operand : Operand) (value : Value)
    (token : String) (htoken : IsRun Char.isDigit token.toList)
    (hliteral : operand.literal = .ofToken token) (hvalue : value.kind = .number) :
    ∃ verdict, operand.judge policy value = .ok verdict ∧
      (verdict = true ↔
        ∃ a, value.extended? = some a ∧
          operand.comparator.Relates a ((digitsValue token.toList : Rat) : WithBotTop Rat)) := by
  have hgrammar := Literal.inGrammar_ofToken_digits htoken
  have hwhole := Literal.whole?_ofToken htoken
  rw [← hliteral] at hgrammar hwhole
  have hkind : value.kind = operand.literal.kind :=
    hvalue.trans (Literal.kind_of_whole? hwhole).symm
  refine ⟨_, Operand.judge_of_kind_eq hkind policy, ?_⟩
  rw [exactOrder?_eq_cmp hgrammar hwhole hvalue, Int.cast_natCast]
  exact operand.comparator.holds_map_cmp _ _

/-- The first whole number that no floating-point number denotes, with leading zeros, against the one
before it, to which it is rounded. -/
theorem judge_number_eq_exact_order_of_rounded :
    let value : Value := .decimal ⟨0x4340000000000000⟩
    let operand : Operand := ⟨"a", .less, .ofToken "0009007199254740993"⟩
    IsRun Char.isDigit "0009007199254740993".toList ∧ operand.judge .coerce value = .ok true := by
  intro value operand
  have htoken : IsRun Char.isDigit "0009007199254740993".toList := by decide
  obtain ⟨verdict, hjudge, hverdict⟩ :=
    judge_number_eq_exact_order .coerce operand value _ htoken rfl rfl
  have hrat : (⟨0x4340000000000000⟩ : Binary64).toRat = 9007199254740992 := by decide +kernel
  have hdenotes : value.extended? = some ((9007199254740992 : Rat) : WithBotTop Rat) := by
    rw [Value.extended?, Binary64.extended?, hrat]
    rfl
  have hdigits : digitsValue "0009007199254740993".toList = 9007199254740993 := by decide
  have hless : ((9007199254740992 : Rat) : WithBotTop Rat) <
      ((digitsValue "0009007199254740993".toList : Rat) : WithBotTop Rat) := by
    rw [hdigits]
    exact WithBotTop.coe_lt_coe.mpr (by decide +kernel)
  rw [hjudge, hverdict.mpr ⟨_, hdenotes, hless⟩]
  exact ⟨htoken, rfl⟩

end RecordRules
