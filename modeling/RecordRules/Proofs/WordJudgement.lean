import RecordRules.Proofs.ExactJudgement
import RecordRules.Proofs.Grammar
import RecordRules.Proofs.SpelledNumber
import RecordRules.Proofs.StructuralEvaluation

/-! The judgement of a number against a quoted word. Both strict policies let it fail. Under the coercing
one a word counts as the number that it spells, and of all words that a rule can have, only those that
name a special value spell one. What is not a number satisfies no comparator, so that a word makes a
difference just where it names infinity, in letters of either case. -/

namespace RecordRules

open Number RuleText

/-! ### Numbers against infinity -/

namespace Number.Binary64

variable {x : Binary64}

theorem magnitude_infinity (negative : Bool) :
    (infinity negative).magnitude = infinityMagnitude :=
  magnitude_ofMagnitude negative infinityMagnitude_lt_signWeight

theorem negative_infinity (negative : Bool) : (infinity negative).negative = negative :=
  negative_ofMagnitude negative infinityMagnitude_lt_signWeight

theorem isNaN_infinity (negative : Bool) : (infinity negative).isNaN = false := by
  rw [isNaN, magnitude_infinity]
  exact decide_eq_false (Nat.lt_irrefl _)

theorem scaled_infinity : (infinity false).scaled = (infinity false).units :=
  scaled_of_not_negative (negative_infinity false)

/-- A number that is below infinity in magnitude is below it in units. -/
theorem units_lt_infinity (hx : x.isNaN = false) (hfinite : x.isInfinite = false) :
    x.units < (infinity false).units := by
  have hmagnitude : x.magnitude ≤ infinityMagnitude := Nat.not_lt.mp (of_decide_eq_false hx)
  apply Nat.lt_of_not_le
  intro hle
  have hinfinite := magnitude_le_of_units_le (isNaN_infinity false) hx hle
  rw [magnitude_infinity] at hinfinite
  rw [isInfinite, beq_eq_false_iff_ne] at hfinite
  exact hfinite (Nat.le_antisymm hmagnitude hinfinite)

theorem scaled_lt_infinity (hx : x.isNaN = false) (h : (x.isInfinite && !x.negative) = false) :
    x.scaled < (infinity false).scaled := by
  rw [scaled_infinity]
  cases hnegative : x.negative with
  | false =>
      rw [hnegative, Bool.not_false, Bool.and_true] at h
      rw [scaled_of_not_negative hnegative]
      exact Int.ofNat_lt.mpr (units_lt_infinity hx h)
  | true =>
      have hpos : 0 < (infinity false).units := by
        rw [units_of_isInfinite (beq_iff_eq.mpr (magnitude_infinity false))]
        exact pow_two_pos _
      rw [scaled, hnegative, withSign_true]
      omega

theorem extended?_lt_top (hx : x.isNaN = false) (h : (x.isInfinite && !x.negative) = false) :
    ∃ a < (⊤ : WithBotTop Rat), x.extended? = some a := by
  rw [extended?, hx]
  cases hinfinite : x.isInfinite with
  | false => exact ⟨x.toRat, WithBot.coe_lt_coe.mpr (WithTop.coe_lt_top _), rfl⟩
  | true =>
      rw [hinfinite, Bool.true_and, Bool.not_eq_false'] at h
      rw [h]
      exact ⟨⊥, bot_lt_top, rfl⟩

/-- The order of a number and infinity is that of what they denote. -/
theorem compare?_infinity (x : Binary64) :
    x.compare? (infinity false) = x.extended?.map fun a => cmp a ⊤ := by
  cases hnan : x.isNaN with
  | true =>
      rw [compare?, extended?, hnan]
      rfl
  | false =>
      rw [compare?_of_not_isNaN hnan (isNaN_infinity false)]
      cases h : x.isInfinite && !x.negative with
      | false =>
          obtain ⟨a, ha, hextended⟩ := extended?_lt_top hnan h
          rw [hextended, Int.compare_eq_lt.mpr (scaled_lt_infinity hnan h)]
          exact congrArg some ha.cmp_eq_lt.symm
      | true =>
          rw [Bool.and_eq_true, Bool.not_eq_true'] at h
          have hunits : x.units = (infinity false).units :=
            units_congr ((beq_iff_eq.mp h.1).trans (magnitude_infinity false).symm)
          rw [extended?, hnan, h.1, h.2, scaled_of_not_negative h.2, scaled_infinity, hunits,
            Int.compare_eq_eq.mpr rfl]
          exact congrArg some (cmp_self_eq_eq _).symm

end Number.Binary64

/-- The order of a number as a floating-point number and infinity is that of what it denotes: rounding
leads no 64-bit integer to infinity. -/
theorem Value.compare?_infinity {value : Value} (hvalue : value.kind = .number) :
    value.coerced?.bind (·.compare? (.infinity false)) =
      value.extended?.map fun a => cmp a ⊤ := by
  cases value with
  | text s => cases hvalue
  | decimal x => exact x.compare?_infinity
  | integer n =>
      have hbelow : ((n.toInt : Rat) : WithBotTop Rat) < ⊤ :=
        WithBot.coe_lt_coe.mpr (WithTop.coe_lt_top _)
      obtain ⟨a, ha, hextended⟩ := Binary64.extended?_lt_top (Binary64.isNaN_ofInt n.toInt)
        (by rw [Binary64.isInfinite_ofInt, Bool.false_and])
      calc (Binary64.ofInt n.toInt).compare? (.infinity false)
          = some (cmp a ⊤) := by
            rw [Binary64.compare?_infinity, hextended]
            rfl
        _ = some (cmp ((n.toInt : Rat) : WithBotTop Rat) ⊤) := by
            rw [ha.cmp_eq_lt, hbelow.cmp_eq_lt]

/-! ### Words -/

/-- The words that spell infinity, in letters of either case. -/
def NamesInfinity (word : String) : Prop :=
  word.toLower = "inf" ∨ word.toLower = "infinity"

theorem namesInfinity_iff (word : String) :
    NamesInfinity word ↔ word.toList.map Char.toLower = ['i', 'n', 'f'] ∨
      word.toList.map Char.toLower = ['i', 'n', 'f', 'i', 'n', 'i', 't', 'y'] := by
  have hlower : word.toLower.toList = word.toList.map Char.toLower := String.toList_map
  rw [NamesInfinity, ← String.toList_inj, ← String.toList_inj, hlower]
  rfl

instance (word : String) : Decidable (NamesInfinity word) :=
  decidable_of_iff _ (namesInfinity_iff word).symm

theorem Number.Binary64.compare?_nan (x : Binary64) : x.compare? .nan = none := by
  have hnan : Binary64.nan.isNaN = true := by decide +kernel
  rw [compare?, hnan, Bool.or_true]
  rfl

/-- A word has an order with a number only if it names infinity. -/
theorem coercedOrder?_word {word : String} (hword : IsRun Char.isAlpha word.toList) {value : Value}
    (hvalue : value.kind = .number) :
    coercedOrder? value (.text word) =
      if NamesInfinity word then value.extended?.map fun a => cmp a ⊤ else none := by
  rw [← Value.compare?_infinity hvalue, coercedOrder?, Literal.coerced?, spelledNumber?_word hword,
    specialValue?]
  simp only [← namesInfinity_iff]
  by_cases hinfinity : NamesInfinity word
  · rw [if_pos hinfinity, if_pos hinfinity]
    cases value.coerced? <;> rfl
  · rw [if_neg hinfinity, if_neg hinfinity]
    by_cases hnan : word.toList.map Char.toLower = ['n', 'a', 'n']
    · rw [if_pos hnan]
      cases value.coerced? with
      | none => rfl
      | some x => exact x.compare?_nan
    · rw [if_neg hnan]
      cases value.coerced? <;> rfl

/-! ### Operands of a rule -/

theorem Operand.holds_of_judge {operand : Operand} {value : Value} {policy : Policy} {verdict : Bool}
    (h : operand.judge policy value = .ok verdict) :
    operand.holds policy (some value) = verdict := by
  rw [holds, h]

/-- Only coercion lets a comparison of different kinds hold. -/
theorem Operand.holds_of_kind_ne {operand : Operand} {value : Value} {policy : Policy}
    (hkind : value.kind ≠ operand.literal.kind) (hpolicy : policy ≠ .coerce) :
    operand.holds policy (some value) = false := by
  rw [holds, judge, if_neg hkind]
  cases operand.comparator.isRecognized with
  | false => rfl
  | true =>
      cases policy with
      | coerce => exact absurd rfl hpolicy
      | alwaysFalse => rfl
      | reject => rfl

/-- An operand of a rule that compares with a quoted word holds of a number under no policy but the
coercing one, and under this one only if the word names infinity and an ordering comparator relates
what the number denotes to infinity. So for every other word the policies agree. -/
theorem holds_word_iff_infinity {text : String} {rule : Rule} (hrule : Rule.parse text = .ok rule)
    {operand : Operand} (hoperand : operand ∈ rule.operands) {word : String}
    (hliteral : operand.literal = .text word) {value : Value} (hvalue : value.kind = .number) :
    (∀ policy ≠ Policy.coerce, operand.holds policy (some value) = false) ∧
      (operand.holds .coerce (some value) = true ↔
        NamesInfinity word ∧ operand.comparator ≠ .equal ∧
          ∃ a, value.extended? = some a ∧ operand.comparator.Relates a ⊤) := by
  have hgrammar := (Rule.inGrammar_of_parse hrule operand hoperand).literal
  rw [hliteral] at hgrammar
  have hkind : value.kind ≠ operand.literal.kind := by
    rw [hvalue, hliteral]
    intro h
    cases h
  refine ⟨fun policy hpolicy => Operand.holds_of_kind_ne hkind hpolicy, ?_⟩
  rw [Operand.holds_of_judge (Operand.judge_coerce_of_kind_ne hkind), hliteral,
    coercedOrder?_word hgrammar.1 hvalue, Bool.and_eq_true, bne_iff_ne]
  by_cases hinfinity : NamesInfinity word
  · rw [if_pos hinfinity, Comparator.holds_map_cmp, and_iff_right hinfinity]
  · rw [if_neg hinfinity]
    exact iff_of_false (fun h => Bool.false_ne_true h.2) (fun h => hinfinity h.1)

/-- Infinity itself is not below the word that names it. -/
theorem holds_word_iff_infinity_of_infinity :
    let operand : Operand := ⟨"a", .greaterEqual, .text "Infinity"⟩
    Rule.parse "a >= 'Infinity'" = .ok (.leaf operand) ∧
      operand.holds .reject (some (.decimal (.infinity false))) = false ∧
      operand.holds .coerce (some (.decimal (.infinity false))) = true := by
  intro operand
  have hparse : Rule.parse "a >= 'Infinity'" = .ok (.leaf operand) := rfl
  have hoperand : operand ∈ (Rule.leaf operand).operands := List.mem_cons_self
  have hvalue : (Value.decimal (.infinity false)).kind = .number := rfl
  obtain ⟨hstrict, hcoerce⟩ := holds_word_iff_infinity hparse hoperand rfl hvalue
  have hdenotes : (Value.decimal (.infinity false)).extended? = some ⊤ := by
    have hinfinite : (Binary64.infinity false).isInfinite = true :=
      beq_iff_eq.mpr (Binary64.magnitude_infinity false)
    rw [Value.extended?, Binary64.extended?, Binary64.isNaN_infinity, hinfinite,
      Binary64.negative_infinity]
    rfl
  refine ⟨hparse, hstrict .reject ?_, hcoerce.mpr ⟨?_, ?_, ⊤, hdenotes, ?_⟩⟩
  · decide
  · decide
  · decide
  · exact le_refl (⊤ : WithBotTop Rat)

/-- A number below the word that names infinity: the policies do not agree on it. -/
theorem evaluate_word_below_infinity :
    let rule : Rule := .leaf ⟨"a", .less, .text "inf"⟩
    let source : Source Unit := .ofLookup fun _ => some (.integer 5)
    Rule.parse "a < 'inf'" = .ok rule ∧
      (evaluate ⟨.coerce⟩ source (some rule) ()).1 = true ∧
      ∀ policy ≠ Policy.coerce, (evaluate ⟨policy⟩ source (some rule) ()).1 = false := by
  intro rule source
  refine ⟨rfl, ?_, ?_⟩
  · simp only [rule, evaluate, Rule.verdict_leaf]
    decide +kernel
  · intro policy hpolicy
    simp only [rule, evaluate, Rule.verdict_leaf]
    cases policy with
    | coerce => exact absurd rfl hpolicy
    | alwaysFalse => rfl
    | reject => rfl

end RecordRules
