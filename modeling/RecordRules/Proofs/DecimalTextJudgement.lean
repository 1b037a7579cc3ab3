import RecordRules.Proofs.DecimalText
import RecordRules.Proofs.ExactJudgement

/-! The judgement of a text in decimal notation. Under the coercing policy the number that the text
denotes and the whole number of a rule are both rounded, each on its own, and then compared. Rounding
keeps weak order, so a weak order that the numbers have is never missed, and a strict order is only found
where the numbers have it. What is missed is a strict order of two numbers that are rounded to the same
one, infinity included, and equality, which coercion never finds. -/

namespace RecordRules

open Number RuleText

/-- A number of the grammar of literals and what it denotes. -/
def Literal.Denotes (literal : Literal) (m : Int) : Prop :=
  literal.InGrammar ∧ literal.whole? = some m

/-- The coercing policy judges that an operand holds of a text. -/
def Operand.HoldsOfText (operand : Operand) (text : String) : Prop :=
  operand.judge .coerce (.text text) = .ok true

/-! ### The order that is found -/

/-- A text in decimal notation and a whole number are compared as the numbers that they are rounded
to. -/
theorem coercedOrder?_decimalText {text : String} {n : Numeral} {literal : Literal} {m : Int}
    (htext : spelledNumber? (Text.unquoted text) = some n.toBinary64) (hliteral : literal.Denotes m) :
    coercedOrder? (.text text) literal = some (compare n.toBinary64.scaled (Binary64.ofInt m).scaled) := by
  have hvalue : (Value.text text).coerced? = some n.toBinary64 := htext
  rw [coercedOrder?, hvalue, Literal.coerced?_of_whole? hliteral.1 hliteral.2]
  exact Binary64.compare?_of_not_isNaN n.isNaN_toBinary64 (Binary64.isNaN_ofInt m)

theorem judge_text {operand : Operand} {m : Int} (hliteral : operand.literal.Denotes m) (text : String) :
    operand.judge .coerce (.text text) =
      .ok (operand.comparator != .equal &&
        operand.comparator.holds (coercedOrder? (.text text) operand.literal)) := by
  have hkind : (Value.text text).kind ≠ operand.literal.kind := by
    rw [Literal.kind_of_whole? hliteral.2]
    intro h
    cases h
  exact Operand.judge_coerce_of_kind_ne hkind

/-- Every comparator but equality holds where it relates the rounded numbers. -/
theorem holdsOfText_iff (operand : Operand) {text : String} {n : Numeral} {m : Int}
    (htext : spelledNumber? (Text.unquoted text) = some n.toBinary64)
    (hliteral : operand.literal.Denotes m) (hcomparator : operand.comparator ≠ .equal) :
    operand.HoldsOfText text ↔
      operand.comparator.Relates n.toBinary64.scaled (Binary64.ofInt m).scaled := by
  have hordering : (operand.comparator != .equal) = true := bne_iff_ne.mpr hcomparator
  rw [Operand.HoldsOfText, judge_text hliteral, coercedOrder?_decimalText htext hliteral, hordering,
    Bool.true_and, Except.ok.injEq, compare_eq_cmp]
  exact operand.comparator.admits_cmp _ _

/-! ### The judgement -/

/-- Of a text that denotes `q`, the comparators `>` and `<` hold only where `q` is above or below the
number of the literal, `>=` and `<=` wherever it is not below or above it, and `=` nowhere. What is
judged to be above a number is judged to be above every smaller one, whatever form the literals have, and
so it is below. -/
theorem judge_decimal_text (name text : String) (q : Rat)
    (htext : DecimalText (Text.trimBlanks (Text.unquoted text).toList) q) :
    (∀ (literal : Literal) (m : Int), literal.Denotes m →
        (Operand.HoldsOfText ⟨name, .greater, literal⟩ text → m < q) ∧
        (Operand.HoldsOfText ⟨name, .less, literal⟩ text → q < m) ∧
        (m ≤ q → Operand.HoldsOfText ⟨name, .greaterEqual, literal⟩ text) ∧
        (q ≤ m → Operand.HoldsOfText ⟨name, .lessEqual, literal⟩ text) ∧
        Operand.judge .coerce ⟨name, .equal, literal⟩ (.text text) = .ok false) ∧
      ∀ (smaller larger : Literal) (m₁ m₂ : Int), smaller.Denotes m₁ → larger.Denotes m₂ → m₁ ≤ m₂ →
        (Operand.HoldsOfText ⟨name, .greater, larger⟩ text →
          Operand.HoldsOfText ⟨name, .greater, smaller⟩ text) ∧
        (Operand.HoldsOfText ⟨name, .less, smaller⟩ text →
          Operand.HoldsOfText ⟨name, .less, larger⟩ text) := by
  obtain ⟨n, hspells, rfl⟩ := htext.binary64?
  have hholds : ∀ {literal : Literal} {m : Int} (comparator : Comparator), literal.Denotes m →
      comparator ≠ .equal → (Operand.HoldsOfText ⟨name, comparator, literal⟩ text ↔
        comparator.Relates n.toBinary64.scaled (Binary64.ofInt m).scaled) :=
    fun comparator hliteral => holdsOfText_iff ⟨name, comparator, _⟩ hspells hliteral
  constructor
  · intro literal m hliteral
    rw [hholds .greater hliteral Comparator.noConfusion, hholds .less hliteral Comparator.noConfusion,
      hholds .greaterEqual hliteral Comparator.noConfusion,
      hholds .lessEqual hliteral Comparator.noConfusion]
    exact ⟨Numeral.lt_toRat_of_scaled_lt, Numeral.toRat_lt_of_scaled_lt, Numeral.le_scaled_of_le_toRat,
      Numeral.scaled_le_of_toRat_le, judge_text hliteral text⟩
  · intro smaller larger m₁ m₂ hsmaller hlarger hle
    have hmono := Binary64.scaled_ofInt_mono hle
    rw [hholds .greater hsmaller Comparator.noConfusion, hholds .greater hlarger Comparator.noConfusion,
      hholds .less hsmaller Comparator.noConfusion, hholds .less hlarger Comparator.noConfusion]
    exact ⟨lt_of_le_of_lt hmono, fun h => lt_of_lt_of_le h hmono⟩

/-- A quoted text with a blank, a sign, a fraction and an exponent, between two whole numbers that are
both rounded to the lower one, as the text is: below the upper one weakly, but not strictly. -/
theorem judge_decimal_text_of_rounded :
    let text := " '+9007199254740992.5E0'"
    let upper : Literal := .integer 9007199254740993
    DecimalText (Text.trimBlanks (Text.unquoted text).toList) (18014398509481985 / 2) ∧
      upper.Denotes 9007199254740993 ∧
      Operand.HoldsOfText ⟨"a", .lessEqual, upper⟩ text ∧
      ¬ Operand.HoldsOfText ⟨"a", .greater, upper⟩ text := by
  intro text upper
  have htext : DecimalText (Text.trimBlanks (Text.unquoted text).toList) (18014398509481985 / 2) :=
    decimalText_iff.mpr ⟨⟨false, 90071992547409925, -1⟩, by decide, by decide +kernel⟩
  have hupper : upper.Denotes 9007199254740993 := ⟨by decide, rfl⟩
  obtain ⟨hgreater, _, _, hlessEqual, _⟩ :=
    (judge_decimal_text "a" text _ htext).1 upper 9007199254740993 hupper
  refine ⟨htext, hupper, hlessEqual (by decide +kernel), fun h => ?_⟩
  exact absurd (hgreater h) (by decide +kernel)

end RecordRules
