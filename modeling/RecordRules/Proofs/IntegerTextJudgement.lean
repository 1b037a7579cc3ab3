import RecordRules.Proofs.PolicyComparison
import RecordRules.Proofs.SpelledNumber
import RecordRules.RuleText.Reading

/-! The judgement of a text that spells an integer. Under the coercing policy the text counts as the
floating-point number nearest to the integer, and so does the whole number of the rule, while the integer
itself is compared without rounding. Rounding keeps the order of whole numbers, except that it may make
two of them the same. Only there the text is judged otherwise than the integer, and both numbers then
have more than 53 bits. -/

namespace RecordRules

open Number RuleText

/-! ### Rounded whole numbers -/

namespace Number.Binary64

/-- The least whole number with more than 53 bits is itself a floating-point number. -/
theorem scaled_ofInt_two_pow :
    (ofInt 9007199254740992).scaled = 9007199254740992 * unitsPerOne := by
  decide +kernel

theorem scaled_ofInt_of_le {n : Int} (hlow : -1 ≤ n) (hhigh : n ≤ 9007199254740992) :
    (ofInt n).scaled = n * unitsPerOne := by
  rcases Int.lt_or_eq_of_le hhigh with hlt | rfl
  · have hpow : Nat.pow 2 53 = 9007199254740992 := rfl
    exact scaled_ofInt_of_lt (by omega)
  · exact scaled_ofInt_two_pow

/-- Rounding keeps a whole number of at most 53 bits below the larger ones. -/
theorem scaled_ofInt_lt {n m : Int} (hn : n < 9007199254740992) (hm : 0 ≤ m) (h : n < m) :
    (ofInt n).scaled < (ofInt m).scaled := by
  -- two neighbours that are not rounded stand between the two numbers
  obtain ⟨k, hk, hkm, hlow, hhigh⟩ :
      ∃ k : Int, n ≤ k ∧ k + 1 ≤ m ∧ -1 ≤ k ∧ k + 1 ≤ 9007199254740992 :=
    ⟨max n (-1), by omega, by omega, by omega, by omega⟩
  calc (ofInt n).scaled ≤ (ofInt k).scaled := scaled_ofInt_mono hk
    _ = k * unitsPerOne := scaled_ofInt_of_le hlow (by omega)
    _ < (k + 1) * unitsPerOne := Int.mul_lt_mul_of_pos_right (by omega) unitsPerOne_int_pos
    _ = (ofInt (k + 1)).scaled := (scaled_ofInt_of_le (by omega) hhigh).symm
    _ ≤ (ofInt m).scaled := scaled_ofInt_mono hkm

theorem ofInt_eq_of_scaled_eq {n m : Int} (h : (ofInt n).scaled = (ofInt m).scaled) :
    ofInt n = ofInt m := by
  have hsign : ∀ {n m : Int}, (ofInt n).scaled = (ofInt m).scaled → n < 0 → m < 0 := by
    intro n m h hn
    apply Int.not_le.mp
    intro hm
    have hlt : (ofInt n).scaled < (ofInt m).scaled := scaled_ofInt_lt (by omega) hm (by omega)
    omega
  have hmagnitude : (ofInt n).magnitude = (ofInt m).magnitude := by
    apply magnitude_eq_of_units_eq (isNaN_ofInt n) (isNaN_ofInt m)
    rw [← natAbs_scaled, ← natAbs_scaled, h]
  rw [ofInt_eq_nearest, ofInt_eq_nearest, magnitude_nearest, magnitude_nearest] at hmagnitude
  rw [ofInt_eq_nearest, ofInt_eq_nearest, nearest, nearest, hmagnitude,
    decide_eq_decide.mpr ⟨hsign h, hsign h.symm⟩]

/-- Two different whole numbers to which the same floating-point number is nearest. -/
def Merged (n m : Int) : Prop :=
  n ≠ m ∧ ofInt n = ofInt m

instance (n m : Int) : Decidable (Merged n m) :=
  inferInstanceAs (Decidable (_ ∧ _))

/-- Merged whole numbers have more than 53 bits. -/
theorem Merged.two_pow_le {n m : Int} (h : Merged n m) (hm : 0 ≤ m) :
    9007199254740992 ≤ n ∧ 9007199254740992 ≤ m := by
  obtain ⟨hne, heq⟩ := h
  have hscaled : (ofInt n).scaled = (ofInt m).scaled := by rw [heq]
  rcases Int.lt_or_gt_of_ne hne with hlt | hgt
  · have hn : ¬ n < 9007199254740992 := fun hn =>
      Int.ne_of_lt (scaled_ofInt_lt hn hm hlt) hscaled
    omega
  · have hm' : ¬ m < 9007199254740992 := fun hm' =>
      Int.ne_of_lt (scaled_ofInt_lt hm' (by omega) hgt) hscaled.symm
    omega

/-- Rounding keeps the order of whole numbers that it does not merge. -/
theorem compare?_ofInt (n m : Int) :
    (ofInt n).compare? (ofInt m) = some (if Merged n m then .eq else compare n m) := by
  rw [compare?_of_not_isNaN (isNaN_ofInt n) (isNaN_ofInt m)]
  by_cases hmerged : Merged n m
  · rw [if_pos hmerged, hmerged.2, Int.compare_eq_eq.mpr rfl]
  · rw [if_neg hmerged]
    have hscaled : n ≠ m → (ofInt n).scaled ≠ (ofInt m).scaled := fun hne h =>
      hmerged ⟨hne, ofInt_eq_of_scaled_eq h⟩
    rcases Int.lt_trichotomy n m with hlt | rfl | hgt
    · have hle := scaled_ofInt_mono (Int.le_of_lt hlt)
      have hne := hscaled (Int.ne_of_lt hlt)
      rw [Int.compare_eq_lt.mpr hlt, Int.compare_eq_lt.mpr (by omega)]
    · rw [Int.compare_eq_eq.mpr rfl, Int.compare_eq_eq.mpr rfl]
    · have hle := scaled_ofInt_mono (Int.le_of_lt hgt)
      have hne := hscaled (Int.ne_of_gt hgt)
      rw [Int.compare_eq_gt.mpr hgt, Int.compare_eq_gt.mpr (by omega)]

end Number.Binary64

/-! ### The judgement -/

theorem coercedOrder?_toText {literal : Literal} {m : Int} (h : literal.InGrammar)
    (hwhole : literal.whole? = some m) (n : Int64) :
    coercedOrder? (.text (Value.integer n).toText) literal =
      some (if Binary64.Merged n.toInt m then .eq else compare n.toInt m) := by
  have hvalue : (Value.text (Value.integer n).toText).coerced? = some (.ofInt n.toInt) :=
    spelledNumber?_repr n.toInt
  rw [coercedOrder?, hvalue, Literal.coerced?_of_whole? h hwhole]
  exact Binary64.compare?_ofInt n.toInt m

/-- Numbers that count as equal satisfy the two comparators that admit equality. -/
theorem Comparator.holds_eq {comparator : Comparator} (h : comparator ≠ .equal) :
    comparator.holds (some .eq) = decide (comparator ∈ [.greaterEqual, .lessEqual]) := by
  cases comparator with
  | equal => exact absurd rfl h
  | unrecognized symbol => rfl
  | greater => rfl
  | less => rfl
  | greaterEqual => rfl
  | lessEqual => rfl

/-- Under the coercing policy, for every comparator but equality, the text of a 64-bit integer is judged
as the integer itself, unless it is merged with the whole number of the rule. Then the two count as
equal, and both have more than 53 bits. -/
theorem judge_integer_text (n : Int64) (operand : Operand) (m : Int)
    (hliteral : operand.literal.InGrammar) (hwhole : operand.literal.whole? = some m)
    (hcomparator : operand.comparator ≠ .equal) :
    (¬ Binary64.Merged n.toInt m →
        operand.judge .coerce (.text (Value.integer n).toText) =
          operand.judge .coerce (.integer n)) ∧
      (Binary64.Merged n.toInt m →
        operand.judge .coerce (.text (Value.integer n).toText) =
            .ok (decide (operand.comparator ∈ [.greaterEqual, .lessEqual])) ∧
          9007199254740992 ≤ n.toInt ∧ 9007199254740992 ≤ m) := by
  have hnumber := Literal.kind_of_whole? hwhole
  have hkind : (Value.text (Value.integer n).toText).kind ≠ operand.literal.kind := by
    rw [hnumber]
    intro h
    cases h
  have hsame : (Value.integer n).kind = operand.literal.kind := hnumber.symm
  have hordering : (operand.comparator != .equal) = true := bne_iff_ne.mpr hcomparator
  rw [Operand.judge_coerce_of_kind_ne hkind, coercedOrder?_toText hliteral hwhole, hordering,
    Bool.true_and, Operand.judge_of_kind_eq hsame, exactOrder?_integer hliteral hwhole]
  constructor
  · intro hapart
    rw [if_neg hapart]
  · intro hmerged
    rw [if_pos hmerged, Comparator.holds_eq hcomparator]
    exact ⟨rfl, hmerged.two_pow_le (Literal.whole?_nonneg hliteral hwhole)⟩

/-- Two numbers of 54 bits that are not merged, though one of them is rounded. -/
theorem judge_integer_text_of_apart :
    let operand : Operand := ⟨"a", .greater, .integer 9007199254740993⟩
    operand.literal.InGrammar ∧
      operand.judge .coerce (.text "9007199254740994") = .ok true := by
  intro operand
  have hgrammar : operand.literal.InGrammar := by decide
  have hapart : ¬ Binary64.Merged (9007199254740994 : Int64).toInt 9007199254740993 := by
    decide +kernel
  have htext : (Value.integer 9007199254740994).toText = "9007199254740994" := by decide
  have hjudge := (judge_integer_text 9007199254740994 operand 9007199254740993 hgrammar rfl
    (by decide)).1 hapart
  rw [htext] at hjudge
  exact ⟨hgrammar, hjudge⟩

/-- The text of a merged integer is not above the number that the integer is above. -/
theorem evaluate_integer_text_of_merged :
    let rule : Rule := .leaf ⟨"a", .greater, .integer 9007199254740992⟩
    let n : Int64 := 9007199254740993
    Rule.parse "a > 9007199254740992" = .ok rule ∧
      (evaluate ⟨.coerce⟩ (.ofLookup fun _ => some (.integer n)) (some rule) ()).1 = true ∧
      (evaluate ⟨.coerce⟩ (.ofLookup fun _ => some (.text (Value.integer n).toText))
        (some rule) ()).1 = false := by
  intro rule n
  refine ⟨rfl, ?_, ?_⟩
  · simp only [rule, evaluate, Rule.verdict_leaf]
    decide +kernel
  · simp only [rule, evaluate, Rule.verdict_leaf]
    decide +kernel

end RecordRules
