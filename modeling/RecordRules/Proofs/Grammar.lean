import RecordRules.Proofs.LiteralText
import RecordRules.Proofs.Reduction

/-! Operands and rules of the grammar: those whose parts can be written in a rule text. What is read
from any text is of the grammar, and its operands stand on the right of every join. -/

namespace RecordRules

open RuleText

/-- A lower-case name, the comparator of a run of its characters, and a literal of the grammar. -/
structure Operand.InGrammar (operand : Operand) : Prop where
  name : IsRun isNameChar operand.name.toList
  comparator : ∃ symbol : String,
    IsRun isComparatorChar symbol.toList ∧ operand.comparator = .ofSymbol symbol
  literal : operand.literal.InGrammar

/-- The comparator of an operand of the grammar is the one of its own symbol. -/
theorem Operand.inGrammar_iff (operand : Operand) :
    operand.InGrammar ↔ IsRun isNameChar operand.name.toList ∧
      (IsRun isComparatorChar operand.comparator.symbol.toList ∧
        .ofSymbol operand.comparator.symbol = operand.comparator) ∧
      operand.literal.InGrammar := by
  constructor
  · rintro ⟨hname, ⟨symbol, hrun, hsymbol⟩, hliteral⟩
    rw [hsymbol, Comparator.symbol_ofSymbol]
    exact ⟨hname, ⟨hrun, rfl⟩, hliteral⟩
  · rintro ⟨hname, ⟨hrun, hsymbol⟩, hliteral⟩
    exact ⟨hname, ⟨operand.comparator.symbol, hrun, hsymbol.symm⟩, hliteral⟩

instance (operand : Operand) : Decidable operand.InGrammar :=
  decidable_of_iff _ operand.inGrammar_iff.symm

/-- Every operand of the rule is of the grammar; the rule may have any shape. -/
def Rule.InGrammar (rule : Rule) : Prop :=
  ∀ operand ∈ rule.operands, operand.InGrammar

instance (rule : Rule) : Decidable rule.InGrammar :=
  inferInstanceAs (Decidable (∀ operand ∈ rule.operands, operand.InGrammar))

theorem Rule.InGrammar.left {connective : Connective} {left right : Rule}
    (h : (Rule.join connective left right).InGrammar) : left.InGrammar :=
  fun operand hmem => h operand (List.mem_append_left _ hmem)

theorem Rule.InGrammar.right {connective : Connective} {left right : Rule}
    (h : (Rule.join connective left right).InGrammar) : right.InGrammar :=
  fun operand hmem => h operand (List.mem_append_right _ hmem)

namespace Operand

/-- The parts of an operand as written. -/
def written (operand : Operand) : OperandText :=
  ⟨operand.name, operand.comparator.symbol, operand.literal.toText⟩

/-- The characters of an operand as written without blanks. -/
def writtenChars (operand : Operand) : List Char :=
  operand.name.toList ++ (operand.comparator.symbol.toList ++ operand.literal.toText.toList)

variable {operand : Operand}

theorem InGrammar.isRun_symbol (h : operand.InGrammar) :
    IsRun isComparatorChar operand.comparator.symbol.toList :=
  (operand.inGrammar_iff.mp h).2.1.1

theorem InGrammar.toOperand_written (h : operand.InGrammar) : operand.written.toOperand = operand := by
  have hsymbol : Comparator.ofSymbol operand.comparator.symbol = operand.comparator :=
    (operand.inGrammar_iff.mp h).2.1.2
  rw [written, OperandText.toOperand, hsymbol, Literal.ofToken_toText h.literal]

end Operand

namespace RuleText

theorem IsLiteralText.not_blank {literal : List Char} (h : IsLiteralText literal) {c : Char}
    (hc : c ∈ literal) : Text.isBlank c = false := by
  rcases h with hdigits | ⟨letters, hletters, rfl⟩
  · have hcode := (isDigit_iff c).mp (hdigits.2 c hc)
    exact isBlank_eq_false (by omega) (by omega)
  · have hquote : Text.isBlank Text.quote = false := by decide
    rcases List.mem_cons.mp hc with rfl | hc
    · exact hquote
    · rcases List.mem_append.mp hc with hc | hc
      · have hcode := (isAlpha_iff c).mp (hletters.2 c hc)
        exact isBlank_eq_false (by omega) (by omega)
      · rw [List.mem_singleton.mp hc]
        exact hquote

end RuleText

namespace Operand

variable {operand : Operand}

theorem InGrammar.not_blank (h : operand.InGrammar) {c : Char} (hc : c ∈ operand.writtenChars) :
    Text.isBlank c = false := by
  rcases List.mem_append.mp hc with hc | hc
  · have hcode := (isNameChar_iff c).mp (h.name.2 c hc)
    exact isBlank_eq_false (by omega) (by omega)
  · rcases List.mem_append.mp hc with hc | hc
    · have hcode := (isComparatorChar_iff c).mp (h.isRun_symbol.2 c hc)
      exact isBlank_eq_false (by omega) (by omega)
    · exact (Literal.isLiteralText_toText h.literal).not_blank hc

theorem InGrammar.keywordFree_writtenChars (h : operand.InGrammar) :
    KeywordFree operand.writtenChars := by
  refine keywordFree_append_of_plain (fun c hc => ?_)
    (keywordFree_append_of_plain (fun c hc => ?_) (Literal.keywordFree_toText h.literal))
  · have hcode := (isNameChar_iff c).mp (h.name.2 c hc)
    rw [Bool.eq_false_iff, ne_eq, isUpper_iff]
    omega
  · have hcode := (isComparatorChar_iff c).mp (h.isRun_symbol.2 c hc)
    rw [Bool.eq_false_iff, ne_eq, isUpper_iff]
    omega

end Operand

/-! ### What is read -/

namespace Chain

variable {α : Type}

theorem mem_of_mem_presentSteps {steps : List (Connective × Option α)} {step : Connective × α}
    (h : step ∈ presentSteps steps) : (step.1, some step.2) ∈ steps := by
  obtain ⟨⟨connective, found⟩, hmem, hfound⟩ := List.mem_filterMap.mp h
  obtain ⟨a, rfl, hstep⟩ := Option.map_eq_some_iff.mp hfound
  rw [← hstep]
  exact hmem

theorem mem_of_present {gaps : Chain (Option α)} {chain : Chain α} (h : gaps.present = some chain)
    {a : α} (ha : a ∈ chain.toList) : some a ∈ gaps.toList := by
  obtain ⟨first, further⟩ := gaps
  have hlater : ∀ step ∈ presentSteps further, some step.2 ∈ (Chain.mk first further).toList :=
    fun step hstep => List.mem_cons_of_mem _ (List.mem_map_of_mem (mem_of_mem_presentSteps hstep))
  have hsteps : ∀ steps ⊆ presentSteps further, a ∈ steps.map Prod.snd →
      some a ∈ (Chain.mk first further).toList := by
    intro steps hsubset hmem
    obtain ⟨step, hstep, rfl⟩ := List.mem_map.mp hmem
    exact hlater step (hsubset hstep)
  rw [present] at h
  cases first with
  | some first =>
      cases h
      rcases List.mem_cons.mp ha with rfl | ha
      · exact List.mem_cons_self
      · exact hsteps _ (List.Subset.refl _) ha
  | none =>
      cases hfurther : presentSteps further with
      | nil =>
          rw [hfurther] at h
          cases h
      | cons step steps =>
          rw [hfurther] at h hsteps
          cases h
          exact hsteps _ (List.Subset.refl _) ha

end Chain

namespace RuleText

/-- An operand found in a piece without keywords is of the grammar. -/
theorem inGrammar_of_firstOperand? {piece : List Char} {found : OperandText}
    (hpiece : KeywordFree piece) (h : firstOperand? false piece = some found) :
    found.toOperand.InGrammar := by
  obtain ⟨start, hsuffix, hstart⟩ := firstOperand?_eq_some h
  obtain ⟨name, comparator, literal, hname, hcomparator, hliteral, hstarts, rfl⟩ :=
    operandAt?_eq_some hstart
  have hinside : literal <:+: piece := by
    have hpart : literal <:+ name ++ (comparator ++ literal) :=
      (List.suffix_append comparator literal).trans (List.suffix_append name _)
    exact (hpart.isInfix.trans hstarts.isInfix).trans hsuffix.isInfix
  refine ⟨?_, ⟨String.ofList comparator, ?_, rfl⟩, Literal.inGrammar_ofToken ?_ ?_⟩
  · simpa only [OperandText.toOperand, String.toList_ofList] using hname
  · simpa only [String.toList_ofList] using hcomparator
  · simpa only [String.toList_ofList] using hliteral
  · intro connective hkeyword
    rw [String.toList_ofList] at hkeyword
    exact hpiece connective (hkeyword.trans hinside)

theorem inGrammar_of_mem_operandChain {text : String} {chain : Chain OperandText}
    (h : operandChain text = some chain) {found : OperandText} (hfound : found ∈ chain.toList) :
    found.toOperand.InGrammar := by
  have hmem := Chain.mem_of_present h hfound
  rw [Chain.toList_map] at hmem
  obtain ⟨piece, hpiece, hfirst⟩ := List.mem_map.mp hmem
  exact inGrammar_of_firstOperand? (keywordFree_of_mem_cut hpiece) hfirst

end RuleText

namespace Rule

theorem operandChain_of_parse {text : String} {rule : Rule} (h : Rule.parse text = .ok rule) :
    ∃ chain, operandChain text = some chain ∧ rule = spelled chain := by
  cases hchain : operandChain text with
  | none =>
      rw [parse_of_operandChain_eq_none hchain] at h
      cases h
  | some chain =>
      rw [parse_of_operandChain_eq_some hchain] at h
      cases h
      exact ⟨chain, rfl, rfl⟩

theorem inGrammar_of_parse {text : String} {rule : Rule} (h : Rule.parse text = .ok rule) :
    rule.InGrammar := by
  obtain ⟨chain, hchain, rfl⟩ := operandChain_of_parse h
  intro operand hoperand
  rw [spelled, operands_toRule, Chain.toList_map] at hoperand
  obtain ⟨found, hfound, rfl⟩ := List.mem_map.mp hoperand
  exact inGrammar_of_mem_operandChain hchain hfound

theorem leftLeaning_of_parse {text : String} {rule : Rule} (h : Rule.parse text = .ok rule) :
    rule.LeftLeaning := by
  obtain ⟨chain, _, rfl⟩ := operandChain_of_parse h
  exact leftLeaning_toRule _

end Rule

end RecordRules
