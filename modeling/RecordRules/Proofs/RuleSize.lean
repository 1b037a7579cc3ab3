import RecordRules.Proofs.BookHistory
import RecordRules.Proofs.StructuralEvaluation

/-! The rules that come about by reading and combining. A rule read from a text has the operands of the
text in the grammar, one for each token that has one, and is as deep as it has operands, since every
join adds a single operand on the right. A combination has the operands of all its rules and no other.
So whatever is asked of a book, every rule that it gives is of the grammar. -/

namespace RecordRules

namespace Rule

theorem operandCount_eq_length_operands (rule : Rule) :
    rule.operandCount = rule.operands.length := by
  rw [operandCount_eq_length_names, names, List.length_map]

theorem operandCount_pos (rule : Rule) : 0 < rule.operandCount := by
  rw [operandCount_eq_length_operands, ← toList_chain]
  exact Nat.succ_pos _

theorem operandCount_join (connective : Connective) (left right : Rule) :
    (Rule.join connective left right).operandCount = left.operandCount + right.operandCount :=
  fold_join _ _ connective left right

theorem depth_leaf (operand : Operand) : (Rule.leaf operand).depth = 1 :=
  fold_leaf _ _ operand

theorem depth_join (connective : Connective) (left right : Rule) :
    (Rule.join connective left right).depth = 1 + max left.depth right.depth :=
  fold_join _ _ connective left right

/-- Every join of a left-leaning rule adds one operand and one level. -/
theorem depth_of_leftLeaning {rule : Rule} (h : rule.LeftLeaning) :
    rule.depth = rule.operandCount := by
  induction rule with
  | leaf operand => rw [depth_leaf, operandCount_eq_length_operands]; rfl
  | join connective left right ihl ihr =>
      obtain ⟨hright, hleft, hleaning⟩ := h
      have hone : right.operandCount = 1 := by
        cases right with
        | leaf operand => exact operandCount_eq_length_operands _
        | join c l r => cases hright
      have hpos := left.operandCount_pos
      rw [depth_join, operandCount_join, ihl hleft, ihr hleaning, hone]
      omega

/-- The sum of the operand counts of some rules. -/
def totalOperandCount : List Rule → Nat
  | [] => 0
  | rule :: rules => rule.operandCount + totalOperandCount rules

theorem operandCount_foldl_or (rules : List Rule) (rule : Rule) :
    (rules.foldl (.join .or) rule).operandCount = rule.operandCount + totalOperandCount rules := by
  induction rules generalizing rule with
  | nil => rfl
  | cons next rules ih =>
      rw [List.foldl_cons, ih, operandCount_join, totalOperandCount, Nat.add_assoc]

end Rule

/-! ### Operands and tokens -/

namespace RuleText

theorem countP_isOperand (before : Option Token) (tokens : List Token) :
    tokens.countP Token.isOperand = (operandsAfter before tokens).length := by
  induction tokens generalizing before with
  | nil => rfl
  | cons token tokens ih =>
      cases token with
      | operand text =>
          rw [List.countP_cons_of_pos rfl, operandsAfter, List.length_cons, ← ih]
      | connective connective =>
          rw [List.countP_cons_of_neg Bool.false_ne_true]
          exact ih (some (.connective connective))
      | gap text =>
          rw [List.countP_cons_of_neg Bool.false_ne_true]
          exact ih (some (.gap text))

theorem operandCount_spelled (chain : Chain OperandText) :
    (spelled chain).operandCount = chain.further.length + 1 := by
  rw [Rule.operandCount_eq_length_operands, spelled, Rule.operands_toRule, Chain.toList_map,
    List.length_map, Chain.toList, List.length_cons, List.length_map]

end RuleText

theorem Rule.operandCount_of_parse {text : String} {rule : Rule} (h : Rule.parse text = .ok rule) :
    rule.operandCount = (RuleText.tokens text).countP RuleText.Token.isOperand := by
  obtain ⟨chain, hchain, rfl⟩ := Rule.operandChain_of_parse h
  rcases RuleText.operandsAfter_tokens text with ⟨_, hnone⟩ | ⟨before, other, hafter, hother⟩
  · rw [hchain] at hnone
    cases hnone
  · obtain rfl : chain = other := Option.some_inj.mp (hchain.symm.trans hother)
    rw [RuleText.operandCount_spelled, RuleText.countP_isOperand none, hafter, List.length_cons,
      List.length_map]

/-! ### Combinations -/

/-- A combination of rules of the grammar has their operands, each as often as it stands in them. -/
theorem inGrammar_and_operandCount_of_alternatives {rules : List Rule} {combined : Rule}
    (h : alternatives rules = some combined) (hrules : ∀ rule ∈ rules, rule.InGrammar) :
    combined.InGrammar ∧ combined.operandCount = Rule.totalOperandCount rules := by
  cases rules with
  | nil => cases h
  | cons first further =>
      obtain rfl := Option.some_inj.mp h
      obtain ⟨hfirst, hfurther⟩ := List.forall_mem_cons.mp hrules
      refine ⟨Rule.inGrammar_foldl_or hfirst hfurther, ?_⟩
      rw [Rule.operandCount_foldl_or, Rule.totalOperandCount]

theorem inGrammar_of_parsed {rules : List Rule}
    (h : ∀ rule ∈ rules, ∃ text, Rule.parse text = .ok rule) : ∀ rule ∈ rules, rule.InGrammar := by
  intro rule hrule
  obtain ⟨text, htext⟩ := h rule hrule
  exact Rule.inGrammar_of_parse htext

/-! ### Books -/

namespace RuleBook

/-- The rules in what a book gives for an operation. -/
def Answer.rules : Answer → List Rule
  | .created (.ok rule) => [rule]
  | .combination (.ok combined?) => combined?.toList
  | .found rule? => rule?.toList
  | _ => []

theorem Holds.inGrammar {settings : Settings} {rules : List Rule} {book : RuleBook}
    (h : book.Holds settings rules) : ∀ rule ∈ rules, rule.InGrammar :=
  inGrammar_of_parsed h.parsed

/-- Whatever is asked of a book, a rule that it gives is one of its own, a newly read one, or the
combination of its own. -/
theorem Holds.inGrammar_of_mem_answer {settings : Settings} {rules : List Rule} {book : RuleBook}
    (h : book.Holds settings rules) (operation : Operation) :
    ∀ rule ∈ (operation.run book).1.rules, rule.InGrammar := by
  rw [h.run_answer operation]
  intro rule hrule
  cases operation with
  | create text =>
      cases hparse : Rule.parse text with
      | error reason => rw [Operation.answer, hparse] at hrule; cases hrule
      | ok read =>
          rw [Operation.answer, hparse] at hrule
          obtain rfl := List.mem_singleton.mp hrule
          exact Rule.inGrammar_of_parse hparse
  | combine =>
      have hcombined : alternatives rules = some rule := Option.mem_toList.mp hrule
      exact (inGrammar_and_operandCount_of_alternatives hcombined h.inGrammar).1
  | get index =>
      have hget : rules[index]? = some rule := Option.mem_toList.mp hrule
      exact h.inGrammar rule (List.mem_of_getElem? hget)
  | active =>
      have hlast : rules.getLast? = some rule := Option.mem_toList.mp hrule
      exact h.inGrammar rule (List.mem_of_getLast? hlast)
  | evaluate lookup => cases hrule
  | evaluateChecked lookup => cases hrule
  | lines => cases hrule

end RuleBook

/-- A rule read from a text has only operands of the grammar, one on the right of every join, and its
depth and the number of its operands are the number of tokens of the text that are operands. A
combination of rules that were read, or of the texts that they were read from, has only operands of
the grammar and as many of them as its rules have together; and so have the rules that a book gives
after any history of operations. -/
theorem grammar_and_size_of_rules :
    (∀ (text : String) (rule : Rule), Rule.parse text = .ok rule →
      rule.InGrammar ∧ rule.LeftLeaning ∧ rule.depth = rule.operandCount ∧
        rule.operandCount = (RuleText.tokens text).countP RuleText.Token.isOperand) ∧
    (∀ rules : List Rule, rules ≠ [] → (∀ rule ∈ rules, ∃ text, Rule.parse text = .ok rule) →
      ∃ combined, combine rules = .ok (some combined) ∧ combined.InGrammar ∧
        combined.operandCount = Rule.totalOperandCount rules) ∧
    (∀ (texts : List String) (rules : List Rule), rules ≠ [] →
      texts.map Rule.parse = rules.map .ok →
        ∃ combined, combineTexts texts = .ok (some combined) ∧ combined.InGrammar ∧
          combined.operandCount = Rule.totalOperandCount rules) ∧
    ∀ (settings : Settings) (history : List RuleBook.Operation),
      let book := (RuleBook.empty settings).after history
      (∀ rule ∈ book.rules.toList, rule.InGrammar) ∧
        (∀ operation : RuleBook.Operation, ∀ rule ∈ (operation.run book).1.rules,
          rule.InGrammar) ∧
        ∀ combined, book.combine.1 = .ok (some combined) →
          combined.operandCount = Rule.totalOperandCount book.rules.toList := by
  refine ⟨fun text rule h => ?_, fun rules hne hparsed => ?_, fun texts rules hne h => ?_,
    fun settings history => ?_⟩
  · have hleaning := Rule.leftLeaning_of_parse h
    exact ⟨Rule.inGrammar_of_parse h, hleaning, Rule.depth_of_leftLeaning hleaning,
      Rule.operandCount_of_parse h⟩
  · obtain ⟨combined, hcombine, hcombined⟩ := exists_combine hne hparsed
    exact ⟨combined, hcombine,
      inGrammar_and_operandCount_of_alternatives hcombined (inGrammar_of_parsed hparsed)⟩
  · obtain ⟨first, further, rfl⟩ := List.exists_cons_of_ne_nil hne
    have hgrammar : ∀ rule ∈ first :: further, rule.InGrammar := by
      intro rule hrule
      have hmem : Except.ok rule ∈ texts.map Rule.parse := by
        rw [h]
        exact List.mem_map_of_mem hrule
      obtain ⟨text, _, htext⟩ := List.mem_map.mp hmem
      exact Rule.inGrammar_of_parse htext
    exact ⟨_, (combineTexts_eq_ok_iff texts _).mpr ⟨first :: further, h, rfl⟩,
      inGrammar_and_operandCount_of_alternatives rfl hgrammar⟩
  · intro book
    have hbook : book.Holds settings (RuleBook.created history) :=
      (RuleBook.holds_empty settings).after history
    rw [hbook.rules_eq]
    refine ⟨hbook.inGrammar, hbook.inGrammar_of_mem_answer, fun combined hcombine => ?_⟩
    rw [hbook.combine.1, Except.ok.injEq] at hcombine
    exact (inGrammar_and_operandCount_of_alternatives hcombine hbook.inGrammar).2

/-- Two texts, of which the second has connectives that count for nothing and a comparator that is not
recognized. -/
theorem grammar_and_size_of_two :
    let first : Rule := .leaf ⟨"a", .greater, .integer 7⟩
    let second : Rule := .join .or (.leaf ⟨"b", .unrecognized "=<", .text "X"⟩)
      (.leaf ⟨"c", .less, .integer 3⟩)
    (Rule.parse "AND b=<'X' AND OR c<03" = .ok second ∧ second.InGrammar ∧ second.depth = 2 ∧
        (RuleText.tokens "AND b=<'X' AND OR c<03").countP RuleText.Token.isOperand = 2) ∧
      (∃ combined, combine [first, second] = .ok (some combined) ∧ combined.InGrammar ∧
        combined.operandCount = 3) ∧
      ∃ combined, combineTexts ["a>07", "AND b=<'X' AND OR c<03"] = .ok (some combined) ∧
        combined.InGrammar ∧ combined.operandCount = 3 := by
  intro first second
  have hfirst : Rule.parse "a>07" = .ok first := rfl
  have hsecond : Rule.parse "AND b=<'X' AND OR c<03" = .ok second := rfl
  have hparsed : ["a>07", "AND b=<'X' AND OR c<03"].map Rule.parse = [first, second].map .ok := by
    rw [List.map_cons, List.map_singleton, hfirst, hsecond]
    rfl
  have htwo : second.operandCount = 2 := second.operandCount_eq_length_operands
  have hthree : Rule.totalOperandCount [first, second] = 3 := by
    rw [Rule.totalOperandCount, Rule.totalOperandCount, htwo, first.operandCount_eq_length_operands]
    rfl
  obtain ⟨hread, hcombine, htexts, _⟩ := grammar_and_size_of_rules
  obtain ⟨hgrammar, _, hdepth, hcount⟩ := hread _ second hsecond
  have hrules : ∀ rule ∈ [first, second], ∃ text, Rule.parse text = .ok rule := by
    intro rule hrule
    rcases List.mem_cons.mp hrule with rfl | hrule
    · exact ⟨_, hfirst⟩
    · obtain rfl := List.mem_singleton.mp hrule
      exact ⟨_, hsecond⟩
  have hne : [first, second] ≠ [] := List.cons_ne_nil _ _
  refine ⟨⟨hsecond, hgrammar, hdepth.trans htwo, hcount.symm.trans htwo⟩, ?_, ?_⟩
  · rw [← hthree]
    exact hcombine [first, second] hne hrules
  · rw [← hthree]
    exact htexts _ [first, second] hne hparsed

end RecordRules
