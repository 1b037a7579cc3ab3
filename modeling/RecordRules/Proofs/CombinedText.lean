import RecordRules.Proofs.JoinedText
import RecordRules.Proofs.Recombination

/-! Combinations reread. The canonical text of a combination, read again, gives the left fold of all its
operands, with an `OR` before the first operand of each later rule. The texts of the rules, written one
after the other with `OR` between them, have the same operands with the same connectives, as long as
no later text has a connective of its own before its first operand. -/

namespace RecordRules

namespace RuleText

/-- No connective stands before the first operand of a text. -/
def NoConnectiveFirst (text : String) : Prop :=
  ∀ connective : Connective,
    Token.connective connective ∉ (tokens text).takeWhile fun token => !token.isOperand

theorem leadingConnective_eq {text : String} {chain : Chain OperandText}
    (h : operandChain text = some chain) (hfirst : NoConnectiveFirst text) (given : Connective) :
    leadingConnective given text = given := by
  rcases tokens_of_operandChain h given with ⟨_, _, hgiven⟩ | ⟨before, rest, htokens, hbefore⟩
  · exact hgiven
  · refine absurd ?_ (hfirst (leadingConnective given text))
    have hskipped : ∀ token ∈ before, (!token.isOperand) = true := fun token htoken => by
      rw [hbefore token htoken]
      rfl
    rw [htokens, List.takeWhile_append_of_pos hskipped]
    exact List.mem_append_right _ List.mem_cons_self

/-- The text has the operands of a rule in order, with the connectives between them. -/
def Spells (text : String) (rule : Rule) : Prop :=
  ∃ chain, operandChain text = some chain ∧ chain.map OperandText.toOperand = rule.chain

namespace Spells

variable {text a b : String} {rule left right : Rule}

theorem parse (h : Spells text rule) : Rule.parse text = .ok rule.chain.toRule := by
  obtain ⟨chain, hchain, hrule⟩ := h
  rw [parse_of_operandChain_eq_some hchain, spelled, hrule]

theorem of_parse (h : Rule.parse text = .ok rule) : Spells text rule := by
  obtain ⟨chain, hchain, rfl⟩ := Rule.operandChain_of_parse h
  exact ⟨chain, hchain, (Rule.chain_toRule _).symm⟩

theorem render (h : rule.InGrammar) : Spells rule.render rule := by
  refine ⟨_, Rule.operandChain_render h, Chain.map_map_eq_self fun operand hoperand => ?_⟩
  rw [Rule.toList_chain] at hoperand
  exact (h operand hoperand).toOperand_written

/-- A keyword between two texts joins their rules, as far as operands and connectives go. -/
theorem join (ha : Spells a left) (hb : Spells b right) (hfirst : NoConnectiveFirst b)
    (connective : Connective) :
    Spells (a ++ connective.keyword ++ b) (.join connective left right) := by
  obtain ⟨first, hchainA, hleft⟩ := ha
  obtain ⟨second, hchainB, hright⟩ := hb
  refine ⟨first.append connective second, ?_, ?_⟩
  · rw [operandChain_join connective hchainA hchainB, leadingConnective_eq hchainB hfirst]
  · rw [Chain.map_append, hleft, hright, Rule.chain]

/-- Texts with `OR` between them spell the chain of alternatives of their rules. -/
theorem intercalate {texts : List String} {rules : List Rule}
    (h : texts.map Rule.parse = rules.map .ok) (hfirst : ∀ text ∈ texts, NoConnectiveFirst text)
    (ha : Spells a rule) :
    Spells (Connective.or.keyword.intercalate (a :: texts)) (rules.foldl (.join .or) rule) := by
  induction texts generalizing a rule rules with
  | nil =>
      cases rules with
      | nil =>
          rw [String.intercalate_singleton]
          exact ha
      | cons later rules => cases h
  | cons next texts ih =>
      cases rules with
      | nil => cases h
      | cons later rules =>
          obtain ⟨hnext, hrest⟩ := List.cons_eq_cons.mp h
          obtain ⟨hnextFirst, hrestFirst⟩ := List.forall_mem_cons.mp hfirst
          -- the first two texts, taken as one, spell the join of their rules
          have hjoin := ha.join (of_parse hnext) hnextFirst .or
          rw [String.intercalate_cons_cons, ← String.intercalate_cons_append, List.foldl_cons]
          exact ih hrest hrestFirst hjoin

end Spells

end RuleText

open RuleText

theorem exists_map_parse {texts : List String}
    (h : ∀ text ∈ texts, ∃ rule, Rule.parse text = .ok rule) :
    ∃ rules : List Rule, texts.map Rule.parse = rules.map .ok := by
  induction texts with
  | nil => exact ⟨[], rfl⟩
  | cons text texts ih =>
      obtain ⟨⟨rule, hrule⟩, hrest⟩ := List.forall_mem_cons.mp h
      obtain ⟨rules, hrules⟩ := ih hrest
      exact ⟨rule :: rules, by rw [List.map_cons, List.map_cons, hrule, hrules]⟩

/-- Texts that are rules, none of which but perhaps the first has a connective before its first
operand, can be combined. The canonical text of the combination, read again, is the rule that the
texts are if they are written one after the other with `OR` between them. -/
theorem parse_render_combineTexts {texts : List String} (hne : texts ≠ [])
    (hparsed : ∀ text ∈ texts, ∃ rule, Rule.parse text = .ok rule)
    (hfirst : ∀ text ∈ texts.tail, NoConnectiveFirst text) :
    ∃ combined again, combineTexts texts = .ok (some combined) ∧
      Rule.parse combined.render = .ok again ∧
      Rule.parse (Connective.or.keyword.intercalate texts) = .ok again := by
  obtain ⟨first, further, rfl⟩ := List.exists_cons_of_ne_nil hne
  obtain ⟨⟨rule, hrule⟩, hparsedFurther⟩ := List.forall_mem_cons.mp hparsed
  obtain ⟨rules, hrules⟩ := exists_map_parse hparsedFurther
  have hgrammar : (rules.foldl (.join .or) rule).InGrammar := by
    apply Rule.inGrammar_foldl_or (Rule.inGrammar_of_parse hrule)
    intro later hlater
    have hmem : Except.ok later ∈ further.map Rule.parse := by
      rw [hrules]
      exact List.mem_map_of_mem hlater
    obtain ⟨text, _, htext⟩ := List.mem_map.mp hmem
    exact Rule.inGrammar_of_parse htext
  refine ⟨rules.foldl (.join .or) rule, (rules.foldl (.join .or) rule).chain.toRule, ?_,
    (Spells.render hgrammar).parse, (Spells.intercalate hrules hfirst (.of_parse hrule)).parse⟩
  refine (combineTexts_eq_ok_iff _ _).mpr ⟨rule :: rules, ?_, rfl⟩
  rw [List.map_cons, List.map_cons, hrule, hrules]

/-- Two texts with surplus connectives, of which the first has one before its first operand. The `AND`
of the second text is read back as one between all that stands before it and the last operand. -/
theorem parse_render_combineTexts_of_two :
    let texts := ["OR a = 1 AND AND b > 2 OR", "c < 3 AND d = 'X' OR"]
    let a : Rule := .leaf ⟨"a", .equal, .integer 1⟩
    let b : Rule := .leaf ⟨"b", .greater, .integer 2⟩
    let c : Rule := .leaf ⟨"c", .less, .integer 3⟩
    let d : Rule := .leaf ⟨"d", .equal, .text "X"⟩
    let again : Rule := .join .and (.join .or (.join .and a b) c) d
    (texts.map Rule.parse = [.ok (.join .and a b), .ok (.join .and c d)] ∧
        NoConnectiveFirst "c < 3 AND d = 'X' OR") ∧
      Rule.parse ("OR".intercalate texts) = .ok again ∧
      ∃ combined, combineTexts texts = .ok (some combined) ∧
        Rule.parse combined.render = .ok again := by
  intro texts a b c d again
  have hparses : texts.map Rule.parse = [.ok (.join .and a b), .ok (.join .and c d)] := rfl
  have hfirst : NoConnectiveFirst "c < 3 AND d = 'X' OR" := by
    intro connective h
    cases h
  have htext : "OR".intercalate texts = "OR a = 1 AND AND b > 2 ORORc < 3 AND d = 'X' OR" := by
    decide +kernel
  have hjoined : Rule.parse ("OR".intercalate texts) = .ok again := by
    rw [htext]
    rfl
  have hparsed : ∀ text ∈ texts, ∃ rule, Rule.parse text = .ok rule := by
    intro text htext
    rcases List.mem_cons.mp htext with rfl | htext
    · exact ⟨_, rfl⟩
    · rw [List.mem_singleton.mp htext]
      exact ⟨_, rfl⟩
  have hlater : ∀ text ∈ texts.tail, NoConnectiveFirst text := by
    intro text htext
    rw [List.mem_singleton.mp htext]
    exact hfirst
  obtain ⟨combined, other, hcombine, hrender, hother⟩ :=
    parse_render_combineTexts (List.cons_ne_nil _ _) hparsed hlater
  have hkeyword : Connective.or.keyword = "OR" := rfl
  rw [hkeyword, hjoined] at hother
  obtain rfl : again = other := Except.ok.inj hother
  exact ⟨⟨hparses, hfirst⟩, hjoined, combined, hcombine, hrender⟩

end RecordRules
