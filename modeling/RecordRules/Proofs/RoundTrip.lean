import RecordRules.Proofs.Grammar
import RecordRules.Proofs.Rendering

/-! Reading back the canonical text of a rule. Without its blanks the text is a chain of pieces, one
for each operand, with the opening brackets before the operand and the closing ones after it. No
bracket is in a name or goes on a literal, and no keyword stands in a piece, so each piece gives its
operand and reading gives the left fold of the operands. The brackets themselves are not read: a rule
comes back as itself exactly if every right rule in it is an operand. -/

namespace RecordRules

open RuleText

namespace Chain

variable {α β : Type}

theorem presentSteps_map_some (f : α → β) (steps : List (Connective × α)) :
    presentSteps (steps.map fun step => (step.1, some (f step.2))) =
      steps.map fun step => (step.1, f step.2) := by
  induction steps with
  | nil => rfl
  | cons step steps ih =>
      rw [List.map_cons, presentSteps_cons, ih]
      rfl

theorem present_map_some (f : α → β) (chain : Chain α) :
    (chain.map fun a => some (f a)).present = some (chain.map f) := by
  simp only [present, map, presentSteps_map_some]

end Chain

namespace Rule

/-- The pieces of the canonical text of a rule without blanks, between opening and closing brackets
that stand before and after it. -/
def pieces (opening closing : List Char) : Rule → Chain (List Char)
  | .leaf operand => ⟨opening ++ '(' :: (operand.writtenChars ++ ')' :: closing), []⟩
  | .join connective left right =>
      (left.pieces (opening ++ ['(']) []).append connective (right.pieces [] (')' :: closing))

def Opening (chars : List Char) : Prop :=
  ∀ c ∈ chars, c = '('

def Closing (chars : List Char) : Prop :=
  ∀ c ∈ chars, c = ')'

theorem opening_nil : Opening [] := by
  intro c hc
  cases hc

theorem closing_nil : Closing [] := by
  intro c hc
  cases hc

theorem opening_append_singleton {opening : List Char} (h : Opening opening) :
    Opening (opening ++ ['(']) := by
  intro c hc
  rcases List.mem_append.mp hc with hc | hc
  · exact h c hc
  · exact List.mem_singleton.mp hc

theorem closing_cons {closing : List Char} (h : Closing closing) : Closing (')' :: closing) := by
  intro c hc
  rcases List.mem_cons.mp hc with rfl | hc
  · rfl
  · exact h c hc

/-! ### The text without blanks -/

theorem removeBlanks_append (a b : String) :
    (Text.removeBlanks (a ++ b)).toList =
      (Text.removeBlanks a).toList ++ (Text.removeBlanks b).toList := by
  simp only [Text.toList_removeBlanks, String.toList_append, List.filter_append]

theorem removeBlanks_keyword (connective : Connective) :
    (Text.removeBlanks connective.keyword).toList = connective.keyword.toList := by
  cases connective <;> decide

theorem removeBlanks_toText {operand : Operand} (h : operand.InGrammar) :
    (Text.removeBlanks operand.toText).toList = operand.writtenChars := by
  have hfilter : operand.writtenChars.filter (fun c => !Text.isBlank c) = operand.writtenChars := by
    rw [List.filter_eq_self]
    intro c hc
    rw [h.not_blank hc]
    rfl
  have hblank : (Text.removeBlanks " ").toList = [] := by decide
  rw [Operand.toText]
  simp only [removeBlanks_append, hblank, List.append_nil]
  simp only [Text.toList_removeBlanks, ← List.filter_append, List.append_assoc]
  exact hfilter

theorem source_pieces {rule : Rule} (h : rule.InGrammar) (opening closing : List Char) :
    source (rule.pieces opening closing) =
      opening ++ ((Text.removeBlanks rule.bracketed).toList ++ closing) := by
  have hopen : (Text.removeBlanks "(").toList = ['('] := by decide
  have hclose : (Text.removeBlanks ")").toList = [')'] := by decide
  have hblank : (Text.removeBlanks " ").toList = [] := by decide
  induction rule generalizing opening closing with
  | leaf operand =>
      rw [bracketed]
      simp only [removeBlanks_append, hopen, hclose, removeBlanks_toText (h operand List.mem_cons_self)]
      simp only [pieces, source, List.flatMap_nil, List.append_nil, List.append_assoc,
        List.cons_append, List.nil_append]
  | join connective left right ihl ihr =>
      rw [bracketed]
      simp only [removeBlanks_append, hopen, hclose, hblank, removeBlanks_keyword]
      rw [pieces, source_append, ihl h.left, ihr h.right]
      simp only [List.append_nil, List.append_assoc, List.cons_append, List.nil_append]

/-! ### The pieces -/

theorem firstOperand?_piece {operand : Operand} (h : operand.InGrammar) {opening : List Char}
    (hopening : Opening opening) (closing : List Char) :
    firstOperand? false (opening ++ '(' :: (operand.writtenChars ++ ')' :: closing)) =
      some operand.written := by
  have hskipped : ∀ c ∈ opening ++ ['('], isNameChar c = false := by
    intro c hc
    rw [opening_append_singleton hopening c hc]
    decide
  have hrest : StartsOutside Char.isDigit (')' :: closing) := startsOutside_cons (by decide)
  have hfound := firstOperand?_append hskipped h.name h.isRun_symbol
    (Literal.isLiteralText_toText h.literal) hrest
  simp only [String.ofList_toList] at hfound
  rw [Operand.written, ← hfound, Operand.writtenChars]
  simp only [List.append_assoc, List.cons_append, List.nil_append]

theorem keywordFree_piece {operand : Operand} (h : operand.InGrammar) {opening closing : List Char}
    (hopening : Opening opening) (hclosing : Closing closing) :
    KeywordFree (opening ++ '(' :: (operand.writtenChars ++ ')' :: closing)) := by
  refine keywordFree_append_of_plain (fun c hc => ?_) (keywordFree_cons_of_plain (by decide)
    (keywordFree_append_plain h.keywordFree_writtenChars fun c hc => ?_))
  · rw [hopening c hc]
    decide
  · rw [closing_cons hclosing c hc]
    decide

theorem map_firstOperand?_pieces {rule : Rule} (h : rule.InGrammar) {opening : List Char}
    (hopening : Opening opening) (closing : List Char) :
    (rule.pieces opening closing).map (firstOperand? false) =
      rule.chain.map fun operand => some operand.written := by
  induction rule generalizing opening closing with
  | leaf operand =>
      simp only [pieces, chain, Chain.map, List.map_nil,
        firstOperand?_piece (h operand List.mem_cons_self) hopening]
  | join connective left right ihl ihr =>
      rw [pieces, chain, Chain.map_append, Chain.map_append,
        ihl h.left (opening_append_singleton hopening), ihr h.right opening_nil]

theorem keywordFree_of_mem_pieces {rule : Rule} (h : rule.InGrammar) {opening closing : List Char}
    (hopening : Opening opening) (hclosing : Closing closing) :
    ∀ piece ∈ (rule.pieces opening closing).toList, KeywordFree piece := by
  induction rule generalizing opening closing with
  | leaf operand =>
      intro piece hpiece
      rw [List.mem_singleton.mp hpiece]
      exact keywordFree_piece (h operand List.mem_cons_self) hopening hclosing
  | join connective left right ihl ihr =>
      intro piece hpiece
      rw [pieces, Chain.toList_append] at hpiece
      rcases List.mem_append.mp hpiece with hpiece | hpiece
      · exact ihl h.left (opening_append_singleton hopening) closing_nil piece hpiece
      · exact ihr h.right opening_nil (closing_cons hclosing) piece hpiece

/-! ### Reading back -/

theorem cut_render {rule : Rule} (h : rule.InGrammar) :
    cut (Text.removeBlanks rule.render).toList = rule.pieces [] [] := by
  have hsource := source_pieces h [] []
  rw [List.nil_append, List.append_nil, ← render_eq_bracketed] at hsource
  rw [← hsource]
  exact cut_source (keywordFree_of_mem_pieces h opening_nil closing_nil)

theorem operandChain_render {rule : Rule} (h : rule.InGrammar) :
    operandChain rule.render = some (rule.chain.map Operand.written) := by
  rw [operandChain, cut_render h, writtenOperands, map_firstOperand?_pieces h opening_nil,
    Chain.present_map_some]

theorem spelled_written {rule : Rule} (h : rule.InGrammar) :
    spelled (rule.chain.map Operand.written) = rule.chain.toRule := by
  have hoperands : ∀ operand ∈ rule.chain.toList, operand.written.toOperand = operand := by
    intro operand hoperand
    rw [toList_chain] at hoperand
    exact (h operand hoperand).toOperand_written
  rw [spelled, Chain.map_map_eq_self hoperands]

/-- The canonical text of a rule of the grammar spells the left fold of its operands. -/
theorem parse_render {rule : Rule} (h : rule.InGrammar) :
    Rule.parse rule.render = .ok rule.chain.toRule := by
  rw [parse_of_operandChain_eq_some (operandChain_render h), spelled_written h]

/-- A rule that was read from a text is read again from its canonical text. -/
theorem parse_render_of_parse {text : String} {rule : Rule} (h : Rule.parse text = .ok rule) :
    Rule.parse rule.render = .ok rule := by
  rw [parse_render (inGrammar_of_parse h), toRule_chain_of_leftLeaning (leftLeaning_of_parse h)]

/-- The canonical text of a rule of the grammar, whatever its shape, spells the left fold of its
operands from left to right, joined by the connectives between them in order. So it spells the rule
itself exactly if every right rule in it is an operand, as it is in every rule read from a text. -/
theorem parse_render_eq_leftFold :
    (∀ rule : Rule, rule.InGrammar →
      Rule.parse rule.render = .ok rule.chain.toRule ∧
        (Rule.parse rule.render = .ok rule ↔ rule.LeftLeaning)) ∧
    ∀ (text : String) (rule : Rule), Rule.parse text = .ok rule →
      Rule.parse rule.render = .ok rule := by
  refine ⟨fun rule h => ⟨parse_render h, ?_⟩, fun text rule h => parse_render_of_parse h⟩
  rw [parse_render h, Except.ok.injEq]
  exact toRule_chain_eq_iff rule

/-- A join on the right is read back as one on the left; a rule read from a text is kept. -/
theorem parse_render_join_right :
    let a : Operand := ⟨"a", .greater, .integer 1⟩
    let b : Operand := ⟨"b", .equal, .text "X"⟩
    let c : Operand := ⟨"c", .unrecognized "=<", .integer 3⟩
    let rule : Rule := .join .and (.leaf a) (.join .or (.leaf b) (.leaf c))
    let kept : Rule := .join .or (.join .and (.leaf a) (.leaf b)) (.leaf c)
    (rule.InGrammar ∧ Rule.parse rule.render = .ok kept ∧ Rule.parse rule.render ≠ .ok rule) ∧
      Rule.parse "OR a > 1 OR AND b = 'X' OR c =< 3" = .ok kept ∧
        Rule.parse kept.render = .ok kept := by
  intro a b c rule kept
  have hrule : rule.InGrammar := by decide
  have hright : ¬ rule.LeftLeaning := by decide
  obtain ⟨hread, hleft⟩ := parse_render_eq_leftFold.1 rule hrule
  refine ⟨⟨hrule, hread, fun h => hright (hleft.mp h)⟩, rfl, ?_⟩
  exact parse_render_eq_leftFold.2 "OR a > 1 OR AND b = 'X' OR c =< 3" kept rfl

end Rule

end RecordRules
