import RecordRules.Proofs.Segmentation
import RecordRules.RuleText.Reading

/-! Reading as a left fold. At most one rule waits at any time, and when a piece of text comes, the
connective on top is the one just before it: so an operand is joined with the rule of all operands
before it, by that connective, and every connective below it is never used again. A text with an
operand therefore spells the left fold of its operands, and one without is refused as such. -/

namespace RecordRules

namespace Chain

variable {α : Type}

/-- The steps of a chain with gaps that have something present. -/
def presentSteps (steps : List (Connective × Option α)) : List (Connective × α) :=
  steps.filterMap fun step => step.2.map (step.1, ·)

theorem presentSteps_cons (step : Connective × Option α) (steps : List (Connective × Option α)) :
    presentSteps (step :: steps) = (step.2.map (step.1, ·)).toList ++ presentSteps steps := by
  obtain ⟨connective, found⟩ := step
  cases found <;> rfl

/-- What is present in a chain with gaps. A connective before a gap is left out, and so is one before
the first thing that is present. -/
def present (chain : Chain (Option α)) : Option (Chain α) :=
  match chain.first, presentSteps chain.further with
  | some first, further => some ⟨first, further⟩
  | none, (_, first) :: further => some ⟨first, further⟩
  | none, [] => none

end Chain

namespace RuleText

/-- The rule that a chain of written operands spells. -/
def spelled (chain : Chain OperandText) : Rule :=
  (chain.map OperandText.toOperand).toRule

/-- What is read so far, extended by what follows a connective. -/
def extend? (read : Option Rule) (step : Connective × Option OperandText) : Option Rule :=
  match step.2, read with
  | none, read => read
  | some text, none => some (.leaf text.toOperand)
  | some text, some rule => some (.join step.1 rule (.leaf text.toOperand))

theorem foldl_extend?_some (steps : List (Connective × Option OperandText)) (rule : Rule) :
    steps.foldl extend? (some rule) =
      some (((Chain.presentSteps steps).map fun step => (step.1, step.2.toOperand)).foldl
        Chain.extend rule) := by
  induction steps generalizing rule with
  | nil => rfl
  | cons step steps ih =>
      obtain ⟨connective, found⟩ := step
      cases found with
      | none => exact ih rule
      | some text => exact ih (.join connective rule (.leaf text.toOperand))

theorem foldl_extend?_eq (chain : Chain (Option OperandText)) :
    chain.further.foldl extend? (chain.first.map fun text => .leaf text.toOperand) =
      chain.present.map spelled := by
  obtain ⟨first, further⟩ := chain
  cases first with
  | some text =>
      rw [Option.map_some, foldl_extend?_some]
      rfl
  | none =>
      induction further with
      | nil => rfl
      | cons step further ih =>
          obtain ⟨connective, found⟩ := step
          cases found with
          | none => exact ih
          | some text => exact foldl_extend?_some further (.leaf text.toOperand)

/-! ### One token -/

theorem joinLatest_toList (connectives : List Connective) (read : Option Rule) :
    joinLatest connectives read.toList = ⟨connectives, read.toList⟩ := by
  cases connectives <;> cases read <;> rfl

/-- With two rules waiting, the latest connective joins them and no other one is used. -/
theorem joinLatest_pair (connective : Connective) (connectives : List Connective)
    (left right : Rule) :
    joinLatest (connective :: connectives) [right, left] =
      ⟨connectives, [.join connective left right]⟩ := by
  rw [joinLatest]
  exact joinLatest_toList connectives (some (.join connective left right))

def pieceToken (piece : List Char) : Token :=
  .ofSegment (.text (String.ofList piece))

theorem pieceToken_eq (piece : List Char) :
    pieceToken piece =
      match firstOperand? false piece with
      | some found => .operand found
      | none => .gap (String.ofList piece) := by
  cases hfound : firstOperand? false piece with
  | none => rw [pieceToken, Token.ofSegment, OperandText.find?, String.toList_ofList, hfound]
  | some found => rw [pieceToken, Token.ofSegment, OperandText.find?, String.toList_ofList, hfound]

theorem take_connective (connectives : List Connective) (read : Option Rule)
    (connective : Connective) :
    Waiting.take ⟨connectives, read.toList⟩ (.connective connective) =
      ⟨connective :: connectives, read.toList⟩ :=
  joinLatest_toList (connective :: connectives) read

/-- A piece is read with the connective just before it. -/
theorem take_piece (connectives : List Connective) (read : Option Rule) (connective : Connective)
    (piece : List Char) :
    ∃ left, Waiting.take ⟨connective :: connectives, read.toList⟩ (pieceToken piece) =
      ⟨left, (extend? read (connective, firstOperand? false piece)).toList⟩ := by
  rw [pieceToken_eq]
  cases firstOperand? false piece with
  | none => exact ⟨_, joinLatest_toList (connective :: connectives) read⟩
  | some found =>
      cases read with
      | none => exact ⟨_, joinLatest_toList (connective :: connectives) (some _)⟩
      | some rule => exact ⟨_, joinLatest_pair connective connectives rule _⟩

theorem take_first (piece : List Char) :
    Waiting.take ⟨[], []⟩ (pieceToken piece) =
      ⟨[], ((firstOperand? false piece).map fun text => Rule.leaf text.toOperand).toList⟩ := by
  rw [pieceToken_eq]
  cases firstOperand? false piece <;> rfl

/-! ### All tokens -/

def stepTokens (steps : List (Connective × List Char)) : List Token :=
  steps.flatMap fun step => [.connective step.1, pieceToken step.2]

def chainTokens (pieces : Chain (List Char)) : List Token :=
  pieceToken pieces.first :: stepTokens pieces.further

/-- The written operands of a chain of pieces. -/
def writtenOperands (pieces : Chain (List Char)) : Option (Chain OperandText) :=
  (pieces.map (firstOperand? false)).present

theorem stepTokens_cons (step : Connective × List Char) (steps : List (Connective × List Char)) :
    stepTokens (step :: steps) =
      .connective step.1 :: pieceToken step.2 :: stepTokens steps := by
  simp only [stepTokens, List.flatMap_cons, List.cons_append, List.nil_append]

theorem tokens_eq_chainTokens (text : String) :
    tokens text = chainTokens (cut (Text.removeBlanks text).toList) := by
  rw [tokens, segments_eq_toSegments_cut]
  simp only [toSegments, List.map_cons, List.map_flatMap, List.map_nil]
  rfl

theorem rules_foldl_take (steps : List (Connective × List Char)) (connectives : List Connective)
    (read : Option Rule) :
    ((stepTokens steps).foldl Waiting.take ⟨connectives, read.toList⟩).rules =
      ((steps.map fun step => (step.1, firstOperand? false step.2)).foldl extend? read).toList := by
  induction steps generalizing connectives read with
  | nil => rfl
  | cons step steps ih =>
      obtain ⟨left, hleft⟩ := take_piece connectives read step.1 step.2
      rw [stepTokens_cons, List.foldl_cons, List.foldl_cons, take_connective, hleft, ih]
      rfl

/-- What is left after all tokens of a chain of pieces is the left fold of its operands, if it has
any. -/
theorem rules_reduce_chainTokens (pieces : Chain (List Char)) :
    (reduce (chainTokens pieces)).rules = ((writtenOperands pieces).map spelled).toList := by
  rw [reduce, chainTokens, List.foldl_cons, take_first, rules_foldl_take, writtenOperands,
    ← foldl_extend?_eq]
  rfl

/-! ### The operands among tokens -/

/-- The operands among some tokens in order, each with the token that stands immediately before it. -/
def operandsAfter (before : Option Token) : List Token → List (Option Token × OperandText)
  | [] => []
  | .operand text :: tokens => (before, text) :: operandsAfter (some (.operand text)) tokens
  | token :: tokens => operandsAfter (some token) tokens

def afterConnective (step : Connective × OperandText) : Option Token × OperandText :=
  (some (.connective step.1), step.2)

theorem any_isOperand (before : Option Token) (tokens : List Token) :
    tokens.any Token.isOperand = !(operandsAfter before tokens).isEmpty := by
  induction tokens generalizing before with
  | nil => rfl
  | cons token tokens ih =>
      cases token with
      | operand text => rfl
      | connective connective => exact ih (some (.connective connective))
      | gap text => exact ih (some (.gap text))

theorem operandsAfter_pieceToken (before : Option Token) (piece : List Char) (tokens : List Token) :
    ∃ next, operandsAfter before (pieceToken piece :: tokens) =
      ((firstOperand? false piece).map (before, ·)).toList ++ operandsAfter (some next) tokens := by
  rw [pieceToken_eq]
  cases firstOperand? false piece with
  | none => exact ⟨.gap (String.ofList piece), rfl⟩
  | some found => exact ⟨.operand found, rfl⟩

/-- Each operand but that of the first piece stands right after a connective. -/
theorem operandsAfter_stepTokens (before : Option Token) (steps : List (Connective × List Char)) :
    operandsAfter before (stepTokens steps) =
      (Chain.presentSteps (steps.map fun step => (step.1, firstOperand? false step.2))).map
        afterConnective := by
  induction steps generalizing before with
  | nil => rfl
  | cons step steps ih =>
      obtain ⟨next, hnext⟩ := operandsAfter_pieceToken (some (.connective step.1)) step.2
        (stepTokens steps)
      rw [stepTokens_cons]
      change operandsAfter (some (.connective step.1)) (pieceToken step.2 :: stepTokens steps) = _
      rw [hnext, ih, List.map_cons, Chain.presentSteps_cons, List.map_append]
      cases firstOperand? false step.2 <;> rfl

theorem operandsAfter_chainTokens (pieces : Chain (List Char)) :
    (operandsAfter none (chainTokens pieces) = [] ∧ writtenOperands pieces = none) ∨
      ∃ before chain, operandsAfter none (chainTokens pieces) =
        (before, chain.first) :: chain.further.map afterConnective ∧
        writtenOperands pieces = some chain := by
  obtain ⟨next, hnext⟩ := operandsAfter_pieceToken none pieces.first (stepTokens pieces.further)
  rw [chainTokens, hnext, operandsAfter_stepTokens, writtenOperands, Chain.present]
  simp only [Chain.map]
  cases firstOperand? false pieces.first with
  | some first => exact Or.inr ⟨none, ⟨first, _⟩, rfl, rfl⟩
  | none =>
      cases Chain.presentSteps (pieces.further.map fun step => (step.1, firstOperand? false step.2)) with
      | nil => exact Or.inl ⟨rfl, rfl⟩
      | cons step steps => exact Or.inr ⟨some (.connective step.1), ⟨step.2, steps⟩, rfl, rfl⟩

/-! ### Reading a text -/

/-- The written operands of a text, with the connectives that join them. -/
def operandChain (text : String) : Option (Chain OperandText) :=
  writtenOperands (cut (Text.removeBlanks text).toList)

theorem operandsAfter_tokens (text : String) :
    (operandsAfter none (tokens text) = [] ∧ operandChain text = none) ∨
      ∃ before chain, operandsAfter none (tokens text) =
        (before, chain.first) :: chain.further.map afterConnective ∧
        operandChain text = some chain := by
  rw [tokens_eq_chainTokens]
  exact operandsAfter_chainTokens _

theorem parse_of_operandChain_eq_some {text : String} {chain : Chain OperandText}
    (h : operandChain text = some chain) : Rule.parse text = .ok (spelled chain) := by
  rcases operandsAfter_tokens text with ⟨_, hnone⟩ | ⟨before, other, hafter, _⟩
  · rw [h] at hnone
    cases hnone
  · have hrules : (reduce (tokens text)).rules = [spelled chain] := by
      rw [tokens_eq_chainTokens, rules_reduce_chainTokens]
      rw [operandChain] at h
      rw [h]
      rfl
    have hany : (tokens text).any Token.isOperand = true := by
      rw [any_isOperand none, hafter]
      rfl
    rw [Rule.parse, hany, hrules]
    rfl

theorem parse_of_operandChain_eq_none {text : String} (h : operandChain text = none) :
    Rule.parse text = .error (.noOperand text) := by
  rcases operandsAfter_tokens text with ⟨hafter, _⟩ | ⟨before, chain, _, hchain⟩
  · have hany : (tokens text).any Token.isOperand = false := by
      rw [any_isOperand none, hafter]
      rfl
    rw [Rule.parse, hany]
    rfl
  · rw [h] at hchain
    cases hchain

end RuleText

namespace Rule

open RuleText

/-- A text spells the left fold of its operands, each joined to the rule of those before it by the
connective that stands immediately before it, and no other connective counts; a text without
operands is refused with itself as it was given. The other ways out of reading are never taken. -/
theorem parse_eq_leftFold (text : String) :
    ((∃ (before : Option Token) (first : OperandText) (further : List (Connective × OperandText)),
        operandsAfter none (tokens text) = (before, first) ::
          further.map (fun step => (some (Token.connective step.1), step.2)) ∧
        Rule.parse text = .ok (further.foldl
          (fun rule step => .join step.1 rule (.leaf step.2.toOperand))
          (.leaf first.toOperand))) ∨
      (operandsAfter none (tokens text) = [] ∧
        Rule.parse text = .error (.noOperand text) ∧
        (MalformedRule.noOperand text).message =
          "Malformed rule: no operand found in '" ++ text ++ "'")) ∧
    ∀ shown count, Rule.parse text ≠ .error (.unjoined shown count) ∧
      Rule.parse text ≠ .error (.nothingLeft shown) := by
  rcases operandsAfter_tokens text with ⟨hafter, hnone⟩ | ⟨before, chain, hafter, hsome⟩
  · have hparse := parse_of_operandChain_eq_none hnone
    refine ⟨Or.inr ⟨hafter, hparse, rfl⟩, fun shown count => ?_⟩
    rw [hparse]
    constructor
    · intro h
      cases h
    · intro h
      cases h
  · have hparse := parse_of_operandChain_eq_some hsome
    refine ⟨Or.inl ⟨before, chain.first, chain.further, hafter, ?_⟩, fun shown count => ?_⟩
    · rw [hparse, spelled, Chain.toRule, Chain.map, List.foldl_map]
      rfl
    · rw [hparse]
      constructor
      · intro h
        cases h
      · intro h
        cases h

end Rule

end RecordRules
