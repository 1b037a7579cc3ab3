import RecordRules.Rule.Basic
import RecordRules.RuleText.Token

/-! Reading a rule from text. The tokens are taken from left to right, and the connectives and rules
that they give wait, the latest on top, until a connective and two rules are there and are joined.
So connectives have no precedence, and one that finds nothing to join is left over without effect. -/

namespace RecordRules

/-- Why a text is no rule. -/
inductive MalformedRule where
  /-- No segment of the text has an operand. -/
  | noOperand (text : String)
  /-- No rule is left at the end. -/
  | nothingLeft (text : String)
  /-- Not one but another number of rules is left at the end. -/
  | unjoined (text : String) (count : Nat)
deriving DecidableEq, Repr

def MalformedRule.message : MalformedRule → String
  | .noOperand text => "Malformed rule: no operand found in '" ++ text ++ "'"
  | .nothingLeft text => "Malformed rule: empty rule '" ++ text ++ "'"
  | .unjoined text count =>
      "Malformed rule: rule '" ++ text ++ "' reduced to " ++ count.repr ++ " nodes instead of one"

namespace RuleText

/-- The connectives and the rules that wait to be joined, the latest first. -/
structure Waiting where
  connectives : List Connective
  rules : List Rule

/-- Joins the two latest rules with the latest connective for as long as there are such. -/
def joinLatest : List Connective → List Rule → Waiting
  | connective :: connectives, right :: left :: rules =>
      joinLatest connectives (.join connective left right :: rules)
  | connectives, rules => ⟨connectives, rules⟩

def Waiting.take (waiting : Waiting) : Token → Waiting
  | .connective connective => joinLatest (connective :: waiting.connectives) waiting.rules
  | .operand text => joinLatest waiting.connectives (.leaf text.toOperand :: waiting.rules)
  | .gap _ => joinLatest waiting.connectives waiting.rules

def reduce (tokens : List Token) : Waiting :=
  tokens.foldl Waiting.take ⟨[], []⟩

/-- The one rule that is left of a text in the end. -/
def onlyRule (text : String) (rules : List Rule) : Except MalformedRule Rule :=
  if rules.length = 1 then
    match rules.head? with
    | some rule => .ok rule
    | none => .error (.nothingLeft text)
  else .error (.unjoined text rules.length)

end RuleText

/-- The rule that a text spells. -/
def Rule.parse (text : String) : Except MalformedRule Rule :=
  let tokens := RuleText.tokens text
  if tokens.any RuleText.Token.isOperand then
    RuleText.onlyRule text (RuleText.reduce tokens).rules
  else .error (.noOperand text)

end RecordRules
