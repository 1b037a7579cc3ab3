import RecordRules.RuleText.OperandText
import RecordRules.RuleText.Segment
import RecordRules.Text.Blank

/-! The tokens of a rule text: its segments without blanks, of which every text segment gives its
first operand, or a gap when it has none. -/

namespace RecordRules.RuleText

inductive Token where
  | connective (connective : Connective)
  | operand (text : OperandText)
  | gap (text : String)
deriving DecidableEq, Repr

def Token.isOperand : Token → Bool
  | .operand _ => true
  | _ => false

def Token.ofSegment : Segment → Token
  | .connective joint => .connective joint
  | .text text =>
      match OperandText.find? text with
      | some found => .operand found
      | none => .gap text

def tokens (text : String) : List Token :=
  (segments (Text.removeBlanks text)).map Token.ofSegment

end RecordRules.RuleText
