import RecordRules.Connective
import RecordRules.Operand

/-! Rules: operands joined by connectives. A rule read from text is as deep as it is long, so every
walk over a rule keeps the work that is left on a list of its own; `size` bounds that work. -/

namespace RecordRules

inductive Rule where
  | leaf (operand : Operand)
  | join (connective : Connective) (left right : Rule)
deriving Repr

namespace Rule

/-- The number of operands and joins of a rule. -/
def size : Rule → Nat
  | .leaf _ => 1
  | .join _ left right => left.size + right.size + 1

def isOperand : Rule → Bool
  | .leaf _ => true
  | .join _ _ _ => false

end Rule

end RecordRules
