import RecordRules.Comparator
import RecordRules.Literal

/-! Operands: the comparisons of one attribute with one literal that rules are made of. -/

namespace RecordRules

/-- The comparison of the attribute of a given name with a literal. -/
structure Operand where
  name : String
  comparator : Comparator
  literal : Literal
deriving DecidableEq, Repr

/-- An operand as written in rule text, with a blank on both sides of the comparator. -/
def Operand.toText (o : Operand) : String :=
  o.name ++ " " ++ o.comparator.symbol ++ " " ++ o.literal.toText

end RecordRules
