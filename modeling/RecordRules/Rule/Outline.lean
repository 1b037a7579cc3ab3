import RecordRules.Rule.Walk

/-! The outline of a rule: a tree of labels for display. A leaf is labelled with an operand, a
branch with a connective. -/

namespace RecordRules

inductive Outline where
  | leaf (label : String)
  | branch (label : String) (left right : Outline)
deriving DecidableEq, Repr

namespace Outline

def leafCount : Outline → Nat
  | .leaf _ => 1
  | .branch _ left right => left.leafCount + right.leafCount

/-- The height of an outline; a lone leaf has depth one. -/
def depth : Outline → Nat
  | .leaf _ => 1
  | .branch _ left right => 1 + max left.depth right.depth

/-- The number of nodes from the root down along left children. -/
def leftSpine : Outline → Nat
  | .leaf _ => 1
  | .branch _ left _ => left.leftSpine + 1

end Outline

/-- The outline of a rule. -/
def Rule.outline : Rule → Outline :=
  Rule.fold (fun operand => .leaf operand.toText)
    fun connective left right => .branch connective.keyword left right

end RecordRules
