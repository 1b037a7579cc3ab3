import RecordRules.Rule.Basic

/-! The canonical text of a rule: every operand and every join in brackets of its own. The text is
written piece by piece from a list of what is still to be written. -/

namespace RecordRules.Rule

/-- A piece of text still to be written. -/
inductive Piece where
  | subrule (rule : Rule)
  | connective (connective : Connective)
  | close

/-- A bound on the steps that writing a piece takes. -/
def Piece.weight : Piece → Nat
  | .subrule rule => 3 * rule.size
  | .connective _ => 1
  | .close => 1

/-- A bound on the steps that writing the pieces takes. -/
def piecesWeight : List Piece → Nat
  | [] => 0
  | piece :: pieces => piece.weight + piecesWeight pieces

/-- Writes the pieces after `written`. -/
def renderOnto (written : String) (pieces : List Piece) : String :=
  match pieces with
  | [] => written
  | .subrule (.leaf operand) :: pieces => renderOnto (written ++ "(" ++ operand.toText ++ ")") pieces
  | .subrule (.join connective left right) :: pieces =>
      renderOnto (written ++ "(")
        (.subrule left :: .connective connective :: .subrule right :: .close :: pieces)
  | .connective connective :: pieces =>
      renderOnto (written ++ " " ++ connective.keyword ++ " ") pieces
  | .close :: pieces => renderOnto (written ++ ")") pieces
termination_by piecesWeight pieces
decreasing_by
  all_goals
    simp only [piecesWeight, Piece.weight, size]
    omega

/-- The canonical text, such as `((age > 30) AND (status = 'active'))`. -/
def render (rule : Rule) : String :=
  renderOnto "" [.subrule rule]

end RecordRules.Rule
