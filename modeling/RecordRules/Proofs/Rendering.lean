import RecordRules.Proofs.Chain
import RecordRules.Rule.Rendering

/-! The canonical text by recursion on the rule. While pieces are being written, the pieces that are
left spell the rest of the text, so a subrule on top of them adds its own text and no more. -/

namespace RecordRules.Rule

/-- The canonical text of a rule from those of its parts. -/
def bracketed : Rule → String
  | .leaf operand => "(" ++ operand.toText ++ ")"
  | .join connective left right =>
      "(" ++ left.bracketed ++ " " ++ connective.keyword ++ " " ++ right.bracketed ++ ")"

theorem renderOnto_subrule (rule : Rule) (written : String) (pieces : List Piece) :
    renderOnto written (.subrule rule :: pieces) = renderOnto (written ++ rule.bracketed) pieces := by
  induction rule generalizing written pieces with
  | leaf operand =>
      rw [renderOnto, bracketed]
      simp only [String.append_assoc]
  | join connective left right ihl ihr =>
      rw [renderOnto, ihl, renderOnto, ihr, renderOnto, bracketed]
      simp only [String.append_assoc]

theorem render_eq_bracketed (rule : Rule) : rule.render = rule.bracketed := by
  rw [render, renderOnto_subrule, renderOnto, String.empty_append]

end RecordRules.Rule
