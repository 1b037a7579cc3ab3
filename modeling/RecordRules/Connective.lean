/-! The two connectives that join rules, their keywords, and their effect on verdicts. -/

namespace RecordRules

inductive Connective where
  | and
  | or
deriving DecidableEq, Repr, Inhabited

namespace Connective

/-- The keyword of a connective in rule text. -/
def keyword : Connective → String
  | .and => "AND"
  | .or => "OR"

def ofKeyword? (text : String) : Option Connective :=
  if text = Connective.and.keyword then some .and
  else if text = Connective.or.keyword then some .or
  else none

def apply : Connective → Bool → Bool → Bool
  | .and, left, right => left && right
  | .or, left, right => left || right

theorem ofKeyword?_keyword (c : Connective) : ofKeyword? c.keyword = some c := by
  cases c <;> rfl

end Connective

end RecordRules
