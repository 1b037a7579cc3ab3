import RecordRules.Json.Writer

/-! Settings of an evaluation: how a text is compared with a number. -/

namespace RecordRules

/-- What a comparison of a text with a number gives. -/
inductive Policy where
  /-- It does not hold. -/
  | alwaysFalse
  /-- Comparators other than equality compare the number that the text spells. -/
  | coerce
  /-- It does not hold, and a checked evaluation reports it. -/
  | reject
deriving DecidableEq, Repr, Inhabited

namespace Policy

def name : Policy → String
  | .alwaysFalse => "always_false"
  | .coerce => "coerce"
  | .reject => "reject"

def ofName? (text : String) : Option Policy :=
  [alwaysFalse, coerce, reject].find? fun policy => policy.name == text

theorem ofName?_name (policy : Policy) : ofName? policy.name = some policy := by
  cases policy <;> rfl

end Policy

structure Settings where
  crossKind : Policy := .alwaysFalse
deriving DecidableEq, Repr, Inhabited

namespace Settings

def crossKindKey : String :=
  "cross_type"

def toJson (settings : Settings) : Json :=
  .object [(crossKindKey, .string settings.crossKind.name)]

end Settings

end RecordRules
