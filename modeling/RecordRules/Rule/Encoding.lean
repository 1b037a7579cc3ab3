import RecordRules.Json.Writer
import RecordRules.Rule.Outline

/-! The JSON encodings of rules and of their outlines. A literal is encoded without its kind: a
64-bit integer as a number, digits and text as strings. -/

namespace RecordRules

def Literal.toJson : Literal → Json
  | .integer n => .number (.ofInt n.toInt)
  | .digits s => .string s
  | .text s => .string s

/-- A comparator in JSON is its symbol. -/
def Comparator.toJson (comparator : Comparator) : Json :=
  .string comparator.symbol

/-- A connective in JSON is its keyword. -/
def Connective.toJson (connective : Connective) : Json :=
  .string connective.keyword

def Operand.toJson (operand : Operand) : Json :=
  .object [("type", .string "operand"), ("attribute", .string operand.name),
    ("comparator", operand.comparator.toJson), ("literal", operand.literal.toJson)]

/-- A join in JSON, of two rules that are encoded already. -/
def joinToJson (connective : Connective) (left right : Json) : Json :=
  .object [("type", .string "operator"), ("connective", connective.toJson), ("left", left),
    ("right", right)]

/-- A rule in JSON. -/
def Rule.toJson : Rule → Json :=
  Rule.fold Operand.toJson joinToJson

/-- An outline in JSON; a leaf has no list of children. -/
def Outline.toJson : Outline → Json
  | .leaf label => .object [("name", .string label)]
  | .branch label left right =>
      .object [("name", .string label), ("children", .array [left.toJson, right.toJson])]

end RecordRules
