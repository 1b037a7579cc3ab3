import RecordRules.Number.Shortest
import RecordRules.Number.Nearest

/-! The values of a record's attributes: numbers, whole or not, and texts. -/

namespace RecordRules

/-- The two kinds of value, between which there is no natural order. -/
inductive Kind where
  | number
  | text
deriving DecidableEq, Repr

def Kind.name : Kind → String
  | .number => "number"
  | .text => "text"

inductive Value where
  | integer (value : Int64)
  | decimal (value : Number.Binary64)
  | text (value : String)
deriving DecidableEq, Repr

namespace Value

def kind : Value → Kind
  | .integer _ => .number
  | .decimal _ => .number
  | .text _ => .text

/-- The nearest 64-bit floating-point number of a number. -/
def toBinary64? : Value → Option Number.Binary64
  | .integer n => some (.ofInt n.toInt)
  | .decimal x => some x
  | .text _ => none

/-- The text of a value: a number in its shortest form, a text as it is. -/
def toText : Value → String
  | .integer n => n.toInt.repr
  | .decimal x => x.toText
  | .text s => s

end Value

end RecordRules
