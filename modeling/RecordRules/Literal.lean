import RecordRules.Number.Numeral
import RecordRules.Text.Quote
import RecordRules.Value

/-! Literals of a rule. A number beyond the 64-bit integers keeps its digits, so that no precision
is lost however long it is. -/

namespace RecordRules

inductive Literal where
  | integer (value : Int64)
  /-- Digits beyond the 64-bit integers, without leading zeros. -/
  | digits (text : String)
  /-- The inside of a quoted literal. -/
  | text (value : String)
deriving DecidableEq, Repr

namespace Literal

/-- The number literal that a text spells: an integer if it is one in range, else its digits. -/
def ofNumberText (text : String) : Literal :=
  match Number.wholeNumber? text.toList >>= Number.int64? with
  | some n => .integer n
  | none => .digits (String.ofList (text.toList.dropWhile fun c => c == '0'))

/-- The literal with a given spelling: quoted text, or a number. -/
def ofToken (token : String) : Literal :=
  if token.toList.head? = some Text.quote then .text (Text.unquoted token)
  else ofNumberText token

def kind : Literal → Kind
  | .integer _ => .number
  | .digits _ => .number
  | .text _ => .text

/-- The nearest 64-bit floating-point number of a number; digits beyond its range are infinity. -/
def toBinary64? : Literal → Option Number.Binary64
  | .integer n => some (.ofInt n.toInt)
  | .digits s => Number.binary64? s.toList
  | .text _ => none

/-- A literal as written in rule text. -/
def toText : Literal → String
  | .integer n => n.toInt.repr
  | .digits s => s
  | .text s => Text.inQuotes s

end Literal

end RecordRules
