import RecordRules.Operand
import RecordRules.Settings.Basic
import RecordRules.Text.Blank

/-! The judgement of an operand on a value. Values of one kind have an exact order: texts by their
characters, numbers by what they denote, digits of a literal without rounding. Values of different
kinds are judged as the settings say. Quotes inside a record's text never count. -/

namespace RecordRules

/-- A comparison of a number with a text that the settings do not allow. -/
structure TypeMismatch where
  name : String
  expected : Kind
  actual : Kind
deriving DecidableEq, Repr

def TypeMismatch.message (mismatch : TypeMismatch) : String :=
  "Type mismatch on '" ++ mismatch.name ++ "': rule expects " ++ mismatch.expected.name ++
    ", record holds " ++ mismatch.actual.name

/-! ### The order of values of one kind -/

/-- The order of two digit runs without leading zeros: the longer one is larger, and of two equally
long ones the one with the larger first different digit. -/
def compareDigitRuns (a b : String) : Ordering :=
  (compare a.utf8ByteSize b.utf8ByteSize).then (compare a b)

/-- The order of a floating-point number and a 64-bit integer. The floating-point number nearest to the
integer decides, unless it is the given one: this one is then whole, so that the integers decide. -/
def compareToInteger? (x : Number.Binary64) (n : Int64) : Option Ordering :=
  match x.compare? (.ofInt n.toInt) with
  | some .eq => some (compare x.truncated n.toInt)
  | order => order

/-- The first whole number beyond the 64-bit integers, `2 ^ 63`. -/
def int64Bound : Int :=
  9223372036854775808

/-- The order of a floating-point number and digits beyond the 64-bit integers. From the bound on
every finite floating-point number is whole. -/
def compareToDigits? (x : Number.Binary64) (digits : String) : Option Ordering :=
  if x.isNaN then none
  else if x.compareInt? int64Bound = some .lt then some .lt
  else if x.isInfinite then some .gt
  else some (compareDigitRuns x.wholePart.repr digits)

/-- The order of a record's value and a literal of the same kind. -/
def exactOrder? : Value → Literal → Option Ordering
  | .text s, .text t => some (compare (Text.unquoted s) t)
  | .integer n, .integer m => some (compare n.toInt m.toInt)
  | .integer _, .digits _ => some .lt
  | .decimal x, .integer m => compareToInteger? x m
  | .decimal x, .digits s => compareToDigits? x s
  | _, _ => none

/-! ### The order of values of different kinds -/

/-- The number that a text spells, the blanks around it left out. -/
def spelledNumber? (text : String) : Option Number.Binary64 :=
  Number.binary64? (Text.trimBlanks text.toList)

def Value.coerced? : Value → Option Number.Binary64
  | .text s => spelledNumber? (Text.unquoted s)
  | value => value.toBinary64?

/-- A literal as a number; a text is the number that it spells. -/
def Literal.coerced? : Literal → Option Number.Binary64
  | .text s => spelledNumber? s
  | literal => literal.toBinary64?

/-- The order of a record's value and a literal, both taken as numbers. -/
def coercedOrder? (value : Value) (literal : Literal) : Option Ordering :=
  match value.coerced?, literal.coerced? with
  | some x, some y => x.compare? y
  | _, _ => none

/-! ### The judgement -/

/-- Whether an operand whose literal is of another kind than the value holds. -/
def Operand.judgeAcross (policy : Policy) (operand : Operand) (value : Value) :
    Except TypeMismatch Bool :=
  match policy with
  | .alwaysFalse => .ok false
  | .coerce =>
      .ok (operand.comparator != .equal &&
        operand.comparator.holds (coercedOrder? value operand.literal))
  | .reject => .error ⟨operand.name, operand.literal.kind, value.kind⟩

/-- Whether an operand holds for a value of its attribute. -/
def Operand.judge (policy : Policy) (operand : Operand) (value : Value) :
    Except TypeMismatch Bool :=
  if !operand.comparator.isRecognized then .ok false
  else if value.kind = operand.literal.kind then
    .ok (operand.comparator.holds (exactOrder? value operand.literal))
  else operand.judgeAcross policy value

end RecordRules
