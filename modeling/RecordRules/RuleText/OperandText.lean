import RecordRules.Operand

/-! Operands as they are written: a name of lower-case letters, a run of comparator characters, and
a literal, which is a digit run or letters in quotes. The first operand of a text is the one that
starts first; as a name cannot be entered in its middle before it was tried at its start, only the
starts of names are tried. -/

namespace RecordRules.RuleText

/-- The parts of an operand as written. -/
structure OperandText where
  name : String
  comparator : String
  literal : String
deriving DecidableEq, Repr

def OperandText.toOperand (text : OperandText) : Operand where
  name := text.name
  comparator := .ofSymbol text.comparator
  literal := .ofToken text.literal

def isNameChar (c : Char) : Bool :=
  c.isLower

def isComparatorChar (c : Char) : Bool :=
  c = '>' || c = '<' || c = '='

/-- The literal that a character sequence starts with: as many digits as there are, or letters
between two quotes. -/
def literalAt? (chars : List Char) : Option (List Char) :=
  match chars with
  | [] => none
  | c :: rest =>
      if c = Text.quote then
        let letters := rest.takeWhile Char.isAlpha
        if !letters.isEmpty && (rest.dropWhile Char.isAlpha).head? = some Text.quote then
          some (Text.quote :: letters ++ [Text.quote])
        else none
      else
        let digits := chars.takeWhile Char.isDigit
        if digits.isEmpty then none else some digits

/-- The operand that a character sequence starts with. -/
def operandAt? (chars : List Char) : Option OperandText :=
  let name := chars.takeWhile isNameChar
  let afterName := chars.dropWhile isNameChar
  let comparator := afterName.takeWhile isComparatorChar
  let afterComparator := afterName.dropWhile isComparatorChar
  if name.isEmpty || comparator.isEmpty then none
  else
    (literalAt? afterComparator).map fun literal =>
      ⟨String.ofList name, String.ofList comparator, String.ofList literal⟩

/-- The first operand of a character sequence; the flag says that the character before it is one of
a name. -/
def firstOperand? (insideName : Bool) : List Char → Option OperandText
  | [] => none
  | c :: rest =>
      if isNameChar c then
        if insideName then firstOperand? true rest
        else
          match operandAt? (c :: rest) with
          | some found => some found
          | none => firstOperand? true rest
      else firstOperand? false rest

def OperandText.find? (text : String) : Option OperandText :=
  firstOperand? false text.toList

end RecordRules.RuleText
