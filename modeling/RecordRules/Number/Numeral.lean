import RecordRules.Number.Nearest

/-! Decimal numerals: a signed whole coefficient times a power of ten, and the texts that spell
one. A text spells a number when it is an optional sign followed by the name of a special value or
by digits with an optional point and an optional exponent. -/

namespace RecordRules.Number

/-- The numeral `± coefficient * 10 ^ exponent`. -/
structure Numeral where
  negative : Bool
  coefficient : Nat
  exponent : Int
deriving DecidableEq, Repr

namespace Numeral

/-- An exponent from which on every numeral but zero is beyond the finite 64-bit numbers. -/
def overflowExponent : Nat :=
  309

/-- Whether `coefficient * 10 ^ (-places)` is so small that it is nearest to zero. As
`10 ^ places` is at least `2 ^ (3 * places)`, the quotient is then below half the least positive
number. -/
def vanishes (coefficient places : Nat) : Bool :=
  coefficient.log2 + 1 + 1075 ≤ 3 * places

/-- The 64-bit number nearest to a numeral. The two ends of the range are answered without
computing the power of ten, which may be of any size. -/
def toBinary64 (n : Numeral) : Binary64 :=
  if n.coefficient = 0 then .ofMagnitude n.negative 0
  else
    match n.exponent with
    | .ofNat zeros =>
        if overflowExponent ≤ zeros then .infinity n.negative
        else .nearest n.negative (n.coefficient * Nat.pow 10 zeros) 1
    | .negSucc places =>
        if vanishes n.coefficient (places + 1) then .ofMagnitude n.negative 0
        else .nearest n.negative n.coefficient (Nat.pow 10 (places + 1))

/-- The numeral of an integer part, a fraction and an exponent, the first two as digits. -/
def ofParts (negative : Bool) (whole fraction : List Char) (exponent : Int) : Numeral where
  negative := negative
  coefficient := digitsValue (whole ++ fraction)
  exponent := exponent - fraction.length

end Numeral

/-- Separates the digits that a character sequence starts with from the rest. -/
def spanDigits (chars : List Char) : List Char × List Char :=
  (chars.takeWhile Char.isDigit, chars.dropWhile Char.isDigit)

/-- Separates an optional point and the digits after it from the rest. -/
def splitFraction : List Char → List Char × List Char
  | '.' :: rest => spanDigits rest
  | chars => ([], chars)

/-- Reads an exponent mark and a signed digit run that take up the whole sequence; no characters
are the exponent zero. -/
def exponent? : List Char → Option Int
  | [] => some 0
  | mark :: rest => if mark = 'e' ∨ mark = 'E' then wholeNumber? rest else none

/-- Reads unsigned decimal notation: digits, optionally a point, and optionally an exponent, with at
least one digit on some side of the point. -/
def decimalNotation? (negative : Bool) (chars : List Char) : Option Numeral :=
  let (whole, afterWhole) := spanDigits chars
  let (fraction, afterFraction) := splitFraction afterWhole
  if whole.isEmpty && fraction.isEmpty then none
  else (exponent? afterFraction).map (Numeral.ofParts negative whole fraction)

/-- Reads the name of a special value, in letters of either case. -/
def specialValue? (negative : Bool) (chars : List Char) : Option Binary64 :=
  let name := chars.map Char.toLower
  if name = ['i', 'n', 'f'] ∨ name = ['i', 'n', 'f', 'i', 'n', 'i', 't', 'y'] then
    some (.infinity negative)
  else if name = ['n', 'a', 'n'] then some .nan
  else none

/-- The 64-bit number that a character sequence spells, correctly rounded. -/
def binary64? (chars : List Char) : Option Binary64 :=
  let (negative, unsigned) := splitSign chars
  match decimalNotation? negative unsigned with
  | some numeral => some numeral.toBinary64
  | none => specialValue? negative unsigned

end RecordRules.Number
