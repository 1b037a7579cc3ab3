/-! Decimal digit runs and the numbers they denote, with an optional sign in front. Only the ten
ASCII digits count as digits. -/

namespace RecordRules.Number

/-- A non-empty sequence of decimal digits. -/
def isDigitRun (chars : List Char) : Bool :=
  !chars.isEmpty && chars.all Char.isDigit

/-- The number that a sequence of decimal digits denotes; no digits denote zero. -/
def digitsValue (digits : List Char) : Nat :=
  Nat.ofDigitChars 10 digits 0

/-- The decimal digits of a number, without leading zeros. -/
def decimalDigits (n : Nat) : List Char :=
  Nat.toDigits 10 n

/-- The digit that a character stands for. -/
def digitOf (c : Char) : Fin 10 :=
  Fin.ofNat 10 (c.toNat - '0'.toNat)

/-- The character that stands for a digit. -/
def digitChar (digit : Fin 10) : Char :=
  Nat.digitChar digit

/-- The decimal digits of a number, not as characters. -/
def digits (n : Nat) : List (Fin 10) :=
  (decimalDigits n).map digitOf

theorem digitsValue_decimalDigits (n : Nat) : digitsValue (decimalDigits n) = n :=
  Nat.ofDigitChars_toDigits (by decide) (by decide)

/-- Separates an optional sign from what follows it; the flag says that the sign is a minus. -/
def splitSign : List Char → Bool × List Char
  | '-' :: rest => (true, rest)
  | '+' :: rest => (false, rest)
  | chars => (false, chars)

def withSign (negative : Bool) (magnitude : Nat) : Int :=
  if negative then -(magnitude : Int) else magnitude

/-- Reads an optional sign and a digit run as the whole number they denote. -/
def wholeNumber? (chars : List Char) : Option Int :=
  let (negative, digits) := splitSign chars
  if isDigitRun digits then some (withSign negative (digitsValue digits)) else none

/-- A whole number as a 64-bit signed integer, if it is in range. -/
def int64? (n : Int) : Option Int64 :=
  if Int64.minValue.toInt ≤ n ∧ n ≤ Int64.maxValue.toInt then some (Int64.ofInt n) else none

theorem toInt_of_int64?_eq_some {n : Int} {i : Int64} (h : int64? n = some i) : i.toInt = n := by
  unfold int64? at h
  split at h
  case isTrue range =>
    cases h
    simp only [Int64.toInt_minValue, Int64.toInt_maxValue] at range
    exact Int64.toInt_ofInt_of_le (by omega) (by omega)
  case isFalse => cases h

end RecordRules.Number
