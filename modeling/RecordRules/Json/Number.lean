import RecordRules.Number.Scaling

/-! JSON numbers and how they are read. A number keeps the form in which it was written, since a whole
number without fraction and exponent is taken exactly as far as 64 bits go. Of every other number the
digits are taken from the front as long as they make a significand of 64 bits; the significand is rounded
and then scaled by what is left of the power of ten. As this rounds more than once, the number that is
read need not be the one nearest to the number that is written. -/

namespace RecordRules

open Number

/-- A JSON number: whole when written without fraction and exponent. -/
inductive JsonNumber where
  | whole (negative : Bool) (magnitude : Nat)
  | decimal (negative : Bool) (integral : Nat) (fraction : List (Fin 10)) (exponent : Int)
deriving DecidableEq, Repr

namespace JsonNumber

/-- The largest significand that digits are taken to. -/
def maxSignificand : Nat :=
  Nat.pow 2 64 - 1

/-- Puts digits behind a significand as long as it stays in range, and gives what is left of them. -/
def takeDigits (significand : Nat) : List (Fin 10) → Nat × List (Fin 10)
  | [] => (significand, [])
  | digit :: rest =>
      if significand * 10 + digit ≤ maxSignificand then takeDigits (significand * 10 + digit) rest
      else (significand, digit :: rest)

/-- Reads digits before and after a point. A digit before the point that is not taken to the significand
counts for the power of ten, one after the point does not count. -/
def ofDigits? (negative : Bool) (integral : Nat) (fraction : List (Fin 10)) (exponent : Int) :
    Option Binary64 :=
  let (leading, left) := takeDigits 0 (digits integral)
  let (significand, ignored) := takeDigits leading fraction
  (Binary64.nearest negative significand 1).scale?
    (exponent + left.length - (fraction.length - ignored.length))

/-- The floating-point number that is read, unless this leads beyond the finite numbers. -/
def toBinary64? : JsonNumber → Option Binary64
  | .whole negative magnitude =>
      if magnitude ≤ maxSignificand then some (.nearest negative magnitude 1)
      else ofDigits? negative magnitude [] 0
  | .decimal negative integral fraction exponent => ofDigits? negative integral fraction exponent

/-- The 64-bit integer that is read; minus zero is none, as an integer has no sign of zero. -/
def int64? : JsonNumber → Option Int64
  | .whole true 0 => none
  | .whole negative magnitude => Number.int64? (withSign negative magnitude)
  | .decimal _ _ _ _ => none

def ofInt (n : Int) : JsonNumber :=
  .whole (decide (n < 0)) n.natAbs

end JsonNumber

end RecordRules
