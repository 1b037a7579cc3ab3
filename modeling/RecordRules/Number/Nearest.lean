import RecordRules.Number.Binary64

/-! Rounding of an exact quotient to the nearest 64-bit floating-point number, a tie going to the
even significand. The magnitude bits of consecutive numbers are consecutive, so the rounded
significand is added to the bits of its exponent, and a significand that rounds up to the next power
of two carries into the exponent by itself. -/

namespace RecordRules.Number

/-- The whole number nearest to `num / den`, a tie going to the even one. -/
def roundHalfEven (num den : Nat) : Nat :=
  let below := num / den
  let rest := num % den
  if 2 * rest < den ∨ (2 * rest = den ∧ below % 2 = 0) then below else below + 1

namespace Binary64

/-- The shift of the number nearest to `units / den`: significands have 53 bits where that is
possible without a shift below zero. -/
def shiftFor (units den : Nat) : Nat :=
  (units / den).log2 - 52

/-- The magnitude bits of the number nearest to `num / den`; what is beyond the largest finite
number by half a step or more is infinity. -/
def nearestMagnitude (num den : Nat) : Nat :=
  let units := num * unitsPerOne
  let shift := shiftFor units den
  min (shift * exponentWeight + roundHalfEven units (den * Nat.pow 2 shift)) infinityMagnitude

def nearest (negative : Bool) (num den : Nat) : Binary64 :=
  ofMagnitude negative (nearestMagnitude num den)

def ofInt (n : Int) : Binary64 :=
  nearest (decide (n < 0)) n.natAbs 1

end Binary64

end RecordRules.Number
