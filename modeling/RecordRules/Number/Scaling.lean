import RecordRules.Number.Nearest

/-! Scaling of floating-point numbers by powers of ten. The power is rounded, and so is the product or
quotient, so what comes out need not be the number nearest to the exact product or quotient. -/

namespace RecordRules.Number.Binary64

/-- The product of two finite numbers, rounded. -/
def times (x y : Binary64) : Binary64 :=
  nearest (x.negative ^^ y.negative) (x.units * y.units) (unitsPerOne * unitsPerOne)

/-- The quotient of two finite numbers, rounded; the second one is not zero. -/
def dividedBy (x y : Binary64) : Binary64 :=
  nearest (x.negative ^^ y.negative) x.units y.units

def powerOfTen (places : Nat) : Binary64 :=
  nearest false (Nat.pow 10 places) 1

/-- The largest power of ten that is not rounded to infinity. -/
def lastPower : Nat :=
  308

/-- Multiplies by a power of ten, unless this leads beyond the finite numbers. With a power that is
itself beyond them only zero can be multiplied. -/
def timesPower? (x : Binary64) (places : Nat) : Option Binary64 :=
  if places ≤ lastPower then
    let product := x.times (powerOfTen places)
    if product.isInfinite then none else some product
  else if x.units = 0 then some x
  else none

/-- Divides by a power of ten, by one beyond the finite numbers in steps. -/
def dividedByPower (x : Binary64) (places : Nat) : Binary64 :=
  if places ≤ lastPower then x.dividedBy (powerOfTen places)
  else if x.units = 0 then x
  else dividedByPower (x.dividedBy (powerOfTen lastPower)) (places - lastPower)
termination_by places
decreasing_by
  unfold lastPower at *
  omega

/-- Multiplies by a power of ten with an exponent of either sign. -/
def scale? (x : Binary64) : Int → Option Binary64
  | .ofNat places => x.timesPower? places
  | .negSucc places => some (x.dividedByPower (places + 1))

end RecordRules.Number.Binary64
