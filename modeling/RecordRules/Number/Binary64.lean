import RecordRules.Number.Digits

/-! Binary floating-point numbers of 64 bits, kept as their bits. Every finite one is a whole
multiple of `2 ^ -1074`, so the order of two of them is the order of two integers, and so is the
order of one of them and any whole number. -/

namespace RecordRules.Number

/-- A 64-bit floating-point number: a sign bit, eleven exponent bits and 52 fraction bits. -/
structure Binary64 where
  bits : UInt64
deriving DecidableEq, Repr, Inhabited

namespace Binary64

/-- What the sign bit adds to the bits read as one number. -/
def signWeight : Nat :=
  Nat.pow 2 63

/-- What the lowest exponent bit adds to the bits read as one number; also the least significand of
a normal number. -/
def exponentWeight : Nat :=
  Nat.pow 2 52

/-- The bits below the sign, read as one number. The larger it is, the larger the magnitude. -/
def magnitude (x : Binary64) : Nat :=
  x.bits.toNat % signWeight

def negative (x : Binary64) : Bool :=
  signWeight ≤ x.bits.toNat

/-- The magnitude of infinity: all exponent bits set and no fraction bit. -/
def infinityMagnitude : Nat :=
  2047 * exponentWeight

def ofMagnitude (negative : Bool) (magnitude : Nat) : Binary64 :=
  ⟨UInt64.ofNat (if negative then signWeight + magnitude else magnitude)⟩

def infinity (negative : Bool) : Binary64 :=
  ofMagnitude negative infinityMagnitude

/-- The quiet number that is not a number, with no payload. -/
def nan : Binary64 :=
  ofMagnitude false (infinityMagnitude + exponentWeight / 2)

def isNaN (x : Binary64) : Bool :=
  infinityMagnitude < x.magnitude

def isInfinite (x : Binary64) : Bool :=
  x.magnitude == infinityMagnitude

def exponentField (x : Binary64) : Nat :=
  x.magnitude / exponentWeight

def fraction (x : Binary64) : Nat :=
  x.magnitude % exponentWeight

/-- The whole significand: the fraction bits, with the hidden bit of a normal number. -/
def significand (x : Binary64) : Nat :=
  if x.exponentField = 0 then x.fraction else exponentWeight + x.fraction

/-- The significand counts multiples of `2 ^ (shift - 1074)`. -/
def shift (x : Binary64) : Nat :=
  x.exponentField - 1

/-- The scale of the finest finite numbers: all of them are multiples of `1 / unitsPerOne`. -/
def unitsPerOne : Nat :=
  Nat.pow 2 1074

/-- The magnitude counted in units of `2 ^ -1074`; infinity counts as `2 ^ 1024`, which is above
every finite number. -/
def units (x : Binary64) : Nat :=
  x.significand * Nat.pow 2 x.shift

def scaled (x : Binary64) : Int :=
  withSign x.negative x.units

/-- The order of two numbers; what is not a number is in no order with anything. -/
def compare? (x y : Binary64) : Option Ordering :=
  if x.isNaN || y.isNaN then none else some (compare x.scaled y.scaled)

def compareInt? (x : Binary64) (n : Int) : Option Ordering :=
  if x.isNaN then none else some (compare x.scaled (n * unitsPerOne))

/-- The largest whole number that is not above the magnitude. -/
def wholePart (x : Binary64) : Nat :=
  x.units / unitsPerOne

/-- The number without its fraction. -/
def truncated (x : Binary64) : Int :=
  withSign x.negative x.wholePart

end Binary64

end RecordRules.Number
