/-! Numbers of a graph: IEEE 754 binary64 values, held by their bits.
A finite number is a whole count of units of 2^-1074, so every comparison and
every rounding below is exact arithmetic on natural numbers. -/
namespace FlowGraph

/-- A binary64 number. Two numbers are equal when their bits are. -/
structure Number where
  bits : UInt64
deriving DecidableEq, Inhabited

namespace Number

/-- Units of 2^-1074 in one. -/
def unitsPerOne : Nat := Nat.pow 2 1074

/-- What the sign bit weighs: 2^63. -/
def signWeight : Nat := 0x8000000000000000

/-- What the lowest bit of the exponent weighs, above 52 bits of fraction: 2^52. -/
def exponentWeight : Nat := 0x10000000000000

/-- The magnitude bits of infinity; larger ones are not numbers. -/
def infiniteMagnitude : Nat := 2047 * exponentWeight

def negative (x : Number) : Bool := decide (signWeight ≤ x.bits.toNat)

/-- All bits but the sign. Among finite numbers a larger magnitude is a larger distance from
zero. -/
def magnitude (x : Number) : Nat := x.bits.toNat % signWeight

def ofMagnitude (negative : Bool) (magnitude : Nat) : Number :=
  ⟨UInt64.ofNat ((if negative then signWeight else 0) + magnitude)⟩

def isFinite (x : Number) : Bool := decide (x.magnitude < infiniteMagnitude)

def isInfinite (x : Number) : Bool := decide (x.magnitude = infiniteMagnitude)

def isNaN (x : Number) : Bool := decide (infiniteMagnitude < x.magnitude)

def isZero (x : Number) : Bool := decide (x.magnitude = 0)

def zero : Number := ofMagnitude false 0

def nan : Number := ofMagnitude false (infiniteMagnitude + exponentWeight / 2)

def infinity (negative : Bool) : Number := ofMagnitude negative infiniteMagnitude

/-- The units of 2^-1074 that finite magnitude bits stand for. -/
def unitsOf (magnitude : Nat) : Nat :=
  if magnitude < exponentWeight then magnitude
  else (magnitude % exponentWeight + exponentWeight) * Nat.pow 2 (magnitude / exponentWeight - 1)

/-- The absolute value of a finite number, in units of 2^-1074. -/
def units (x : Number) : Nat := unitsOf x.magnitude

def neg (x : Number) : Number := ofMagnitude (!x.negative) x.magnitude

/-- The whole number nearest to `n / d`; of two that are as near, the even one. -/
def nearestQuotient (n d : Nat) : Nat :=
  let q := n / d
  let twice := 2 * (n % d)
  if twice < d || (twice == d && q % 2 == 0) then q else q + 1

/-- Magnitude bits of the number nearest to `n / d`; a tie goes to the even significand, and what
is too large is infinite. -/
def nearestMagnitude (n d : Nat) : Nat :=
  let whole := n * unitsPerOne
  let shift := Nat.log2 (whole / d) - 52
  min infiniteMagnitude (shift * exponentWeight + nearestQuotient whole (d * Nat.pow 2 shift))

/-- The number nearest to `n / d`, with the given sign. -/
def ofRatio (negative : Bool) (n d : Nat) : Number :=
  ofMagnitude negative (nearestMagnitude n d)

def ofNat (n : Nat) : Number := ofRatio false n 1

/-- The nearest number to the product of two finite numbers. -/
def mul (x y : Number) : Number :=
  ofRatio (x.negative != y.negative) (x.units * y.units) (unitsPerOne * unitsPerOne)

/-- The nearest number to the quotient of two finite numbers, the second not zero. -/
def div (x y : Number) : Number :=
  ofRatio (x.negative != y.negative) x.units y.units

/-- Equality of values: the two zeros are equal, and NaN differs from itself. -/
def sameValue (x y : Number) : Bool :=
  !x.isNaN && !y.isNaN && (x == y || (x.isZero && y.isZero))

/-- A finite number without a fraction. -/
def isWhole (x : Number) : Bool := x.isFinite && x.units % unitsPerOne == 0

/-- The absolute value of a whole number. -/
def wholePart (x : Number) : Nat := x.units / unitsPerOne

end Number
end FlowGraph
