import FlowGraph.Number.Basic

/-! Decimals `digits · 10^exponent`: the number nearest to a decimal, the shortest decimal that
reads back as a number, and decimals written without an exponent. -/
namespace FlowGraph

structure Decimal where
  digits : Nat
  exponent : Int
deriving DecidableEq, Inhabited

namespace Decimal

/-- How many decimal digits a natural number is written with. -/
def width (n : Nat) : Nat := (Nat.toDigits 10 n).length

/-- The decimal with the given digits before and after the point. -/
def ofDigits (whole fraction : List Char) (exponent : Int) : Decimal :=
  ⟨Nat.ofDigitChars 10 (whole ++ fraction) 0, exponent - fraction.length⟩

/-- The number nearest to a decimal. Beyond the first two bounds every decimal is infinite, or
rounds to zero, and its power of ten is not built. -/
def toNumber (negative : Bool) (d : Decimal) : Number :=
  if d.digits = 0 then Number.ofMagnitude negative 0
  else if 400 < d.exponent then Number.infinity negative
  else if d.exponent + width d.digits < -400 then Number.ofMagnitude negative 0
  else if d.exponent < 0 then Number.ofRatio negative d.digits (Nat.pow 10 d.exponent.natAbs)
  else Number.ofRatio negative (d.digits * Nat.pow 10 d.exponent.natAbs) 1

/-- What decides between two shortest decimals that are equally near. -/
inductive Tie where
  | up
  | toEven
deriving DecidableEq

/-- Half units (2^-1075) that hold every real which reads as the number of the given magnitude. The
ends belong to it exactly when the significand is even. -/
structure Interval where
  low : Nat
  value : Nat
  high : Nat
  closed : Bool

def Interval.around (magnitude : Nat) : Interval where
  low := Number.unitsOf (magnitude - 1) + Number.unitsOf magnitude
  value := 2 * Number.unitsOf magnitude
  high := Number.unitsOf magnitude + Number.unitsOf (magnitude + 1)
  closed := magnitude % 2 == 0

/-- Whether `n / d` half units lie in the interval. -/
def Interval.holds (r : Interval) (n d : Nat) : Bool :=
  if r.closed then r.low * d ≤ n && n ≤ r.high * d else r.low * d < n && n < r.high * d

/-- The two neighbours of the value among the multiples of `step / scale`, tried in the interval. -/
def multiple (tie : Tie) (r : Interval) (step scale : Nat) : Option Nat :=
  let below := r.value * scale / step
  let past := r.value * scale % step
  match r.holds (below * step) scale, r.holds ((below + 1) * step) scale with
  | true, true =>
    if 2 * past < step then some below
    else if step < 2 * past then some (below + 1)
    else match tie with
      | .up => some (below + 1)
      | .toEven => some (below + below % 2)
  | true, false => some below
  | false, true => some (below + 1)
  | false, false => none

/-- The multiple of `10^exponent` in the interval that is nearest to its value. -/
def onGrid (tie : Tie) (r : Interval) (exponent : Int) : Option Nat :=
  let power := Nat.pow 10 exponent.natAbs
  if exponent < 0 then multiple tie r (2 * Number.unitsPerOne) power
  else multiple tie r (power * (2 * Number.unitsPerOne)) 1

/-- The first hit on ever finer grids. Every number is a whole count of 10^-1074, where the search
ends at the latest. -/
def search (tie : Tie) (r : Interval) (exponent : Int) : Decimal :=
  match onGrid tie r exponent with
  | some digits => ⟨digits, exponent⟩
  | none =>
    if exponent ≤ -1074 then ⟨r.value * Nat.pow 5 1074 / 2, -1074⟩
    else search tie r (exponent - 1)
termination_by (exponent + 1074).toNat
decreasing_by omega

/-- A power of ten at or above a count of units. -/
def topExponent (units : Nat) : Int :=
  if Number.unitsPerOne ≤ units then width (units / Number.unitsPerOne)
  else 1 - width (Number.unitsPerOne / units)

/-- The decimal with the fewest digits that reads as the absolute value of `x`, a finite number, and
of those the nearest to it. -/
def shortest (tie : Tie) (x : Number) : Decimal :=
  if x.isZero then ⟨0, 0⟩ else search tie (.around x.magnitude) (topExponent x.units)

/-- The decimal written out in full, without an exponent. -/
def positional (d : Decimal) : List Char :=
  let ds := Nat.toDigits 10 d.digits
  let places := d.exponent.natAbs
  if 0 ≤ d.exponent then ds ++ List.replicate places '0'
  else if places < ds.length then
    ds.take (ds.length - places) ++ '.' :: ds.drop (ds.length - places)
  else '0' :: '.' :: (List.replicate (places - ds.length) '0' ++ ds)

end Decimal

namespace Number

/-- The texts that a layout of numbers gives to what has no digits. -/
structure Layout where
  nan : String
  infinite : String

/-- The shortest digits of a number, written out without an exponent; negative zero keeps its
sign. -/
def toPlain (layout : Layout) (x : Number) : String :=
  if x.isNaN then layout.nan
  else
    let body := if x.isFinite then String.ofList (Decimal.shortest .up x).positional
      else layout.infinite
    if x.negative then "-" ++ body else body

/-- Whole numbers below 10^15 in magnitude are written as integers, so that negative zero is `0`. -/
def toText (layout : Layout) (x : Number) : String :=
  if x.isWhole && decide (x.wholePart < 1000000000000000) then
    if x.negative && x.wholePart != 0 then "-" ++ Nat.repr x.wholePart else Nat.repr x.wholePart
  else x.toPlain layout

/-- Numbers in messages. -/
def messageLayout : Layout := ⟨"NaN", "inf"⟩

/-- Numbers in generated source. -/
def sourceLayout : Layout := ⟨"NaN", "Infinity"⟩

/-- Numbers in scripts. -/
def scriptLayout : Layout := ⟨"nan", "inf"⟩

end Number
end FlowGraph
