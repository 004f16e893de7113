import FlowGraph.Number.Decimal

/-! JSON values, and their text on indented lines. -/
namespace FlowGraph.Json

/-! ### Number literals -/

/-- A number as it is written: its digits before and after the point, and its exponent. -/
structure Literal where
  negative : Bool
  whole : List Char
  fraction : List Char
  exponent : Option Int
deriving DecidableEq

namespace Literal

/-! ### Writing -/

def exponentChars (e : Int) : List Char :=
  'e' :: (if e < 0 then '-' else '+') :: Nat.toDigits 10 e.natAbs

def chars (l : Literal) : List Char :=
  (if l.negative then ['-'] else []) ++ l.whole ++
    (if l.fraction.isEmpty then [] else '.' :: l.fraction) ++
    match l.exponent with
    | none => []
    | some e => exponentChars e

def ofNat (n : Nat) : Literal := ⟨false, Nat.toDigits 10 n, [], none⟩

/-- A decimal is written without an exponent from 10^-5 to below 10^16, and then with at least one
digit after the point. -/
def ofDecimal (negative : Bool) (d : Decimal) : Literal :=
  let ds := Nat.toDigits 10 d.digits
  let point : Int := ds.length + d.exponent
  if d.digits = 0 then ⟨negative, ['0'], ['0'], none⟩
  else if point < -4 || 16 < point then ⟨negative, ds.take 1, ds.drop 1, some (point - 1)⟩
  else if point ≤ 0 then ⟨negative, ['0'], List.replicate point.natAbs '0' ++ ds, none⟩
  else if point < ds.length then ⟨negative, ds.take point.natAbs, ds.drop point.natAbs, none⟩
  else ⟨negative, ds ++ List.replicate d.exponent.natAbs '0', ['0'], none⟩

/-- The shortest digits of a finite number; of two equally near ones the even. -/
def ofNumber (x : Number) : Literal := ofDecimal x.negative (Decimal.shortest .toEven x)

/-! ### Reading -/

/-- The whole number below `limit` that is written with digits alone. -/
def nat? (limit : Nat) (l : Literal) : Option Nat :=
  let n := Nat.ofDigitChars 10 l.whole 0
  if !l.negative && l.fraction.isEmpty && l.exponent.isNone && decide (n < limit) then some n
  else none

/-- Appends digits to a significand as long as it stays below 2^64, and returns the digits that were
left. -/
def absorb (significand : Nat) : List Char → Nat × List Char
  | [] => (significand, [])
  | c :: cs =>
    let next := 10 * significand + (c.toNat - '0'.toNat)
    if next < UInt64.size then absorb next cs else (significand, c :: cs)

def powerOfTen (e : Nat) : Number := Decimal.toNumber false ⟨1, e⟩

/-- Scales by a power of ten, rounding at every step: a multiplication or division by a power up to
10^308, after divisions by 10^308 for what lies below. There is no result that is too large. -/
def scale (x : Number) (e : Int) : Option Number :=
  if x.isZero then some x
  else if 308 < e then none
  else if 0 ≤ e then
    let product := x.mul (powerOfTen e.natAbs)
    if product.isInfinite then none else some product
  else if e < -308 then scale (x.div (powerOfTen 308)) (e + 308)
  else some (x.div (powerOfTen e.natAbs))
termination_by e.natAbs

/-- The number that a literal denotes. It is made from the first digits that fit in 64 bits, in at
most two roundings for ordinary exponents; a literal that is too large denotes none. -/
def number? (l : Literal) : Option Number :=
  let (head, left) := absorb 0 l.whole
  let (significand, cut) := absorb head l.fraction
  let exponent := (left.length : Int) - (l.fraction.length - cut.length : Nat) + l.exponent.getD 0
  (scale (.ofNat significand) exponent).map fun x => if l.negative then x.neg else x

end Literal
end FlowGraph.Json

namespace FlowGraph

/-! ### Values -/

/-- A JSON value. A string that spells half of a surrogate pair alone is well formed, but it denotes
no text: `none` stands for it. Members keep their order and may repeat a name. -/
inductive Json where
  | null
  | bool (b : Bool)
  | number (literal : Json.Literal)
  | string (text : Option String)
  | array (items : List Json)
  | object (members : List (Option String × Json))

namespace Json

def text (s : String) : Json := string (some s)

def ofNat (n : Nat) : Json := number (.ofNat n)

/-- Only finite numbers can be written. -/
def ofNumber (x : Number) : Json := if x.isFinite then number (.ofNumber x) else null

/-- An object whose members are named. -/
def record (members : List (String × Json)) : Json :=
  object (members.map fun (name, value) => (some name, value))

/-! ### Text -/

def hexDigit (n : Nat) : Char := Char.ofNat (if n < 10 then '0'.toNat + n else 'a'.toNat + (n - 10))

def escapeChar (c : Char) : List Char :=
  match c with
  | '\x22' => ['\\', '\x22']
  | '\\' => ['\\', '\\']
  | '\x08' => ['\\', 'b']
  | '\x0c' => ['\\', 'f']
  | '\n' => ['\\', 'n']
  | '\r' => ['\\', 'r']
  | '\t' => ['\\', 't']
  | c =>
    if c.toNat < 0x20 then ['\\', 'u', '0', '0', hexDigit (c.toNat / 16), hexDigit (c.toNat % 16)]
    else [c]

/-- A text between quotes. The empty text stands in for what denotes none. -/
def quoted (s : Option String) : List Char :=
  '\x22' :: ((s.getD "").toList.flatMap escapeChar ++ ['\x22'])

/-- A line break and two blanks for every level of nesting. -/
def newline (level : Nat) : List Char := '\n' :: List.replicate (2 * level) ' '

mutual

/-- The text of a value inside `level` containers: every item stands on a line of its own. -/
def chars (level : Nat) : Json → List Char
  | null => ['n', 'u', 'l', 'l']
  | bool true => ['t', 'r', 'u', 'e']
  | bool false => ['f', 'a', 'l', 's', 'e']
  | number literal => literal.chars
  | string s => quoted s
  | array [] => ['[', ']']
  | array (item :: items) =>
    '[' :: newline (level + 1) ++ chars (level + 1) item ++ itemChars (level + 1) items ++
      newline level ++ [']']
  | object [] => ['\x7b', '\x7d']
  | object ((name, value) :: members) =>
    '\x7b' :: newline (level + 1) ++ quoted name ++ [':', ' '] ++ chars (level + 1) value ++
      memberChars (level + 1) members ++ newline level ++ ['\x7d']

def itemChars (level : Nat) : List Json → List Char
  | [] => []
  | item :: items => ',' :: newline level ++ chars level item ++ itemChars level items

def memberChars (level : Nat) : List (Option String × Json) → List Char
  | [] => []
  | (name, value) :: members =>
    ',' :: newline level ++ quoted name ++ [':', ' '] ++ chars level value ++
      memberChars level members

end

def render (j : Json) : String := String.ofList (chars 0 j)

end Json
end FlowGraph
