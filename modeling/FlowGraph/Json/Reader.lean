import FlowGraph.Json.Basic
import FlowGraph.Text.Basic

/-! Reading JSON texts: first into lexemes, then into a value. -/
namespace FlowGraph.Json

inductive Mark where
  | openArray
  | closeArray
  | openObject
  | closeObject
  | comma
  | colon
deriving DecidableEq

def Mark.ofChar? : Char → Option Mark
  | '[' => some openArray
  | ']' => some closeArray
  | '\x7b' => some openObject
  | '\x7d' => some closeObject
  | ',' => some comma
  | ':' => some colon
  | _ => none

inductive Lexeme where
  | mark (m : Mark)
  | string (text : Option String)
  /-- A value that is neither a string nor a container. -/
  | scalar (value : Json)

def isSpace (c : Char) : Bool := c == ' ' || c == '\n' || c == '\t' || c == '\r'

/-! ### Strings -/

/-- What stands in a string: a character, or the UTF-16 unit of an escape. -/
inductive Piece where
  | char (c : Char)
  | unit (u : Nat)

def hexValue? (c : Char) : Option Nat :=
  if '0' ≤ c && c ≤ '9' then some (c.toNat - '0'.toNat)
  else if 'a' ≤ c && c ≤ 'f' then some (c.toNat - 'a'.toNat + 10)
  else if 'A' ≤ c && c ≤ 'F' then some (c.toNat - 'A'.toNat + 10)
  else none

def unit? (a b c d : Char) : Option Nat := do
  let a ← hexValue? a
  let b ← hexValue? b
  let c ← hexValue? c
  let d ← hexValue? d
  return ((a * 16 + b) * 16 + c) * 16 + d

def shortEscape? : Char → Option Char
  | '\x22' => some '\x22'
  | '\\' => some '\\'
  | '/' => some '/'
  | 'b' => some '\x08'
  | 'f' => some '\x0c'
  | 'n' => some '\n'
  | 'r' => some '\r'
  | 't' => some '\t'
  | _ => none

/-- The pieces up to the closing quote, and the characters after it. -/
def pieces? : List Char → Option (List Piece × List Char)
  | [] => none
  | '\x22' :: rest => some ([], rest)
  | '\\' :: 'u' :: a :: b :: c :: d :: rest => do
    let u ← unit? a b c d
    let (ps, rest) ← pieces? rest
    return (.unit u :: ps, rest)
  | '\\' :: e :: rest => do
    let c ← shortEscape? e
    let (ps, rest) ← pieces? rest
    return (.char c :: ps, rest)
  | c :: rest =>
    if c.toNat < 0x20 then none
    else do
      let (ps, rest) ← pieces? rest
      return (.char c :: ps, rest)

def isHigh (u : Nat) : Bool := decide (0xD800 ≤ u) && decide (u < 0xDC00)

def isLow (u : Nat) : Bool := decide (0xDC00 ≤ u) && decide (u < 0xE000)

/-- Joins the halves of surrogate pairs; a half that stands alone spoils the text. -/
def text? : List Piece → Option (List Char)
  | [] => some []
  | .char c :: rest => (text? rest).map (c :: ·)
  | .unit u :: rest =>
    if isHigh u then
      match rest with
      | .unit v :: rest =>
        if isLow v then
          (text? rest).map (Char.ofNat (0x10000 + (u - 0xD800) * 0x400 + (v - 0xDC00)) :: ·)
        else none
      | _ => none
    else if isLow u then none
    else (text? rest).map (Char.ofNat u :: ·)

/-! ### Numbers -/

def digits (cs : List Char) : List Char × List Char := cs.span Char.isDigit

/-- Digits after a point, of which there is at least one. -/
def fraction? : List Char → Option (List Char × List Char)
  | '.' :: rest =>
    let (ds, rest) := digits rest
    if ds.isEmpty then none else some (ds, rest)
  | cs => some ([], cs)

def signed? (negative : Bool) (cs : List Char) : Option (Option Int × List Char) :=
  let (ds, rest) := digits cs
  let n : Int := Nat.ofDigitChars 10 ds 0
  if ds.isEmpty then none else some (some (if negative then -n else n), rest)

def exponent? : List Char → Option (Option Int × List Char)
  | c :: cs =>
    if c = 'e' || c = 'E' then
      match cs with
      | '+' :: rest => signed? false rest
      | '-' :: rest => signed? true rest
      | cs => signed? false cs
    else some (none, c :: cs)
  | [] => some (none, [])

/-- A literal without its sign. A whole part of more than one digit does not start with zero. -/
def unsigned? (negative : Bool) (cs : List Char) : Option (Literal × List Char) :=
  let (whole, rest) := digits cs
  if whole.isEmpty || (whole.head? == some '0' && whole.length != 1) then none
  else do
    let (fraction, rest) ← fraction? rest
    let (exponent, rest) ← exponent? rest
    return (⟨negative, whole, fraction, exponent⟩, rest)

def literal? : List Char → Option (Literal × List Char)
  | '-' :: rest => unsigned? true rest
  | cs => unsigned? false cs

/-! ### Lexemes -/

/-- The lexeme at the front, where no blank is. -/
def lexeme? : List Char → Option (Lexeme × List Char)
  | '\x22' :: rest => do
    let (ps, rest) ← pieces? rest
    return (.string ((text? ps).map String.ofList), rest)
  | 'n' :: 'u' :: 'l' :: 'l' :: rest => some (.scalar null, rest)
  | 't' :: 'r' :: 'u' :: 'e' :: rest => some (.scalar (bool true), rest)
  | 'f' :: 'a' :: 'l' :: 's' :: 'e' :: rest => some (.scalar (bool false), rest)
  | cs =>
    match cs with
    | [] => none
    | c :: rest =>
      match Mark.ofChar? c with
      | some m => some (.mark m, rest)
      | none => (literal? cs).map fun (l, rest) => (.scalar (number l), rest)

/-- The lexemes of a text, found in at most `bound` steps. -/
def lexemes? : Nat → List Char → Option (List Lexeme)
  | _, [] => some []
  | 0, _ => none
  | bound + 1, c :: cs =>
    if isSpace c then lexemes? bound cs
    else do
      let (l, rest) ← lexeme? (c :: cs)
      let ls ← lexemes? bound rest
      return l :: ls

/-! ### Values -/

mutual

def value? (ls : List Lexeme) : Option (Parsed Json ls) :=
  match ls with
  | .scalar j :: rest => some ⟨j, rest, by simp⟩
  | .string s :: rest => some ⟨string s, rest, by simp⟩
  | .mark .openArray :: .mark .closeArray :: rest =>
    some ⟨array [], rest, by simp only [List.length_cons]; omega⟩
  | .mark .openArray :: rest => do
    let items ← items? rest
    return ⟨array items.value, items.rest, Nat.lt_succ_of_lt items.shorter⟩
  | .mark .openObject :: .mark .closeObject :: rest =>
    some ⟨object [], rest, by simp only [List.length_cons]; omega⟩
  | .mark .openObject :: rest => do
    let members ← members? rest
    return ⟨object members.value, members.rest, Nat.lt_succ_of_lt members.shorter⟩
  | _ => none
termination_by 2 * ls.length

/-- Items up to the end of an array, at least one. -/
def items? (ls : List Lexeme) : Option (Parsed (List Json) ls) := do
  let item ← value? ls
  match h : item.rest with
  | .mark .comma :: rest =>
    have : rest.length < ls.length := by have := item.shorter; simp [h] at this; omega
    let items ← items? rest
    return ⟨item.value :: items.value, items.rest, by have := items.shorter; omega⟩
  | .mark .closeArray :: rest =>
    return ⟨[item.value], rest, by have := item.shorter; simp [h] at this; omega⟩
  | _ => none
termination_by 2 * ls.length + 1

/-- Members up to the end of an object, at least one. -/
def members? (ls : List Lexeme) : Option (Parsed (List (Option String × Json)) ls) :=
  match ls with
  | .string name :: .mark .colon :: rest => do
    let value ← value? rest
    match h : value.rest with
    | .mark .comma :: more =>
      have : more.length < rest.length := by have := value.shorter; simp [h] at this; omega
      let members ← members? more
      return ⟨(name, value.value) :: members.value, members.rest, by
        have := members.shorter; simp; omega⟩
    | .mark .closeObject :: more =>
      return ⟨[(name, value.value)], more, by have := value.shorter; simp [h] at this ⊢; omega⟩
    | _ => none
  | _ => none
termination_by 2 * ls.length + 1

end

/-- Reads a text that holds one value and nothing else but blanks. -/
def read? (s : String) : Option Json := do
  let ls ← lexemes? s.length s.toList
  let value ← value? ls
  if value.rest.isEmpty then some value.value else none

end FlowGraph.Json
