import FlowGraph.Script.Token
import FlowGraph.Text.Basic

/-! Scripts as tokens. At every place the longest token is taken; blanks and comments, which run to
the end of their line, separate tokens. -/
namespace FlowGraph.Script

def isSpace (c : Char) : Bool :=
  c == ' ' || c == '\t' || c == '\r' || c == '\n' || c == '\x0c'

def isDigit (c : Char) : Bool := decide ('0' ≤ c) && decide (c ≤ '9')

/-- The characters that a word starts with. -/
def isWordStart (c : Char) : Bool :=
  (decide ('a' ≤ c) && decide (c ≤ 'z')) || (decide ('A' ≤ c) && decide (c ≤ 'Z')) || c == '_'

def isWordChar (c : Char) : Bool := isWordStart c || isDigit c

/-! ### Words -/

/-- A word is a keyword, a literal or an identifier. -/
def wordToken (s : String) : Token :=
  match Keyword.ofWord? s with
  | some k => .keyword k
  | none =>
    if s = "true" then .bool true
    else if s = "false" then .bool false
    else if s = "inf" then .number (.infinity false)
    else if s = "nan" then .number .nan
    else .ident s

/-! ### Numbers -/

/-- The digits after a point, if there are any. -/
def fractionDigits : List Char → List Char
  | '.' :: cs => cs.takeWhile isDigit
  | _ => []

/-- The number of characters of an exponent, and its value. Without digits there is no exponent. -/
def exponentPart : List Char → Nat × Int
  | c :: cs =>
    if c = 'e' || c = 'E' then
      let (sign, ds) := match cs with
        | '+' :: rest => (1, rest.takeWhile isDigit)
        | '-' :: rest => (1, rest.takeWhile isDigit)
        | cs => (0, cs.takeWhile isDigit)
      let value : Int := Nat.ofDigitChars 10 ds 0
      if ds.isEmpty then (0, 0)
      else (1 + sign + ds.length, if cs.head? = some '-' then -value else value)
    else (0, 0)
  | [] => (0, 0)

/-- The number that starts with a digit at the front, and how many characters it has. -/
def unsignedNumber (negative : Bool) (cs : List Char) : Number × Nat :=
  let whole := cs.takeWhile isDigit
  let cs := cs.drop whole.length
  let fraction := fractionDigits cs
  let fractionSize := if fraction.isEmpty then 0 else fraction.length + 1
  let (exponentSize, exponent) := exponentPart (cs.drop fractionSize)
  (Decimal.toNumber negative (.ofDigits whole fraction exponent),
    whole.length + fractionSize + exponentSize)

/-! ### Texts -/

/-- What stands between quotes, up to a quote or to what cannot stand there. A backslash takes the
next character with it, which is no line break. -/
def quotedChars : List Char → List Char
  | '\\' :: c :: cs => if c = '\n' then [] else '\\' :: c :: quotedChars cs
  | c :: cs => if c = '\x22' || c = '\\' then [] else c :: quotedChars cs
  | [] => []

/-! ### Scanning -/

/-- What stands at a place; `extra` is the number of its characters after the first. -/
inductive Scan where
  | skip (extra : Nat)
  | token (t : Token) (extra : Nat)
  | fault (extra : Nat)

def scan (c : Char) (cs : List Char) : Scan :=
  if isSpace c then .skip 0
  else if c = '#' then .skip (cs.takeWhile (· != '\n')).length
  else if c = '\x22' then
    let body := quotedChars cs
    if cs[body.length]? = some '\x22' then
      .token (.text (String.ofList (Text.unescapeAll body))) (body.length + 1)
    else .fault body.length
  else if isDigit c then
    let (n, size) := unsignedNumber false (c :: cs)
    .token (.number n) (size - 1)
  else if c = '-' then
    match cs with
    | '>' :: _ => .token (.mark .arrow) 1
    | 'i' :: 'n' :: 'f' :: _ => .token (.number (.infinity true)) 3
    | d :: _ =>
      if isDigit d then
        let (n, size) := unsignedNumber true cs
        .token (.number n) size
      else .fault 0
    | [] => .fault 0
  else if isWordStart c then
    let more := cs.takeWhile isWordChar
    .token (wordToken (String.ofList (c :: more))) more.length
  else
    match Mark.ofChar? c with
    | some m => .token (.mark m) 0
    | none => .fault 0

/-- A place in a script where reading it went wrong; `none` is its end. -/
structure Fault where
  offset : Option Nat
  message : String
deriving DecidableEq

/-- The lexemes of the characters `cs`, which stand at `offset` and `line`. -/
def lexemesFrom (offset line : Nat) : List Char → Except Fault (List Lexeme)
  | [] => .ok []
  | c :: cs =>
    let taken (extra : Nat) : List Char := c :: cs.take extra
    let stop (extra : Nat) : Nat := offset + Text.byteSize (taken extra)
    let nextLine (extra : Nat) : Nat := line + (taken extra).count '\n'
    match scan c cs with
    | .skip extra => lexemesFrom (stop extra) (nextLine extra) (cs.drop extra)
    | .token t extra => do
      let more ← lexemesFrom (stop extra) (nextLine extra) (cs.drop extra)
      return ⟨t, offset, stop extra, line⟩ :: more
    | .fault extra =>
      .error ⟨some offset, "unexpected input '" ++ String.ofList (taken extra) ++ "'"⟩
termination_by cs => cs.length

def lexemes (source : String) : Except Fault (List Lexeme) := lexemesFrom 0 1 source.toList

end FlowGraph.Script
