import FlowGraph.Text.Basic

/-! How generated source is laid out. -/
namespace FlowGraph

inductive Layout where
  /-- As it is. -/
  | plain
  /-- Every line behind blanks, `width` for each brace that is open. -/
  | indented (width : Nat)
deriving DecidableEq

namespace Layout

def standard : Layout := indented 4

/-- The braces of a line: how many open, how many close, and how many close before anything else. -/
structure Braces where
  opening : Nat
  closing : Nat
  leading : Nat
deriving DecidableEq

/-- Where in a line the count is. -/
inductive Place where
  | code (atStart : Bool)
  | quoted (mark : Char)
  | escaped (mark : Char)

def isQuote (c : Char) : Bool := c == '\x22' || c == '\x27' || c == '\x60'

/-- Counts the braces that stand outside quotes. -/
def bracesFrom : Place → List Char → Braces
  | _, [] => ⟨0, 0, 0⟩
  | .escaped mark, _ :: cs => bracesFrom (.quoted mark) cs
  | .quoted mark, c :: cs =>
    if c = '\\' then bracesFrom (.escaped mark) cs
    else if c = mark then bracesFrom (.code false) cs
    else bracesFrom (.quoted mark) cs
  | .code atStart, c :: cs =>
    if isQuote c then bracesFrom (.quoted c) cs
    else if c = '\x7b' then
      let b := bracesFrom (.code false) cs
      { b with opening := b.opening + 1 }
    else if c = '\x7d' then
      let b := bracesFrom (.code atStart) cs
      { b with
        closing := b.closing + 1
        leading := if atStart then b.leading + 1 else b.leading }
    else if Text.isBlank c then bracesFrom (.code atStart) cs
    else bracesFrom (.code false) cs

def braces (line : List Char) : Braces := bracesFrom (.code true) line

/-- Indents lines; `level` braces are open before the first. -/
def indentFrom (width : Nat) : Nat → List (List Char) → List (List Char)
  | _, [] => []
  | level, line :: lines =>
    let b := braces line
    (List.replicate (width * (level - b.leading)) ' ' ++ line) ::
      indentFrom width (level + b.opening - b.closing) lines

/-- The trimmed lines that are not blank. -/
def visibleLines (cs : List Char) : List (List Char) :=
  ((Text.lines cs).map Text.trim).filter (!·.isEmpty)

def apply : Layout → String → String
  | plain, source => source
  | indented width, source =>
    Text.joinLines ((indentFrom width 0 (visibleLines source.toList)).map String.ofList)

end Layout
end FlowGraph
