import FlowGraph.Graph.Node

/-! Tokens of graph scripts. -/
namespace FlowGraph.Script

inductive Keyword where
  | title
  | space
  | description
  | flag
  | node
  | group
  | connect
  | place
  | size
  | inputs
  | outputs
deriving DecidableEq

namespace Keyword

def word : Keyword → String
  | title => "module"
  | space => "namespace"
  | description => "description"
  | flag => "flag"
  | node => "node"
  | group => "group"
  | connect => "connect"
  | place => "at"
  | size => "size"
  | inputs => "inputs"
  | outputs => "outputs"

def all : List Keyword :=
  [title, space, description, flag, node, group, connect, place, size, inputs, outputs]

def ofWord? (s : String) : Option Keyword := all.find? (·.word == s)

end Keyword

inductive Mark where
  | semicolon
  | openBrace
  | closeBrace
  | openParen
  | closeParen
  | openBracket
  | closeBracket
  | comma
  | equals
  | colon
  | arrow
deriving DecidableEq

namespace Mark

/-- What a mark is called in messages. -/
def name : Mark → String
  | semicolon => "semicolon"
  | openBrace => "lbrace"
  | closeBrace => "rbrace"
  | openParen => "lparen"
  | closeParen => "rparen"
  | openBracket => "lbracket"
  | closeBracket => "rbracket"
  | comma => "comma"
  | equals => "equals"
  | colon => "colon"
  | arrow => "arrow"

/-- The marks of one character. -/
def ofChar? : Char → Option Mark
  | ';' => some semicolon
  | '\x7b' => some openBrace
  | '\x7d' => some closeBrace
  | '(' => some openParen
  | ')' => some closeParen
  | '[' => some openBracket
  | ']' => some closeBracket
  | ',' => some comma
  | '=' => some equals
  | ':' => some colon
  | _ => none

end Mark

inductive Token where
  | keyword (k : Keyword)
  | bool (b : Bool)
  | number (n : Number)
  | text (s : String)
  | ident (name : String)
  | mark (m : Mark)
deriving DecidableEq

/-- The token as messages call it. -/
def Token.describe : Token → String
  | keyword k => k.word
  | bool b => "'" ++ Value.boolText b ++ "'"
  | number n => "number " ++ n.toPlain Number.messageLayout
  | text s => "string \"" ++ s ++ "\""
  | ident name => "'" ++ name ++ "'"
  | mark m => m.name

/-- A token, the bytes it stands at and the line it starts on. -/
structure Lexeme where
  token : Token
  start : Nat
  stop : Nat
  line : Nat

end FlowGraph.Script
