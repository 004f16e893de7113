import FlowGraph.Graph.Basic

/-! Statements of graph scripts, and what can be wrong with a script. -/
namespace FlowGraph.Script

/-- Where a node is placed and how large it is, if a statement says so. -/
structure Placement where
  position : Option Position
  size : Option Size
deriving DecidableEq

structure NodeDecl where
  id : NodeId
  type : String
  placement : Placement
  fields : Fields
deriving DecidableEq

structure GroupDecl where
  id : NodeId
  name : String
  placement : Placement
  inputs : List String
  outputs : List String
  fields : Fields
deriving DecidableEq

/-- A statement and the line it starts on. -/
inductive Statement where
  | title (line : Nat) (name : String)
  | space (line : Nat) (name : String)
  | description (line : Nat) (text : String)
  | flag (line : Nat) (name : String) (value : Bool)
  | node (line : Nat) (decl : NodeDecl)
  | group (line : Nat) (decl : GroupDecl) (body : List Statement)
  | connect (line : Nat) (link : Link)

def Statement.line : Statement → Nat
  | title line _ | space line _ | description line _ | flag line _ _ | node line _ | group line _ _
  | connect line _ => line

/-- Why a script cannot be read or run. -/
inductive ScriptError where
  | malformed (line column : Nat) (message : String)
  | unknownType (line : Nat) (type : String)
  | link (line : Nat) (cause : LinkError)
  | edit (line : Nat) (cause : EditError)
deriving DecidableEq

def ScriptError.message : ScriptError → String
  | malformed line column message =>
    "Syntax error at " ++ Nat.repr line ++ ":" ++ Nat.repr column ++ ": " ++ message
  | unknownType line type => "Line " ++ Nat.repr line ++ ": unknown node type '" ++ type ++ "'"
  | link line cause => "Line " ++ Nat.repr line ++ ": " ++ cause.message
  | edit line cause => "Line " ++ Nat.repr line ++ ": " ++ cause.message

end FlowGraph.Script
