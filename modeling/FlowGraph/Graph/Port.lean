/-! Ports and links: a port is a labelled input or output of a node, a link leads from an output to
an input. A label says whether a port carries flow or data. -/
namespace FlowGraph

abbrev NodeId := UInt32

def idText (id : NodeId) : String := Nat.repr id.toNat

namespace Label

/-- The label of a plain flow port. -/
def flow : String := "flow"

/-- What the label of a named flow port starts with. -/
def named : List Char := ['f', 'l', 'o', 'w', ':']

def isNamedFlow (label : String) : Bool := named.isPrefixOf label.toList

def isFlow (label : String) : Bool := label == flow || isNamedFlow label

/-- The name in the label of a named flow port. -/
def flowName? (label : String) : Option String :=
  if isNamedFlow label then some (String.ofList (label.toList.drop named.length)) else none

end Label

inductive PortKind where
  | flow
  | data
deriving DecidableEq

namespace PortKind

def ofLabel (label : String) : PortKind := if Label.isFlow label then flow else data

def word : PortKind → String
  | flow => "flow"
  | data => "data"

end PortKind

inductive Direction where
  | input
  | output
deriving DecidableEq

def Direction.word : Direction → String
  | input => "input"
  | output => "output"

structure Port where
  node : NodeId
  direction : Direction
  index : UInt64
deriving DecidableEq

structure Endpoint where
  node : NodeId
  port : UInt64
deriving DecidableEq

structure Link where
  source : Endpoint
  target : Endpoint
deriving DecidableEq

def Link.touches (l : Link) (id : NodeId) : Bool := l.source.node == id || l.target.node == id

/-- Why two ports cannot be joined. -/
inductive LinkError where
  | selfLoop (node : NodeId)
  | sameDirection (direction : Direction)
  | kindMismatch (output input : PortKind)
  | nodeNotFound (node : NodeId)
  | portNotFound (port : Port)
deriving DecidableEq

def LinkError.message : LinkError → String
  | selfLoop node => "Node " ++ idText node ++ " cannot be connected to itself"
  | sameDirection direction =>
    "Both ports are " ++ direction.word ++ "s; a connection needs exactly one output and one input"
  | kindMismatch output input =>
    "A " ++ output.word ++ " output cannot be connected to a " ++ input.word ++ " input"
  | nodeNotFound node => "Node " ++ idText node ++ " not found"
  | portNotFound port =>
    "Node " ++ idText port.node ++ " has no " ++ port.direction.word ++ " port at index " ++
      Nat.repr port.index.toNat

/-- A port that was found, with its label. -/
structure Terminal where
  node : NodeId
  direction : Direction
  label : String
deriving DecidableEq

namespace Terminal

def kind (t : Terminal) : PortKind := .ofLabel t.label

/-- Joins an output and an input of two nodes that carry the same kind. Of several faults the first
one below is reported. -/
def join (a b : Terminal) : Except LinkError Unit :=
  if a.node = b.node then .error (.selfLoop a.node)
  else if a.direction = b.direction then .error (.sameDirection a.direction)
  else
    let (output, input) := if a.direction = .output then (a, b) else (b, a)
    if output.kind = input.kind then .ok () else .error (.kindMismatch output.kind input.kind)

end Terminal
end FlowGraph
