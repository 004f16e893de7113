import FlowGraph.Graph.Port
import FlowGraph.NameMap
import FlowGraph.Number.Decimal
import FlowGraph.Text.Basic

/-! Nodes and the values of their fields. The type of nested graphs is a parameter, so that nodes
serve graphs and stored records of graphs alike. -/
namespace FlowGraph

/-! ### Values -/

inductive Value where
  | number (n : Number)
  | bool (b : Bool)
  | text (s : String)
  | vector (ns : List Number)
deriving DecidableEq, Inhabited

abbrev Fields := NameMap Value

namespace Value

def number? : Value → Option Number
  | number n => some n
  | _ => none

def bool? : Value → Option Bool
  | bool b => some b
  | _ => none

def text? : Value → Option String
  | text s => some s
  | _ => none

def boolText (b : Bool) : String := if b then "true" else "false"

/-- The values between brackets, separated by commas. -/
def bracketed (items : List String) : String := "[" ++ String.intercalate ", " items ++ "]"

/-- The value as an expression of the generated source. -/
def source : Value → String
  | number n => n.toText Number.sourceLayout
  | bool b => boolText b
  | text s => Text.quote s
  | vector ns => bracketed (ns.map (·.toText Number.sourceLayout))

/-- Equality of values, where numbers are compared by value. -/
def agrees : Value → Value → Bool
  | number a, number b => a.sameValue b
  | bool a, bool b => a == b
  | text a, text b => a == b
  | vector a, vector b => a.length == b.length && (a.zip b).all fun p => p.1.sameValue p.2
  | _, _ => false

end Value

/-! ### Nodes -/

structure Position where
  x : Number
  y : Number
deriving DecidableEq

structure Size where
  width : Number
  height : Number
deriving DecidableEq

def Position.origin : Position := ⟨.zero, .zero⟩

def Position.agrees (p q : Position) : Bool := p.x.sameValue q.x && p.y.sameValue q.y

/-- The size of a node that was given none. -/
def Size.standard : Size := ⟨.ofNat 160, .ofNat 60⟩

def Size.agrees (s t : Size) : Bool := s.width.sameValue t.width && s.height.sameValue t.height

/-- A node; `inner` is the nested graph of a group. -/
structure Node (G : Type) where
  id : NodeId
  type : String
  position : Position
  size : Size
  inputs : List String
  outputs : List String
  fields : Fields
  isGroup : Bool
  inner : Option G
deriving DecidableEq

/-- Where the `n`-th node is placed when nothing says where: four in a row. -/
def Position.grid (n : Nat) : Position := ⟨.ofNat (200 + 220 * (n % 4)), .ofNat (120 * (n / 4))⟩

namespace Node

variable {G H : Type}

def ofType (id : NodeId) (type : String) (inputs outputs : List String) : Node G where
  id
  type
  position := .origin
  size := .standard
  inputs
  outputs
  fields := .empty
  isGroup := false
  inner := none

def groupType : String := "group"

/-- A group with an empty nested graph. -/
def group (id : NodeId) (name : String) (inputs outputs : List String) (inner : G) : Node G :=
  { (ofType id groupType inputs outputs : Node G) with
    fields := NameMap.empty.insert "name" (.text name)
    isGroup := true
    inner := some inner }

/-- The type of the nodes that stand for a group's own flow ports inside its nested graph. -/
def boundaryType : Direction → String
  | .input => "group-input"
  | .output => "group-output"

def boundarySide? (type : String) : Option Direction :=
  if type = boundaryType .input then some .input
  else if type = boundaryType .output then some .output
  else none

def isBoundary (n : Node G) : Bool := (boundarySide? n.type).isSome

def boundary (side : Direction) (id : NodeId) : Node G :=
  match side with
  | .input =>
    { (ofType id (boundaryType .input) [] [Label.flow] : Node G) with
      position := ⟨.ofNat 40, .ofNat 120⟩ }
  | .output =>
    { (ofType id (boundaryType .output) [Label.flow] [] : Node G) with
      position := ⟨.ofNat 640, .ofNat 120⟩ }

def ports (n : Node G) : Direction → List String
  | .input => n.inputs
  | .output => n.outputs

/-- The first plain flow port of a side. -/
def flowPort? (n : Node G) (side : Direction) : Option Nat :=
  (n.ports side).findIdx? (· == Label.flow)

def hasFlow (n : Node G) (side : Direction) : Bool := (n.ports side).any Label.isFlow

def dataOutputs (n : Node G) : Nat := n.outputs.countP (!Label.isFlow ·)

def text? (n : Node G) (name : String) : Option String := (n.fields.get? name).bind Value.text?

def displayName (n : Node G) : String := (n.text? "name").getD n.type

def withInner (n : Node G) (inner : Option H) : Node H where
  id := n.id
  type := n.type
  position := n.position
  size := n.size
  inputs := n.inputs
  outputs := n.outputs
  fields := n.fields
  isGroup := n.isGroup
  inner

def overlay (n : Node G) (fields : Fields) : Node G :=
  { n with fields := n.fields.insertAll fields.entries }

/-- Agreement of all but the nested graphs, where numbers are compared by value. -/
def agrees (n : Node G) (m : Node H) : Bool :=
  n.id == m.id && n.type == m.type && n.position.agrees m.position && n.size.agrees m.size &&
    n.inputs == m.inputs && n.outputs == m.outputs && n.isGroup == m.isGroup &&
    n.fields.entries.length == m.fields.entries.length &&
    (n.fields.entries.zip m.fields.entries).all fun p => p.1.1 == p.2.1 && p.1.2.agrees p.2.2

end Node
end FlowGraph
