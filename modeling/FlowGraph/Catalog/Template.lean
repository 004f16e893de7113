import FlowGraph.Graph.Basic

/-! Templates: what nodes of a type look like and how they are written in generated source. -/
namespace FlowGraph

/-- A part of the generated module that flow starts from. -/
inductive Section where
  | init
  | update
  | render
  | teardown
  | custom (name : String)
deriving DecidableEq

namespace Section

def hook : Section → String
  | init => "start"
  | update => "update"
  | render => "render"
  | teardown => "destroy"
  | custom name => name

def parameters : Section → String
  | update => "delta"
  | _ => ""

/-- The sections that every module has, in their order. -/
def lifecycle : List Section := [init, update, render, teardown]

end Section

/-- A property that a module registers. -/
structure Property where
  name : String
  default : Value
deriving DecidableEq

/-- What a template gets to write a node: the expressions connected to its inputs, the texts of its
branches by output, and the node's variable. -/
structure Emission where
  inputs : List (Option String)
  branches : List String
  varName : String

namespace Emission

def input? (e : Emission) (index : Nat) : Option String := e.inputs[index]?.join

/-- The expression connected to an input, else the field's value, else `fallback`. -/
def inputOr (e : Emission) (index : Nat) (node : Node Graph) (field fallback : String) : String :=
  match e.input? index, node.fields.get? field with
  | some expression, _ => expression
  | none, some value => value.source
  | none, none => fallback

/-- The expression connected to an input, else the field's value, else null. -/
def inputOrField (e : Emission) (index : Nat) (node : Node Graph) (field : String) : String :=
  e.inputOr index node field "null"

def branch (e : Emission) (index : Nat) : String := e.branches[index]?.getD ""

end Emission

structure Template where
  type : String
  inputs : List String
  outputs : List String
  /-- Whether a node is an expression, written wherever its value is used. -/
  isPure : Bool
  /-- The fields that a new node starts with. -/
  defaults : Fields
  /-- The section that a node of this type starts. -/
  anchor : Node Graph → Option Section
  /-- The node as an expression or as statements. -/
  emit : Node Graph → Emission → String
  /-- How the value at an output label is reached from the text for the node. -/
  access : Node Graph → String → String → Option String
  /-- Whether the variable of a flow node is the value of its data output. -/
  single : Bool
  property : Node Graph → Option Property

namespace Template

/-- A template without fields, anchor, access or property. It is pure if it has no flow ports. -/
def basic (type : String) (inputs outputs : List String)
    (emit : Node Graph → Emission → String) : Template where
  type
  inputs
  outputs
  isPure := !(inputs ++ outputs).any Label.isFlow
  defaults := .empty
  anchor _ := none
  emit
  access _ _ _ := none
  single := false
  property _ := none

end Template
end FlowGraph
