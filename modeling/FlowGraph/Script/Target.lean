import FlowGraph.Catalog.Basic
import FlowGraph.Script.Statement

/-! Running scripts. A script can do to its target what the class below offers, and nothing else. -/
namespace FlowGraph.Script

/-- What a script builds. Where an operation can fail it also returns the target after the
failure. -/
class Target (σ : Type) where
  setName : σ → String → σ
  setSpace : σ → String → σ
  setDescription : σ → String → σ
  setFlag : σ → String → Bool → σ
  addNode : σ → Node Graph → σ × Except EditError Unit
  connect : σ → Port → Port → σ × Except LinkError Unit
  enterGroup : σ → NodeId → σ × Except EditError Unit
  exitGroup : σ → σ

/-- How much a script has added. -/
structure Stats where
  nodes : Nat
  groups : Nat
  links : Nat
deriving DecidableEq

namespace Stats

def none : Stats := ⟨0, 0, 0⟩

def addNode (s : Stats) : Stats := { s with nodes := s.nodes + 1 }

def addGroup (s : Stats) : Stats := { s with nodes := s.nodes + 1, groups := s.groups + 1 }

def addLink (s : Stats) : Stats := { s with links := s.links + 1 }

end Stats

/-- Puts a node where a statement says, else at the grid place `index`, and overlays the statement's
fields. -/
def settle (node : Node Graph) (placement : Placement) (index : Nat) (fields : Fields) :
    Node Graph :=
  { node with
    position := placement.position.getD (.grid index)
    size := placement.size.getD node.size }.overlay fields

/-- The node of a statement, if its type has a template. -/
def NodeDecl.node? (catalog : Catalog) (decl : NodeDecl) (index : Nat) : Option (Node Graph) :=
  (catalog.instantiate? decl.type decl.id .origin).map fun node =>
    settle node decl.placement index decl.fields

/-- The group of a statement, with nothing in it. -/
def GroupDecl.node (decl : GroupDecl) (index : Nat) : Node Graph :=
  settle (.group decl.id decl.name decl.inputs decl.outputs .empty) decl.placement index decl.fields

section Run

variable {σ : Type} [Target σ]

mutual

/-- Runs a statement. A group that was entered is left again, whatever becomes of its statements. -/
def runStatement (catalog : Catalog) (stats : Stats) (target : σ) :
    Statement → σ × Except ScriptError Stats
  | .title _ name => (Target.setName target name, .ok stats)
  | .space _ name => (Target.setSpace target name, .ok stats)
  | .description _ text => (Target.setDescription target text, .ok stats)
  | .flag _ name value => (Target.setFlag target name value, .ok stats)
  | .node line decl =>
    match decl.node? catalog stats.nodes with
    | none => (target, .error (.unknownType line decl.type))
    | some node =>
      match Target.addNode target node with
      | (target, .ok _) => (target, .ok stats.addNode)
      | (target, .error cause) => (target, .error (.edit line cause))
  | .group line decl body =>
    match Target.addNode target (decl.node stats.nodes) with
    | (target, .error cause) => (target, .error (.edit line cause))
    | (target, .ok _) =>
      match Target.enterGroup target decl.id with
      | (target, .error cause) => (target, .error (.edit line cause))
      | (target, .ok _) =>
        let (target, result) := runStatements catalog stats.addGroup target body
        (Target.exitGroup target, result)
  | .connect line link =>
    match Target.connect target ⟨link.source.node, .output, link.source.port⟩
        ⟨link.target.node, .input, link.target.port⟩ with
    | (target, .ok _) => (target, .ok stats.addLink)
    | (target, .error cause) => (target, .error (.link line cause))

/-- Runs statements up to the first that fails. -/
def runStatements (catalog : Catalog) (stats : Stats) (target : σ) :
    List Statement → σ × Except ScriptError Stats
  | [] => (target, .ok stats)
  | s :: rest =>
    match runStatement catalog stats target s with
    | (target, .ok stats) => runStatements catalog stats target rest
    | (target, .error e) => (target, .error e)

end

/-- Runs a script against a target. -/
def run (catalog : Catalog) (script : List Statement) (target : σ) : σ × Except ScriptError Stats :=
  runStatements catalog .none target script

end Run
end FlowGraph.Script
