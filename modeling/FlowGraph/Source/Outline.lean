import FlowGraph.Catalog.Basic
import FlowGraph.Graph.Boundary

/-! What flow reaches: the steps that a section or a group is made of, in the order of flow, with
the steps of branches and of inlined groups inside, and the expressions for their data inputs. -/
namespace FlowGraph

/-! ### Expressions -/

/-- A graph at its place in the module: `stem` is what the variables of its nodes start with. -/
structure Scope where
  catalog : Catalog
  graph : Graph
  stem : String

namespace Scope

def varName (s : Scope) (id : NodeId) : String := "n" ++ s.stem ++ idText id

/-- The stem of a group's nested graph. -/
def innerStem (stem : String) (group : NodeId) : String := stem ++ idText group ++ "_"

end Scope

/-- The member `label` of the value of an expression. -/
def memberOf (base label : String) : String := operand base ++ "." ++ label

namespace Scope

/-- The expression for each input of a node. Flow inputs have none; `value` gives the expression for
the output that a data input is connected to. -/
def inputs (s : Scope) (node : Node Graph) (value : Endpoint → Option String) :
    List (Option String) :=
  node.inputs.zipIdx.map fun (label, index) =>
    if Label.isFlow label then none
    else (s.graph.incoming? node.id index).bind fun link => value link.source

/-- The expression for a data output. It is unfolded through pure nodes, each at most once on the
way from the output: `left` holds the ids that are not on the way yet. -/
def expression (s : Scope) (left : List NodeId) (output : Endpoint) : Option String := do
  let node ← s.graph.find? output.node
  let label ← node.outputs[output.port.toNat]?
  let template ← s.catalog.find? node.type
  if template.isPure then
    if _ : output.node ∈ left then
      let inputs := s.inputs node fun source => s.expression (left.erase output.node) source
      let base := template.emit node ⟨inputs, [], s.varName node.id⟩
      if 1 < node.dataOutputs then
        return (template.access node base label).getD (memberOf base label)
      else return base
    else none
  else
    let base := s.varName node.id
    match template.access node base label with
    | some text => return text
    | none =>
      if template.single then return base
      else if 1 < node.dataOutputs then return memberOf base label
      else none
termination_by left.length
decreasing_by
  have h : output.node ∈ left := by assumption
  rw [List.length_erase_of_mem h]
  exact Nat.sub_one_lt_of_lt (List.length_pos_of_mem h)

/-- The expressions for the inputs of a flow node. -/
def inputExpressions (s : Scope) (node : Node Graph) : List (Option String) :=
  s.inputs node (s.expression s.graph.ids)

end Scope

/-! ### Steps -/

inductive Outline where
  /-- A node with the expressions for its inputs, the steps of its branches by output, and the steps
  that follow it. -/
  | step (template : Template) (node : Node Graph) (inputs : List (Option String))
      (varName : String)
    (branches : List (List Outline)) (next : List Outline)
  /-- A group with the steps of its nested graph and the steps that follow it. -/
  | inlined (node : Node Graph) (body next : List Outline)

namespace Outline

mutual

/-- The source text of a step and of what follows it. -/
def text : Outline → String
  | step template node inputs varName branches next =>
    Text.stack [template.emit node ⟨inputs, branchTexts branches, varName⟩, Text.stack (texts next)]
  | inlined _ body next => Text.stack [Text.stack (texts body), Text.stack (texts next)]

def texts : List Outline → List String
  | [] => []
  | o :: os => text o :: texts os

def branchTexts : List (List Outline) → List String
  | [] => []
  | b :: bs => Text.stack (texts b) :: branchTexts bs

end

/-- The source text of steps that follow one another. -/
def source (os : List Outline) : String := Text.stack (texts os)

end Outline

namespace Scope

/-- The nodes that the links of an output lead to. -/
def targets (s : Scope) (id : NodeId) (port : Nat) : List NodeId :=
  (s.graph.outgoing id port).map (·.target.node)

/-- Takes steps from one node after the other; each step uses up ids of `left`. -/
def chain (step : List NodeId → NodeId → Option Outline × List NodeId) (left : List NodeId) :
    List NodeId → List Outline × List NodeId
  | [] => ([], left)
  | id :: ids =>
    let (o, left) := step left id
    let (os, left) := chain step left ids
    (o.toList ++ os, left)

/-- The step at a node, if its id is left, and the ids left after it. A branch may reach what
another branch reaches, and does not keep what follows the node from it. The ids left bound how far
flow goes: with `bound` at least their number all of it is followed. -/
def visit (s : Scope) (body : Node Graph → List Outline) :
    Nat → List NodeId → NodeId → Option Outline × List NodeId
  | 0, left, _ => (none, left)
  | bound + 1, left, id =>
    if id ∈ left then
      let left := left.erase id
      match s.graph.find? id with
      | none => (none, left)
      | some node =>
        match s.catalog.find? node.type with
        | none => (none, left)
        | some template =>
          let follow (port : Nat) := chain (s.visit body bound) left (s.targets id port)
          let (next, rest) := match node.flowPort? .output with
            | some port => follow port
            | none => ([], left)
          if node.isGroup then
            (some (.inlined node (if s.graph.hasIncomingFlow node then body node else []) next),
              rest)
          else
            let branches := node.outputs.zipIdx.map fun (label, port) =>
              if Label.isNamedFlow label then (follow port).1 else []
            (some (.step template node (s.inputExpressions node) (s.varName id) branches next),
              rest)
    else (none, left)

/-- The steps from nodes of a graph, in turn. -/
def outline (s : Scope) (body : Node Graph → List Outline) (entries : List NodeId) : List Outline :=
  (chain (s.visit body s.graph.ids.length) s.graph.ids entries).1

/-- Where flow enters a nested graph: at its boundary node, else at every node that has a flow input
which no link enters. -/
def entries (g : Graph) : List NodeId :=
  match g.boundary.input with
  | some id => [id]
  | none =>
    (g.nodes.filter fun n =>
      !n.isBoundary && n.exposes .input && !g.hasIncomingFlow n).map (·.id)

/-- The steps of a nested graph, for the stem of its variables. -/
def nestedOutline (catalog : Catalog) : Graph → String → List Outline :=
  Graph.fold fun nodes links stem =>
    let s : Scope := ⟨catalog, ⟨nodes.map Prod.fst, links⟩, stem⟩
    let body (group : Node Graph) : List Outline :=
      match nodes.find? (·.1.id == group.id) with
      | some (_, some inner) => inner (innerStem stem group.id)
      | _ => []
    s.outline body (entries s.graph)

/-- The steps of a group of a scope. -/
def groupOutline (s : Scope) (group : Node Graph) : List Outline :=
  match group.inner with
  | some inner => nestedOutline s.catalog inner (innerStem s.stem group.id)
  | none => []

end Scope
end FlowGraph
