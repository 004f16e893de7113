import FlowGraph.Graph.Basic

/-! Boundary nodes: a group's nested graph holds one node for the group's plain flow input and one
for its plain flow output, exactly when the group has that port. -/
namespace FlowGraph

/-- The boundary nodes of a nested graph. -/
structure Boundary where
  input : Option NodeId
  output : Option NodeId
deriving DecidableEq

/-- Whether a group has the flow port that a boundary node of this side stands for. -/
def Node.exposes {G : Type} (group : Node G) (side : Direction) : Bool :=
  (group.flowPort? side).isSome

namespace Graph

def boundaryIds (g : Graph) (side : Direction) : List NodeId :=
  (g.nodes.filter (·.type == Node.boundaryType side)).map (·.id)

def boundary (g : Graph) : Boundary where
  input := (g.boundaryIds .input).head?
  output := (g.boundaryIds .output).head?

/-- Leaves one boundary node of a side if it is wanted, else none. Of several the lowest id
stays. -/
def reconcileSide (g : Graph) (side : Direction) (wanted : Bool) : Option NodeId × Graph :=
  match g.boundaryIds side, wanted with
  | [], false => (none, g)
  | [], true =>
    match g.insert (.boundary side g.nextId) with
    | .ok h => (some g.nextId, h)
    | .error _ => (none, g)
  | first :: rest, true => (some first, rest.foldl erase g)
  | stale, false => (none, stale.foldl erase g)

/-- Gives a nested graph the boundary nodes that the ports of its group ask for. -/
def reconcile (g : Graph) (group : Node Graph) : Boundary × Graph :=
  let (input, g) := g.reconcileSide .input (group.exposes .input)
  let (output, g) := g.reconcileSide .output (group.exposes .output)
  (⟨input, output⟩, g)

/-- Whether a link starts or ends at a boundary node. -/
def touchesBoundary (g : Graph) (l : Link) : Bool :=
  [l.source.node, l.target.node].any fun id =>
    match g.find? id with
    | some n => n.isBoundary
    | none => false

/-- The links between ordinary nodes. -/
def innerLinks (g : Graph) : List Link := g.links.filter (!g.touchesBoundary ·)

/-- The links from or to a boundary node. -/
def boundaryLinks (g : Graph) : List Link := g.links.filter g.touchesBoundary

/-- Gives a group new ports, reconciles its nested graph and drops the links that no longer fit. -/
def setPorts (g : Graph) (id : NodeId) (inputs outputs : List String) :
    Except EditError (Boundary × Graph) :=
  match g.find? id with
  | none => .error (.nodeNotFound id)
  | some n =>
    if n.isGroup then
      let group := { n with inputs, outputs }
      let (boundary, inner) := (group.inner.getD .empty).reconcile group
      .ok (boundary, (g.modify id fun _ => { group with inner := some inner.prune }).prune)
    else .error (.notAGroup id)

end Graph
end FlowGraph
