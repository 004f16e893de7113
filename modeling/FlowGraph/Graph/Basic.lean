import FlowGraph.Graph.Node

/-! Graphs: nodes in ascending order of their ids, and links in the order they were made. A node is
found by its own id: there is no table of keys beside the nodes, so that the key of a node is its id
by construction. -/
namespace FlowGraph

structure Graph where
  nodes : List (Node Graph)
  links : List Link

/-- Why a node cannot be edited as asked. -/
inductive EditError where
  | duplicateId (id : NodeId)
  | nodeNotFound (id : NodeId)
  | protectedNode (id : NodeId) (type : String)
  | notAGroup (id : NodeId)
  | misplacedBoundary (id : NodeId) (type : String)
deriving DecidableEq

def EditError.message : EditError → String
  | duplicateId id => "A node with id " ++ idText id ++ " already exists in this graph"
  | nodeNotFound id => "Node " ++ idText id ++ " not found"
  | protectedNode id type =>
    "Node " ++ idText id ++ " is a '" ++ type ++ "' boundary node and cannot be deleted"
  | notAGroup id => "Node " ++ idText id ++ " is not a group"
  | misplacedBoundary id type =>
    "Node " ++ idText id ++ " is a '" ++ type ++
      "' boundary node, which only a group exposing that flow port can hold"

namespace Graph

def empty : Graph := ⟨[], []⟩

instance : Inhabited Graph := ⟨empty⟩

/-! ### Nested graphs -/

section Fold

variable {α : Type}

mutual

/-- Computes a value for a graph from its nodes, each with the value of its nested graph, and its
links. -/
def fold (f : List (Node Graph × Option α) → List Link → α) : Graph → α
  | ⟨nodes, links⟩ => f (foldNodes f nodes) links

def foldNodes (f : List (Node Graph × Option α) → List Link → α) :
    List (Node Graph) → List (Node Graph × Option α)
  | [] => []
  | n :: ns => (n, foldNode f n) :: foldNodes f ns

def foldNode (f : List (Node Graph × Option α) → List Link → α) : Node Graph → Option α
  | ⟨_, _, _, _, _, _, _, _, inner⟩ => foldInner f inner

def foldInner (f : List (Node Graph × Option α) → List Link → α) : Option Graph → Option α
  | none => none
  | some g => some (fold f g)

end

theorem foldInner_eq (f : List (Node Graph × Option α) → List Link → α) (inner : Option Graph) :
    foldInner f inner = inner.map (fold f) := by
  cases inner <;> rfl

theorem foldNode_eq (f : List (Node Graph × Option α) → List Link → α) (n : Node Graph) :
    foldNode f n = n.inner.map (fold f) := by
  cases n with
  | mk => rw [foldNode, foldInner_eq]

theorem foldNodes_eq (f : List (Node Graph × Option α) → List Link → α)
    (nodes : List (Node Graph)) :
    foldNodes f nodes = nodes.map fun n => (n, n.inner.map (fold f)) := by
  induction nodes with
  | nil => rfl
  | cons n ns ih => rw [foldNodes, ih, foldNode_eq, List.map_cons]

theorem fold_eq (f : List (Node Graph × Option α) → List Link → α) (g : Graph) :
    g.fold f = f (g.nodes.map fun n => (n, n.inner.map (fold f))) g.links := by
  cases g with
  | mk nodes links => rw [fold, foldNodes_eq]

end Fold

/-! ### Looking things up -/

def find? (g : Graph) (id : NodeId) : Option (Node Graph) := g.nodes.find? (·.id == id)

def contains (g : Graph) (id : NodeId) : Bool := (g.find? id).isSome

def isEmpty (g : Graph) : Bool := g.nodes.isEmpty

def ids (g : Graph) : List NodeId := g.nodes.map (·.id)

/-- An id above every id in use. -/
def nextId (g : Graph) : NodeId := g.nodes.foldl (fun top n => max top n.id) 0 + 1

def label? (g : Graph) (p : Port) : Option String :=
  (g.find? p.node).bind fun n => (n.ports p.direction)[p.index.toNat]?

def resolve (g : Graph) (p : Port) : Except LinkError Terminal :=
  match g.find? p.node with
  | none => .error (.nodeNotFound p.node)
  | some n =>
    match (n.ports p.direction)[p.index.toNat]? with
    | none => .error (.portNotFound p)
    | some label => .ok ⟨p.node, p.direction, label⟩

/-- The link into an input, the first if there are several. -/
def incoming? (g : Graph) (id : NodeId) (port : Nat) : Option Link :=
  g.links.find? fun l => l.target.node == id && l.target.port.toNat == port

def outgoing (g : Graph) (id : NodeId) (port : Nat) : List Link :=
  g.links.filter fun l => l.source.node == id && l.source.port.toNat == port

/-- Whether a link enters the first plain flow input of a node. -/
def hasIncomingFlow (g : Graph) (n : Node Graph) : Bool :=
  match n.flowPort? .input with
  | some port => (g.incoming? n.id port).isSome
  | none => false

/-! ### Editing -/

/-- Puts a node before the first one with a larger id. -/
def place (n : Node Graph) : List (Node Graph) → List (Node Graph)
  | [] => [n]
  | m :: ms => if n.id < m.id then n :: m :: ms else m :: place n ms

/-- Inserts a node of any type. -/
def insert (g : Graph) (n : Node Graph) : Except EditError Graph :=
  if g.contains n.id then .error (.duplicateId n.id)
  else .ok { g with nodes := place n g.nodes }

/-- Adds a node. Boundary nodes come and go with the ports of their group, never on their own. -/
def add (g : Graph) (n : Node Graph) : Except EditError Graph :=
  if n.isBoundary then .error (.misplacedBoundary n.id n.type) else g.insert n

/-- Drops a node and every link that touches it. -/
def erase (g : Graph) (id : NodeId) : Graph where
  nodes := g.nodes.filter (·.id != id)
  links := g.links.filter (!·.touches id)

def remove (g : Graph) (id : NodeId) : Except EditError (Node Graph × Graph) :=
  match g.find? id with
  | none => .error (.nodeNotFound id)
  | some n => if n.isBoundary then .error (.protectedNode id n.type) else .ok (n, g.erase id)

def modify (g : Graph) (id : NodeId) (f : Node Graph → Node Graph) : Graph :=
  { g with nodes := g.nodes.map fun n => if n.id == id then f n else n }

def update (g : Graph) (id : NodeId) (f : Node Graph → Node Graph) : Except EditError Graph :=
  if g.contains id then .ok (g.modify id f) else .error (.nodeNotFound id)

def move (g : Graph) (id : NodeId) (position : Position) : Except EditError Graph :=
  g.update id fun n => { n with position }

def setField (g : Graph) (id : NodeId) (name : String) (value : Value) : Except EditError Graph :=
  g.update id fun n => { n with fields := n.fields.insert name value }

/-- Joins an output and an input, given in either order. The new link takes the place of any link
into the same input. -/
def connect (g : Graph) (a b : Port) : Except LinkError (Link × Graph) := do
  let terminalA ← g.resolve a
  let terminalB ← g.resolve b
  terminalA.join terminalB
  let (output, input) := if a.direction = .output then (a, b) else (b, a)
  let link : Link := ⟨⟨output.node, output.index⟩, ⟨input.node, input.index⟩⟩
  return (link, { g with links := g.links.filter (·.target != link.target) ++ [link] })

/-- Joins the output and the input that a link names. -/
def connectLink (g : Graph) (l : Link) : Except LinkError Graph :=
  (g.connect ⟨l.source.node, .output, l.source.port⟩ ⟨l.target.node, .input, l.target.port⟩).map
    Prod.snd

def disconnect (g : Graph) (p : Link → Bool) : List Link × Graph :=
  (g.links.filter p, { g with links := g.links.filter (!p ·) })

/-- Whether a link still joins an output and an input that may be joined. -/
def fits (g : Graph) (l : Link) : Bool :=
  match g.resolve ⟨l.source.node, .output, l.source.port⟩,
    g.resolve ⟨l.target.node, .input, l.target.port⟩ with
  | .ok a, .ok b => (a.join b).toBool
  | _, _ => false

/-- The links that do not fit any more. -/
def staleLinks (g : Graph) : List Link := g.links.filter (!g.fits ·)

/-- Drops what is listed as stale; a graph with no stale link is left as it is. -/
def prune (g : Graph) : Graph :=
  let stale := g.staleLinks
  if stale.isEmpty then g else { g with links := g.links.filter (!stale.contains ·) }

/-- How many links pruning reports as dropped. -/
def staleCount (g : Graph) : Nat := g.staleLinks.length

/-- Equality of graphs, where numbers are compared by value. -/
def agrees (g h : Graph) : Bool :=
  let compare : Graph → Graph → Bool := fold fun entries links other =>
    entries.length == other.nodes.length && links == other.links &&
      (entries.zip other.nodes).all fun ((n, inner), m) =>
        n.agrees m && match inner, m.inner with
          | none, none => true
          | some agreesWith, some nested => agreesWith nested
          | _, _ => false
  compare g h

end Graph
end FlowGraph
