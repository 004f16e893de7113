import FlowGraph.Document.Basic

/-! Stored documents. A graph is stored as a list of nodes in any order, with the links that touch a
boundary node apart from the others; a project file holds one with the metadata and the viewport. -/
namespace FlowGraph

/-! ### What can go wrong -/

/-- The version of project files that is read and written. -/
def projectVersion : UInt32 := 1

inductive FileError where
  /-- The text of a project file does not have its form. -/
  | malformed
  /-- A snapshot does not hold the image of a document. -/
  | unreadable
  | io (reason : String)
  | unsupportedVersion (found : UInt32)
deriving DecidableEq

def FileError.message : FileError → String
  | malformed => "Failed to parse project JSON: "
  | unreadable => "Snapshot decoding failed: "
  | io reason => "I/O error: " ++ reason
  | unsupportedVersion found =>
    "Unsupported project version " ++ Nat.repr found.toNat ++ " (expected " ++
      Nat.repr projectVersion.toNat ++ ")"

/-! ### Stored graphs -/

structure GraphRecord where
  nodes : List (Node GraphRecord)
  links : List Link
  boundaryLinks : List Link

namespace GraphRecord

section Fold

variable {α : Type}

mutual

/-- Computes a value for a record from its nodes, each with the value of its nested record, and its
links. -/
def fold (f : List (Node GraphRecord × Option α) → List Link → List Link → α) : GraphRecord → α
  | ⟨nodes, links, boundaryLinks⟩ => f (foldNodes f nodes) links boundaryLinks

def foldNodes (f : List (Node GraphRecord × Option α) → List Link → List Link → α) :
    List (Node GraphRecord) → List (Node GraphRecord × Option α)
  | [] => []
  | n :: ns => (n, foldNode f n) :: foldNodes f ns

def foldNode (f : List (Node GraphRecord × Option α) → List Link → List Link → α) :
    Node GraphRecord → Option α
  | ⟨_, _, _, _, _, _, _, _, inner⟩ => foldInner f inner

def foldInner (f : List (Node GraphRecord × Option α) → List Link → List Link → α) :
    Option GraphRecord → Option α
  | none => none
  | some r => some (fold f r)

end

theorem foldInner_eq (f : List (Node GraphRecord × Option α) → List Link → List Link → α)
    (inner : Option GraphRecord) : foldInner f inner = inner.map (fold f) := by
  cases inner <;> rfl

theorem foldNode_eq (f : List (Node GraphRecord × Option α) → List Link → List Link → α)
    (n : Node GraphRecord) : foldNode f n = n.inner.map (fold f) := by
  cases n with
  | mk => rw [foldNode, foldInner_eq]

theorem foldNodes_eq (f : List (Node GraphRecord × Option α) → List Link → List Link → α)
    (nodes : List (Node GraphRecord)) :
    foldNodes f nodes = nodes.map fun n => (n, n.inner.map (fold f)) := by
  induction nodes with
  | nil => rfl
  | cons n ns ih => rw [foldNodes, ih, foldNode_eq, List.map_cons]

theorem fold_eq (f : List (Node GraphRecord × Option α) → List Link → List Link → α)
    (r : GraphRecord) :
    r.fold f = f (r.nodes.map fun n => (n, n.inner.map (fold f))) r.links r.boundaryLinks := by
  cases r with
  | mk nodes links boundaryLinks => rw [fold, foldNodes_eq]

end Fold

/-- The record of a graph. -/
def ofGraph : Graph → GraphRecord := Graph.fold fun entries links =>
  let g : Graph := ⟨entries.map Prod.fst, links⟩
  ⟨entries.map fun (n, inner) => n.withInner inner, g.innerLinks, g.boundaryLinks⟩

theorem ofGraph_eq (g : Graph) :
    ofGraph g = ⟨g.nodes.map fun n => n.withInner (n.inner.map ofGraph), g.innerLinks,
      g.boundaryLinks⟩ := by
  cases g with
  | mk nodes links =>
    rw [ofGraph, Graph.fold_eq]
    simp [Function.comp_def]

/-- Adds the nodes one by one and leaves out those that are refused. -/
def addNodes (add : Graph → Node Graph → Except EditError Graph) (nodes : List (Node Graph)) :
    Graph :=
  nodes.foldl (fun g n => match add g n with | .ok h => h | .error _ => g) .empty

/-- Makes the links one by one and leaves out those that are refused. -/
def addLinks (g : Graph) (links : List Link) : Graph :=
  links.foldl (fun g l => match g.connectLink l with | .ok h => h | .error _ => g) g

def rebuild (add : Graph → Node Graph → Except EditError Graph)
    (entries : List (Node GraphRecord × Option Graph)) (links boundaryLinks : List Link) : Graph :=
  addLinks (addNodes add (entries.map fun (n, inner) => n.withInner inner)) (links ++ boundaryLinks)

/-- The nested graph that a record stands for: boundary nodes may be in it. -/
def toNestedGraph : GraphRecord → Graph := fold (rebuild Graph.insert)

/-- The graph of a document that a record stands for: boundary nodes are left out. -/
def toGraph (r : GraphRecord) : Graph :=
  rebuild Graph.add (r.nodes.map fun n => (n, n.inner.map toNestedGraph)) r.links r.boundaryLinks

end GraphRecord

/-! ### Project files -/

structure ProjectFile where
  version : UInt32
  metadata : Metadata
  root : GraphRecord
  viewport : Viewport

namespace ProjectFile

def ofDocument (d : Document) : ProjectFile :=
  ⟨projectVersion, d.metadata, .ofGraph d.root, d.viewport⟩

def toDocument (p : ProjectFile) : Except FileError Document :=
  if p.version = projectVersion then .ok (.ofGraph p.metadata p.viewport p.root.toGraph)
  else .error (.unsupportedVersion p.version)

end ProjectFile
end FlowGraph
