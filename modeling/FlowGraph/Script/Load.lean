import FlowGraph.Document.History
import FlowGraph.Script.Parser
import FlowGraph.Script.Target

/-! Scripts on documents: the target that they edit a document through, and loading, where all of a
script takes effect, or nothing. -/
namespace FlowGraph.Script

/-! ### Workbenches -/

/-- The metadata and graph being built, the groups that the script is in, and the open group of the
document around them. -/
structure Workbench where
  metadata : Metadata
  focus : Focus
  enclosing : Option (Node Graph)

namespace Workbench

/-- A workbench on the active graph of a document. -/
def ofDocument (d : Document) : Workbench := ⟨d.metadata, .ofGraph d.active, d.focus.currentGroup?⟩

/-- The group that the graph being edited belongs to. -/
def group? (w : Workbench) : Option (Node Graph) := w.focus.currentGroup?.or w.enclosing

def setGraph (w : Workbench) (active : Graph) : Workbench :=
  { w with focus := { w.focus with active } }

/-- Adds a node. A boundary node is taken if the group has its port and there is none yet. -/
def addNode (w : Workbench) (n : Node Graph) : Except EditError Workbench :=
  match Node.boundarySide? n.type with
  | none => (w.focus.active.add n).map w.setGraph
  | some side =>
    if w.group?.any (·.exposes side) && (w.focus.active.boundaryIds side).isEmpty then
      (w.focus.active.insert n).map w.setGraph
    else .error (.misplacedBoundary n.id n.type)

def connect (w : Workbench) (a b : Port) : Except LinkError (Link × Workbench) :=
  (w.focus.active.connect a b).map fun (link, g) => (link, w.setGraph g)

def enterGroup (w : Workbench) (id : NodeId) : Except EditError Workbench :=
  (w.focus.enter id .standard).map fun focus => { w with focus }

/-- Leaves a group with its boundary nodes reconciled. -/
def exitGroup (w : Workbench) : Workbench :=
  match w.focus.reconcile.2.close with
  | some (_, focus) => { w with focus }
  | none => w

/-- A failed operation leaves the workbench as it was. -/
def settled {ε : Type} (w : Workbench) : Except ε Workbench → Workbench × Except ε Unit
  | .ok w => (w, .ok ())
  | .error e => (w, .error e)

instance : Target Workbench where
  setName w name := { w with metadata := { w.metadata with name } }
  setSpace w space := { w with metadata := { w.metadata with space } }
  setDescription w description := { w with metadata := { w.metadata with description } }
  setFlag w name value :=
    { w with metadata := { w.metadata with flags := w.metadata.flags.insert name value } }
  addNode w n := w.settled (w.addNode n)
  connect w a b := w.settled ((w.connect a b).map Prod.snd)
  enterGroup w id := w.settled (w.enterGroup id)
  exitGroup := exitGroup

/-- Closes the groups that are still entered, and puts the graph and the metadata into the
document. -/
def finish (w : Workbench) (d : Document) : Document :=
  { d with metadata := w.metadata }.setActive w.focus.closeAll.2.active

end Workbench

/-! ### Loading -/

inductive LoadError where
  | script (cause : ScriptError)
  | file (cause : FileError)
deriving DecidableEq

def LoadError.message : LoadError → String
  | script cause => cause.message
  | file cause => cause.message

/-- What a script added, and how many nodes it replaced. -/
structure LoadReport where
  stats : Stats
  replaced : Nat
deriving DecidableEq

/-- Runs a script on the active graph as it is; what it did up to a failure stays. -/
def interpret (catalog : Catalog) (script : List Statement) (d : Document) :
    Document × Except ScriptError Stats :=
  let (w, result) := run catalog script (Workbench.ofDocument d)
  (w.finish d, result)

/-- Replaces the active graph by what a script builds. If the script fails, the document goes back
to the snapshot taken before. -/
def load (catalog : Catalog) (text : String) (d : Document) (h : History) :
    Document × History × Except LoadError LoadReport :=
  match parse text with
  | .error e => (d, h, .error (.script e))
  | .ok script =>
    match interpret catalog script (d.setActive .empty) with
    | (built, .ok stats) =>
      let done := built.reconcile.2
      (done, h.save done, .ok ⟨stats, d.active.nodes.length⟩)
    | (built, .error e) =>
      match (Snapshot.capture d).restore with
      | .ok before => (before, h, .error (.script e))
      | .error cause => (built, h, .error (.file cause))

end FlowGraph.Script
