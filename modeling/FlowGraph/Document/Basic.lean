import FlowGraph.Graph.Boundary

/-! Documents: a module's metadata, its graph with the groups that are open, and the viewport. The
nested graph of an open group is taken out of its group node while it is being edited, and put back
when the group is closed. -/
namespace FlowGraph

/-! ### Open groups -/

/-- The part of the canvas that is shown. -/
structure Viewport where
  panX : Number
  panY : Number
  zoom : Number
deriving DecidableEq

def Viewport.standard : Viewport := ⟨.zero, .zero, .ofNat 1⟩

def Viewport.agrees (v w : Viewport) : Bool :=
  v.panX.sameValue w.panX && v.panY.sameValue w.panY && v.zoom.sameValue w.zoom

/-- An open group: the graph that holds it, and the viewport that closing it brings back. -/
structure Frame where
  group : NodeId
  parent : Graph
  viewport : Viewport

namespace Frame

/-- The parent graph with `inner` put back into the group. -/
def fill (f : Frame) (inner : Graph) : Graph :=
  f.parent.modify f.group fun n => { n with inner := some inner }

end Frame

/-- The graph being edited and the open groups around it, innermost first. -/
structure Focus where
  active : Graph
  frames : List Frame

namespace Focus

def ofGraph (g : Graph) : Focus := ⟨g, []⟩

/-- The ids of the open groups, outermost first. -/
def path (f : Focus) : List NodeId := (f.frames.map (·.group)).reverse

def depth (f : Focus) : Nat := f.frames.length

/-- The node of the innermost open group, without its nested graph. -/
def currentGroup? (f : Focus) : Option (Node Graph) :=
  f.frames.head?.bind fun frame => frame.parent.find? frame.group

/-- Gives the active graph the boundary nodes that the open group asks for. -/
def reconcile (f : Focus) : Boundary × Focus :=
  match f.currentGroup? with
  | none => (⟨none, none⟩, f)
  | some group =>
    let (boundary, active) := f.active.reconcile group
    (boundary, { f with active })

/-- Moves into a group. -/
def enter (f : Focus) (id : NodeId) (viewport : Viewport) : Except EditError Focus :=
  match f.active.find? id with
  | none => .error (.nodeNotFound id)
  | some n =>
    if n.isGroup then
      .ok ⟨n.inner.getD .empty,
        ⟨id, f.active.modify id fun n => { n with inner := none }, viewport⟩ :: f.frames⟩
    else .error (.notAGroup id)

/-- Moves into a group and reconciles its boundary nodes. -/
def openGroup (f : Focus) (id : NodeId) (viewport : Viewport) :
    Except EditError (Boundary × Focus) :=
  (f.enter id viewport).map reconcile

/-- Moves out of the innermost open group and gives back its viewport. -/
def close (f : Focus) : Option (Viewport × Focus) :=
  match f.frames with
  | [] => none
  | frame :: frames => some (frame.viewport, ⟨frame.fill f.active.prune, frames⟩)

/-- Closes the frames from the innermost on, pruning on the way. -/
def closeFrames (active : Graph) : List Frame → Graph
  | [] => active
  | frame :: frames => closeFrames (frame.fill active.prune) frames

/-- Moves out of all open groups and gives back the viewport of the outermost. -/
def closeAll (f : Focus) : Option Viewport × Focus :=
  (f.frames.getLast?.map (·.viewport), ofGraph (closeFrames f.active f.frames))

/-- The whole graph, with every open group's nested graph in its place. -/
def root (f : Focus) : Graph := f.frames.foldl (fun inner frame => frame.fill inner) f.active

def agrees (f g : Focus) : Bool :=
  f.active.agrees g.active && f.frames.length == g.frames.length &&
    (f.frames.zip g.frames).all fun (a, b) =>
      a.group == b.group && a.parent.agrees b.parent && a.viewport.agrees b.viewport

end Focus

/-! ### Documents -/

structure Metadata where
  name : String
  space : String
  description : String
  flags : NameMap Bool
deriving DecidableEq

def Metadata.ofName (name : String) : Metadata := ⟨name, "", "", .empty⟩

structure Document where
  metadata : Metadata
  viewport : Viewport
  focus : Focus

namespace Document

def ofGraph (metadata : Metadata) (viewport : Viewport) (root : Graph) : Document :=
  ⟨metadata, viewport, .ofGraph root⟩

/-- A document with an empty graph. -/
def blank (metadata : Metadata) : Document := ofGraph metadata .standard .empty

/-- The graph being edited. -/
def active (d : Document) : Graph := d.focus.active

def root (d : Document) : Graph := d.focus.root

def setActive (d : Document) (active : Graph) : Document :=
  { d with focus := { d.focus with active } }

/-- Opens a group of the active graph; its nested graph starts at the standard viewport. -/
def openGroup (d : Document) (id : NodeId) : Except EditError (Boundary × Document) :=
  (d.focus.openGroup id d.viewport).map fun (boundary, focus) =>
    (boundary, { d with focus, viewport := .standard })

/-- Closes the innermost open group, if any, and restores the viewport it was opened from. -/
def closeGroup (d : Document) : Option Document :=
  d.focus.close.map fun (viewport, focus) => { d with focus, viewport }

def closeAll (d : Document) : Document :=
  let (viewport, focus) := d.focus.closeAll
  { d with focus, viewport := viewport.getD d.viewport }

def setPorts (d : Document) (id : NodeId) (inputs outputs : List String) :
    Except EditError (Boundary × Document) :=
  (d.active.setPorts id inputs outputs).map fun (boundary, active) => (boundary, d.setActive active)

def reconcile (d : Document) : Boundary × Document :=
  let (boundary, focus) := d.focus.reconcile
  (boundary, { d with focus })

/-- Equality of documents, where numbers are compared by value. -/
def agrees (d e : Document) : Bool :=
  d.metadata == e.metadata && d.viewport.agrees e.viewport && d.focus.agrees e.focus

end Document
end FlowGraph
