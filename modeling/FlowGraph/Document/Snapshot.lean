import FlowGraph.Bytes
import FlowGraph.Document.Basic
import FlowGraph.Document.ProjectFile

/-! Snapshots: the image of a document in bytes. -/
namespace FlowGraph

/-- What a snapshot holds: the whole graph, and the way to the group that was being edited. -/
structure Image where
  metadata : Metadata
  root : GraphRecord
  openGroups : List (NodeId × Viewport)
  viewport : Viewport

namespace Image

def ofDocument (d : Document) : Image where
  metadata := d.metadata
  root := .ofGraph d.root
  openGroups := (d.focus.frames.map fun f => (f.group, f.viewport)).reverse
  viewport := d.viewport

/-- Opens the groups one inside the other, each from the viewport it was opened from, up to the
first that cannot be opened. -/
def reopen (d : Document) : List (NodeId × Viewport) → Document
  | [] => d
  | (id, viewport) :: rest =>
    match { d with viewport }.openGroup id with
    | .ok (_, inside) => reopen inside rest
    | .error _ => d

def toDocument (i : Image) : Document :=
  { reopen (.ofGraph i.metadata .standard i.root.toGraph) i.openGroups with viewport := i.viewport }

/-! ### Writing -/

def number (x : Number) : Bytes := Bytes.littleEndian 8 x.bits.toNat

def nodeId (id : NodeId) : Bytes := Bytes.ofNat id.toNat

def viewportBytes (v : Viewport) : Bytes := number v.panX ++ number v.panY ++ number v.zoom

def value : Value → Bytes
  | .number n => Bytes.ofNat 0 ++ number n
  | .bool b => Bytes.ofNat 1 ++ Bytes.ofBool b
  | .text s => Bytes.ofNat 2 ++ Bytes.ofString s
  | .vector ns => Bytes.ofNat 3 ++ Bytes.ofList number ns

def entry {α : Type} (item : α → Bytes) (e : String × α) : Bytes := Bytes.ofString e.1 ++ item e.2

def nameMap {α : Type} (item : α → Bytes) (m : NameMap α) : Bytes :=
  Bytes.ofList (entry item) m.entries

def endpoint (e : Endpoint) : Bytes := nodeId e.node ++ Bytes.ofNat e.port.toNat

def link (l : Link) : Bytes := endpoint l.source ++ endpoint l.target

def node (n : Node GraphRecord) (inner : Option Bytes) : Bytes :=
  nodeId n.id ++ Bytes.ofString n.type ++ number n.position.x ++ number n.position.y ++
    number n.size.width ++ number n.size.height ++ Bytes.ofList Bytes.ofString n.inputs ++
    Bytes.ofList Bytes.ofString n.outputs ++ nameMap value n.fields ++ Bytes.ofBool n.isGroup ++
    Bytes.ofOption id inner

def graph : GraphRecord → Bytes := GraphRecord.fold fun entries links boundaryLinks =>
  Bytes.ofList (fun (n, inner) => node n inner) entries ++ Bytes.ofList link links ++
    Bytes.ofList link boundaryLinks

def metadataBytes (m : Metadata) : Bytes :=
  Bytes.ofString m.name ++ Bytes.ofString m.space ++ Bytes.ofString m.description ++
    nameMap Bytes.ofBool m.flags

def openGroup (group : NodeId × Viewport) : Bytes := nodeId group.1 ++ viewportBytes group.2

def toBytes (i : Image) : Bytes :=
  metadataBytes i.metadata ++ graph i.root ++ Bytes.ofList openGroup i.openGroups ++
    viewportBytes i.viewport

/-! ### Reading -/

def readNumber : Bytes.Reader Number := fun bs => do
  let (bits, bs) ← Bytes.Reader.word 8 bs
  return (⟨UInt64.ofNat bits⟩, bs)

def readNodeId : Bytes.Reader NodeId := fun bs => do
  let (id, bs) ← Bytes.Reader.nat bs
  if id < UInt32.size then some (UInt32.ofNat id, bs) else none

def readViewport : Bytes.Reader Viewport := fun bs => do
  let (panX, bs) ← readNumber bs
  let (panY, bs) ← readNumber bs
  let (zoom, bs) ← readNumber bs
  return (⟨panX, panY, zoom⟩, bs)

def readValue : Bytes.Reader Value := fun bs => do
  let (tag, bs) ← Bytes.Reader.nat bs
  match tag with
  | 0 => (readNumber bs).map fun (n, bs) => (.number n, bs)
  | 1 => (Bytes.Reader.bool bs).map fun (b, bs) => (.bool b, bs)
  | 2 => (Bytes.Reader.string bs).map fun (s, bs) => (.text s, bs)
  | 3 => (Bytes.Reader.list readNumber bs).map fun (ns, bs) => (.vector ns, bs)
  | _ => none

def readEntry {α : Type} (item : Bytes.Reader α) : Bytes.Reader (String × α) := fun bs => do
  let (name, bs) ← Bytes.Reader.string bs
  let (x, bs) ← item bs
  return ((name, x), bs)

def readNameMap {α : Type} (item : Bytes.Reader α) : Bytes.Reader (NameMap α) := fun bs => do
  let (entries, bs) ← Bytes.Reader.list (readEntry item) bs
  return (.ofList entries, bs)

def readEndpoint : Bytes.Reader Endpoint := fun bs => do
  let (node, bs) ← readNodeId bs
  let (port, bs) ← Bytes.Reader.nat bs
  return (⟨node, UInt64.ofNat port⟩, bs)

def readLink : Bytes.Reader Link := fun bs => do
  let (source, bs) ← readEndpoint bs
  let (target, bs) ← readEndpoint bs
  return (⟨source, target⟩, bs)

def readNode (inner : Bytes.Reader GraphRecord) : Bytes.Reader (Node GraphRecord) := fun bs => do
  let (id, bs) ← readNodeId bs
  let (type, bs) ← Bytes.Reader.string bs
  let (x, bs) ← readNumber bs
  let (y, bs) ← readNumber bs
  let (width, bs) ← readNumber bs
  let (height, bs) ← readNumber bs
  let (inputs, bs) ← Bytes.Reader.list Bytes.Reader.string bs
  let (outputs, bs) ← Bytes.Reader.list Bytes.Reader.string bs
  let (fields, bs) ← readNameMap readValue bs
  let (isGroup, bs) ← Bytes.Reader.bool bs
  let (inner, bs) ← Bytes.Reader.option inner bs
  return (⟨id, type, ⟨x, y⟩, ⟨width, height⟩, inputs, outputs, fields, isGroup, inner⟩, bs)

/-- Reads a graph whose groups are nested less than `depth` deep. -/
def readGraph : Nat → Bytes.Reader GraphRecord
  | 0, _ => none
  | depth + 1, bs => do
    let (nodes, bs) ← Bytes.Reader.list (readNode (readGraph depth)) bs
    let (links, bs) ← Bytes.Reader.list readLink bs
    let (boundaryLinks, bs) ← Bytes.Reader.list readLink bs
    return (⟨nodes, links, boundaryLinks⟩, bs)

def readMetadata : Bytes.Reader Metadata := fun bs => do
  let (name, bs) ← Bytes.Reader.string bs
  let (space, bs) ← Bytes.Reader.string bs
  let (description, bs) ← Bytes.Reader.string bs
  let (flags, bs) ← readNameMap Bytes.Reader.bool bs
  return (⟨name, space, description, flags⟩, bs)

def readOpenGroup : Bytes.Reader (NodeId × Viewport) := fun bs => do
  let (id, bs) ← readNodeId bs
  let (viewport, bs) ← readViewport bs
  return ((id, viewport), bs)

/-- Reads an image. A graph takes at least one byte, so that no group is nested deeper than there
are bytes. -/
def ofBytes? (bs : Bytes) : Option Image := do
  let depth := bs.length
  let (metadata, bs) ← readMetadata bs
  let (root, bs) ← readGraph depth bs
  let (openGroups, bs) ← Bytes.Reader.list readOpenGroup bs
  let (viewport, _) ← readViewport bs
  return ⟨metadata, root, openGroups, viewport⟩

end Image

structure Snapshot where
  bytes : Bytes
deriving DecidableEq

namespace Snapshot

def capture (d : Document) : Snapshot := ⟨(Image.ofDocument d).toBytes⟩

def restore (s : Snapshot) : Except FileError Document :=
  match Image.ofBytes? s.bytes with
  | some image => .ok image.toDocument
  | none => .error .unreadable

end Snapshot
end FlowGraph
