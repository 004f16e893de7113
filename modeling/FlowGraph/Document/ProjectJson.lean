import FlowGraph.Document.ProjectFile
import FlowGraph.Json.Decoder

/-! The text of project files. -/
namespace FlowGraph.ProjectFile

/-! ### Writing -/

def textList (items : List String) : Json := .array (items.map .text)

def valueJson : Value → Json
  | .number n => .record [("number", .ofNumber n)]
  | .bool b => .record [("bool", .bool b)]
  | .text s => .record [("text", .text s)]
  | .vector ns => .record [("vector", .array (ns.map .ofNumber))]

def mapJson {α : Type} (item : α → Json) (m : NameMap α) : Json :=
  .record (m.entries.map fun (name, value) => (name, item value))

def endpointJson (e : Endpoint) : Json :=
  .record [("nodeId", .ofNat e.node.toNat), ("portIndex", .ofNat e.port.toNat)]

def linkJson (l : Link) : Json :=
  .record [("from", endpointJson l.source), ("to", endpointJson l.target)]

def linksJson (links : List Link) : Json := .array (links.map linkJson)

def nodeJson (n : Node GraphRecord) (inner : Option Json) : Json :=
  .record [("id", .ofNat n.id.toNat), ("type", .text n.type),
    ("position", .record [("x", .ofNumber n.position.x), ("y", .ofNumber n.position.y)]),
    ("size", .record [("width", .ofNumber n.size.width), ("height", .ofNumber n.size.height)]),
    ("inputs", textList n.inputs), ("outputs", textList n.outputs),
    ("fields", mapJson valueJson n.fields), ("isGroup", .bool n.isGroup),
    ("subGraph", inner.getD .null)]

/-- The members that a graph has, at the top of a file as in a group. -/
def graphMembers (entries : List (Node GraphRecord × Option Json))
    (links boundaryLinks : List Link) : List (String × Json) :=
  [("nodes", .array (entries.map fun (n, inner) => nodeJson n inner)),
    ("connections", linksJson links), ("groupBoundaryConnections", linksJson boundaryLinks)]

def graphJson : GraphRecord → Json := GraphRecord.fold fun entries links boundaryLinks =>
  .record (graphMembers entries links boundaryLinks)

def toJson (p : ProjectFile) : Json :=
  .record ([("version", .ofNat p.version.toNat), ("moduleName", .text p.metadata.name),
    ("moduleNamespace", .text p.metadata.space),
    ("moduleDescription", .text p.metadata.description),
    ("moduleFlags", mapJson .bool p.metadata.flags)] ++
    graphMembers (p.root.nodes.map fun n => (n, n.inner.map graphJson)) p.root.links
      p.root.boundaryLinks ++
    [("panOffset", .array [.ofNumber p.viewport.panX, .ofNumber p.viewport.panY]),
      ("zoom", .ofNumber p.viewport.zoom)])

def render (p : ProjectFile) : String := p.toJson.render

/-! ### Reading -/

open Json.Decoder

/-- How many containers may be open at once in the parts of a file that are read. -/
def nestingLimit : Nat := 127

/-- A value is an object with one member, whose name is the kind of the value. -/
def value? : Json.Decoder Value
  | room + 1, .object [(some "number", j)] => (number room j).map .number
  | room + 1, .object [(some "bool", j)] => (bool room j).map .bool
  | room + 1, .object [(some "text", j)] => (text room j).map .text
  | room + 1, .object [(some "vector", j)] => (list number room j).map .vector
  | _, _ => none

def position? : Json.Decoder Position := record ["x", "y"] fun
  | room, [x, y] => return ⟨← required number room x, ← required number room y⟩
  | _, _ => none

def size? : Json.Decoder Size := record ["width", "height"] fun
  | room, [width, height] =>
    return ⟨← required number room width, ← required number room height⟩
  | _, _ => none

def endpoint? : Json.Decoder Endpoint := record ["nodeId", "portIndex"] fun
  | room, [node, port] => return ⟨← required uint32 room node, ← required uint64 room port⟩
  | _, _ => none

def link? : Json.Decoder Link := record ["from", "to"] fun
  | room, [source, target] =>
    return ⟨← required endpoint? room source, ← required endpoint? room target⟩
  | _, _ => none

def links? : Json.Decoder (List Link) := list link?

/-- A node; `inner` reads its nested graph. -/
def node? (inner : Json → Option GraphRecord) : Json.Decoder (Node GraphRecord) :=
  record ["id", "type", "position", "size", "inputs", "outputs", "fields", "isGroup",
    "subGraph"] fun
    | room, [id, type, position, size, inputs, outputs, fields, isGroup, nested] => do
      let id ← required uint32 room id
      let type ← required text room type
      let position ← required position? room position
      let size ← required size? room size
      let inputs ← required (list text) room inputs
      let outputs ← required (list text) room outputs
      let fields ← optional .empty (nameMap value?) room fields
      let isGroup ← optional false bool room isGroup
      let inner ← optional none (nullable fun _ => inner) room nested
      return ⟨id, type, position, size, inputs, outputs, fields, isGroup, inner⟩
    | _, _ => none

/-- The nodes and links of a graph, inside a container that is open. -/
def contents? (inner : Json → Option GraphRecord) (room : Nat)
    (nodes links boundaryLinks : Option Json) : Option GraphRecord := do
  let nodes ← required (list (node? inner)) room nodes
  let links ← optional [] links? room links
  let boundaryLinks ← optional [] links? room boundaryLinks
  return ⟨nodes, links, boundaryLinks⟩

def graphWith? (inner : Json → Option GraphRecord) : Json.Decoder GraphRecord :=
  record ["nodes", "connections", "groupBoundaryConnections"] fun
    | room, [nodes, links, boundaryLinks] => contents? inner room nodes links boundaryLinks
    | _, _ => none

/-- A nested graph stands inside a node, in a list of nodes, in a graph: three containers deeper. -/
def graph? : Json.Decoder GraphRecord
  | room + 3, j => graphWith? (graph? room) (room + 3) j
  | room, j => graphWith? (fun _ => none) room j

def pan? : Json.Decoder (Number × Number)
  | room + 1, .array [x, y] => return (← number room x, ← number room y)
  | _, _ => none

def file? : Json.Decoder ProjectFile :=
  record ["version", "moduleName", "moduleNamespace", "moduleDescription", "moduleFlags", "nodes",
      "connections", "groupBoundaryConnections", "panOffset", "zoom"] fun
    | room, [version, name, space, description, flags, nodes, links, boundaryLinks, pan, zoom] => do
      let version ← required uint32 room version
      let name ← required text room name
      let space ← optional "" text room space
      let description ← optional "" text room description
      let flags ← optional .empty (nameMap bool) room flags
      let root ← contents? (graph? (room - 2)) room nodes links boundaryLinks
      let (panX, panY) ← optional (.zero, .zero) pan? room pan
      let zoom ← optional (.ofNat 1) number room zoom
      return ⟨version, ⟨name, space, description, flags⟩, root, ⟨panX, panY, zoom⟩⟩
    | _, _ => none

/-- Reads the text of a project file. -/
def parse (s : String) : Except FileError ProjectFile :=
  match (Json.read? s).bind (file? nestingLimit) with
  | some p => .ok p
  | none => .error .malformed

end FlowGraph.ProjectFile
