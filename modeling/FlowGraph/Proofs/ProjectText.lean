import FlowGraph.Document.ProjectJson
import FlowGraph.Proofs.EditingSession
import FlowGraph.Proofs.JsonDecoding

/-! The text of a project file gives the file back, exactly where its containers are few enough and
no number in it changes by being written and read. -/
namespace FlowGraph

/-! ### The numbers of a file -/

def Value.numbers : Value → List Number
  | number n => [n]
  | vector ns => ns
  | _ => []

def Node.numbers (n : Node GraphRecord) (inner : Option (List Number)) : List Number :=
  [n.position.x, n.position.y] ++ ([n.size.width, n.size.height] ++
    (n.fields.entries.flatMap (fun e => e.2.numbers) ++ inner.getD []))

def GraphRecord.numbers : GraphRecord → List Number := GraphRecord.fold fun entries _ _ =>
  entries.flatMap fun e => e.1.numbers e.2

theorem GraphRecord.numbers_eq (r : GraphRecord) :
    r.numbers = r.nodes.flatMap fun n => n.numbers (n.inner.map numbers) := by
  rw [numbers, fold_eq, List.flatMap_map]

def ProjectFile.numbers (p : ProjectFile) : List Number :=
  p.root.numbers ++ ([p.viewport.panX, p.viewport.panY] ++ [p.viewport.zoom])

namespace ProjectFile

open Json Json.Decoder

/-! ### Parts of a file -/

section

variable {α β γ : Type} {readA : Decoder α} {writeA : α → Json} {numbersA : α → List Number}
  {readB : Decoder β} {writeB : β → Json} {numbersB : β → List Number}
  {read : Decoder γ} {write : γ → Json} {numbers : γ → List Number}

/-- An object with one member. -/
theorem recovers_member {name : String} {f : α → γ} {a : α} (ha : Recovers readA writeA numbersA a)
    (hwrite : write (f a) = Json.record [(name, writeA a)])
    (hnumbers : ∀ a, numbers (f a) = numbersA a) (hzero : read 0 (write (f a)) = none)
    (hread : ∀ room, read (room + 1) (write (f a)) = (readA room (writeA a)).map f) :
    Recovers read write numbers (f a) where
  complete {room} hroom hx := by
    cases room with
    | zero => exact absurd (hwrite ▸ hroom) (not_depth_record_le_zero _)
    | succ room =>
      rw [hwrite, depth_record_le] at hroom
      rw [hnumbers] at hx
      rw [hread, ha.complete (hroom (name, writeA a) (by simp)) hx, Option.map_some]
  sound {room b} h := by
    cases room with
    | zero => simp [hzero] at h
    | succ room =>
      rw [hread] at h
      obtain ⟨a', ha', rfl⟩ := Option.map_eq_some_iff.1 h
      rw [hwrite, depth_record_le, hnumbers, hnumbers]
      exact ⟨by simpa using (ha.sound ha').1, (ha.sound ha').2⟩

/-- An object with two members. -/
theorem recovers_pair {nameA nameB : String} {f : α → β → γ} {a : α} {b : β}
    (ha : Recovers readA writeA numbersA a) (hb : Recovers readB writeB numbersB b)
    (hwrite : write (f a b) = Json.record [(nameA, writeA a), (nameB, writeB b)])
    (hnumbers : ∀ a b, numbers (f a b) = numbersA a ++ numbersB b)
    (hzero : read 0 (write (f a b)) = none)
    (hread : ∀ room, read (room + 1) (write (f a b)) =
      (readA room (writeA a)).bind fun a => (readB room (writeB b)).bind fun b => some (f a b)) :
    Recovers read write numbers (f a b) where
  complete {room} hroom hx := by
    cases room with
    | zero => exact absurd (hwrite ▸ hroom) (not_depth_record_le_zero _)
    | succ room =>
      rw [hwrite, depth_record_le] at hroom
      rw [hnumbers, List.forall_mem_append] at hx
      rw [hread, ha.complete (hroom (nameA, writeA a) (by simp)) hx.1,
        hb.complete (hroom (nameB, writeB b) (by simp)) hx.2]
      rfl
  sound {room c} h := by
    cases room with
    | zero => simp [hzero] at h
    | succ room =>
      simp only [hread, Option.bind_eq_some_iff, Option.some.injEq] at h
      obtain ⟨a', ha', b', hb', rfl⟩ := h
      rw [hwrite, depth_record_le, hnumbers, hnumbers]
      exact ⟨by simpa using ⟨(ha.sound ha').1, (hb.sound hb').1⟩,
        List.rel_append (ha.sound ha').2 (hb.sound hb').2⟩

end

theorem recovers_value (v : Value) : Recovers value? valueJson Value.numbers v := by
  cases v with
  | number n => exact recovers_member (recovers_number n) rfl (fun _ => rfl) rfl fun _ => rfl
  | bool b => exact recovers_member (recovers_bool b) rfl (fun _ => rfl) rfl fun _ => rfl
  | text s => exact recovers_member (recovers_text s) rfl (fun _ => rfl) rfl fun _ => rfl
  | vector ns =>
    exact recovers_member (.list fun n _ => recovers_number n) rfl
      (fun ns => (List.flatMap_singleton' ns).symm) rfl fun _ => rfl

def positionJson (p : Position) : Json := .record [("x", .ofNumber p.x), ("y", .ofNumber p.y)]

theorem recovers_position (p : Position) :
    Recovers position? positionJson (fun p => [p.x, p.y]) p := by
  refine recovers_pair (f := Position.mk) (recovers_number p.x) (recovers_number p.y)
    rfl (fun _ _ => rfl)
    rfl fun room => ?_
  rw [position?, positionJson, record_record (by rfl) (by decide)]
  rfl

def sizeJson (z : Size) : Json :=
  .record [("width", .ofNumber z.width), ("height", .ofNumber z.height)]

theorem recovers_size (z : Size) : Recovers size? sizeJson (fun z => [z.width, z.height]) z := by
  refine recovers_pair (f := Size.mk) (recovers_number z.width) (recovers_number z.height) rfl
    (fun _ _ => rfl) rfl fun room => ?_
  rw [size?, sizeJson, record_record (by rfl) (by decide)]
  rfl

theorem recovers_endpoint (e : Endpoint) : Recovers endpoint? endpointJson (fun _ => []) e := by
  refine recovers_pair (f := Endpoint.mk) (recovers_uint32 e.node) (recovers_uint64 e.port) rfl
    (fun _ _ => rfl) rfl fun room => ?_
  rw [endpoint?, endpointJson, record_record (by rfl) (by decide)]
  rfl

theorem recovers_link (l : Link) : Recovers link? linkJson (fun _ => []) l := by
  refine recovers_pair (f := Link.mk) (recovers_endpoint l.source) (recovers_endpoint l.target) rfl
    (fun _ _ => rfl) rfl fun room => ?_
  rw [link?, linkJson, record_record (by rfl) (by decide)]
  rfl

theorem recovers_links (ls : List Link) :
    Recovers links? linksJson (fun ls => ls.flatMap fun _ => []) ls :=
  .list fun l _ => recovers_link l

/-! ### Nested graphs -/

/-- A node where `room` containers may be opened; its nested graph stands inside it. -/
def nodeAt? : Decoder (Node GraphRecord) := fun room => node? (graph? (room - 1)) room

theorem list_congr {α : Type} {read read' : Decoder α} {room : Nat}
    (h : ∀ r, room = r + 1 → read r = read' r) : list read room = list read' room := by
  funext j
  unfold list
  split
  · rw [h _ rfl]
  · rfl

theorem list_node? (room : Nat) : list (node? (graph? (room - 2))) room = list nodeAt? room := by
  refine list_congr fun r hr => ?_
  rw [nodeAt?, hr, Nat.add_sub_add_right r 1 1]

/-- Where a list of nodes cannot hold a node, the decoder of nested graphs does not matter. -/
theorem list_node?_of_lt {room : Nat} (hroom : room < 2) (inner : Json → Option GraphRecord) :
    list (node? inner) room = list nodeAt? room := by
  refine list_congr fun r hr => ?_
  obtain rfl : r = 0 := by omega
  funext j
  rw [nodeAt?, node?, node?, Decoder.record, Decoder.record]

def contentsAt? (room : Nat) (nodes links boundaryLinks : Json) : Option GraphRecord := do
  let nodes ← list nodeAt? room nodes
  let links ← links? room links
  let boundaryLinks ← links? room boundaryLinks
  return ⟨nodes, links, boundaryLinks⟩

theorem contents?_eq {inner : Json → Option GraphRecord} {room : Nat}
    (h : list (node? inner) room = list nodeAt? room) (nodes links boundaryLinks : Json) :
    contents? inner room (some nodes) (some links) (some boundaryLinks) =
      contentsAt? room nodes links boundaryLinks := by
  rw [contents?, contentsAt?, required, Option.bind_some, h]
  rfl

def contentsJson (r : GraphRecord) : List (String × Json) :=
  graphMembers (r.nodes.map fun n => (n, n.inner.map graphJson)) r.links r.boundaryLinks

theorem graphJson_eq (r : GraphRecord) : graphJson r = .record (contentsJson r) := by
  rw [graphJson, GraphRecord.fold_eq]
  rfl

def nodesJson (r : GraphRecord) : Json :=
  .array (r.nodes.map fun n => nodeJson n (n.inner.map graphJson))

theorem contentsJson_eq (r : GraphRecord) : contentsJson r = [("nodes", nodesJson r),
    ("connections", linksJson r.links),
      ("groupBoundaryConnections", linksJson r.boundaryLinks)] := by
  rw [contentsJson, graphMembers, nodesJson, List.map_map]
  rfl

theorem graph?_graphJson (room : Nat) (r : GraphRecord) :
    graph? (room + 1) (graphJson r) =
      contentsAt? room (nodesJson r) (linksJson r.links) (linksJson r.boundaryLinks) := by
  rw [graphJson_eq, contentsJson_eq]
  by_cases hroom : room < 2
  · rw [graph?.eq_2 _ _ (by omega), graphWith?, record_record (by rfl) (by decide)]
    exact contents?_eq (list_node?_of_lt hroom _) _ _ _
  · obtain ⟨k, rfl⟩ : ∃ k, room = k + 2 := ⟨room - 2, by omega⟩
    rw [graph?, graphWith?, record_record (by rfl) (by decide)]
    exact contents?_eq (list_node? (k + 2)) _ _ _

theorem graph?_zero (j : Json) : graph? 0 j = none := by
  rw [graph?.eq_2 _ _ (by omega), graphWith?, Decoder.record]

def innerJson (inner : Option GraphRecord) : Json := (inner.map graphJson).getD .null

theorem recovers_inner {inner : Option GraphRecord}
    (h : ∀ r ∈ inner, Recovers graph? graphJson GraphRecord.numbers r) :
    Recovers (nullable graph?) innerJson (fun inner => (inner.map GraphRecord.numbers).getD [])
      inner := by
  cases inner with
  | none =>
    refine ⟨fun _ _ => rfl, fun {room b} h => ?_⟩
    obtain rfl : none = b := Option.some.inj h
    exact ⟨Nat.zero_le room, .nil⟩
  | some r =>
    have hr := h r rfl
    have hread : ∀ room, nullable graph? room (graphJson r) =
        (graph? room (graphJson r)).map some := by
      intro room
      rw [graphJson_eq]
      rfl
    constructor
    · intro room hroom hnumbers
      exact (hread room).trans (by rw [hr.complete hroom hnumbers, Option.map_some])
    · intro room b hb
      obtain ⟨r', hr', rfl⟩ := Option.map_eq_some_iff.1 ((hread room).symm.trans hb)
      exact hr.sound hr'

theorem nullable_congr {α : Type} {read read' : Decoder α} {room : Nat}
    (h : read room = read' room) : nullable read room = nullable read' room := by
  funext j
  cases j <;> simp only [nullable, h]

def nodeRecord (n : Node GraphRecord) : Json := nodeJson n (n.inner.map graphJson)

/-- The parts of a node are read one after the other. -/
theorem nodeAt?_nodeRecord (room : Nat) (n : Node GraphRecord) :
    nodeAt? (room + 1) (nodeRecord n) = do
      let id ← uint32 room (.ofNat n.id.toNat)
      let type ← Decoder.text room (.text n.type)
      let position ← position? room (positionJson n.position)
      let size ← size? room (sizeJson n.size)
      let inputs ← list Decoder.text room (textList n.inputs)
      let outputs ← list Decoder.text room (textList n.outputs)
      let fields ← nameMap value? room (mapJson valueJson n.fields)
      let isGroup ← Decoder.bool room (.bool n.isGroup)
      let inner ← nullable graph? room (innerJson n.inner)
      return ⟨id, type, position, size, inputs, outputs, fields, isGroup, inner⟩ := by
  have hinner : nullable (fun _ => graph? (room + 1 - 1)) room = nullable graph? room :=
    nullable_congr rfl
  rw [nodeAt?, nodeRecord, nodeJson, node?, record_record (by rfl) (by decide)]
  simp only [List.map_cons, List.map_nil, required, Decoder.optional, Option.bind_some, hinner]
  rfl

theorem recovers_texts (ss : List String) :
    Recovers (list Decoder.text) textList (fun ss => ss.flatMap fun _ => []) ss :=
  .list fun s _ => recovers_text s

theorem recovers_fields (fields : Fields) : Recovers (nameMap value?) (mapJson valueJson)
    (fun fields => fields.entries.flatMap fun e => e.2.numbers) fields :=
  .nameMap fun e _ => recovers_value e.2

theorem recovers_node {n : Node GraphRecord}
    (h : ∀ r ∈ n.inner, Recovers graph? graphJson GraphRecord.numbers r) :
    Recovers nodeAt? nodeRecord (fun n => n.numbers (n.inner.map GraphRecord.numbers)) n where
  complete {room} hroom hnumbers := by
    cases room with
    | zero => exact absurd hroom (not_depth_record_le_zero _)
    | succ room =>
      rw [nodeRecord, nodeJson, depth_record_le] at hroom
      simp only [List.forall_mem_cons] at hroom
      obtain ⟨-, -, hposition, hsize, hinputs, houtputs, hfields, -, hinner, -⟩ := hroom
      simp only [Node.numbers, List.forall_mem_append] at hnumbers
      rw [nodeAt?_nodeRecord, (recovers_uint32 n.id).complete (by simp) (by simp),
        (recovers_text n.type).complete (by simp) (by simp),
        (recovers_position n.position).complete hposition hnumbers.1,
        (recovers_size n.size).complete hsize hnumbers.2.1,
        (recovers_texts n.inputs).complete hinputs (by simp),
        (recovers_texts n.outputs).complete houtputs (by simp),
        (recovers_fields n.fields).complete hfields hnumbers.2.2.1,
        (recovers_bool n.isGroup).complete (by simp) (by simp),
        (recovers_inner h).complete hinner hnumbers.2.2.2]
      rfl
  sound {room b} hread := by
    cases room with
    | zero => simp [nodeAt?, node?, Decoder.record] at hread
    | succ room =>
      simp only [nodeAt?_nodeRecord, Option.bind_eq_bind, Option.bind_eq_some_iff, Option.pure_def,
        Option.some.injEq] at hread
      obtain ⟨id, hid, type, htype, position, hposition, size, hsize, inputs, hinputs,
        outputs, houtputs, fields, hfields, isGroup, hgroup, inner, hinner, rfl⟩ := hread
      have hposition := (recovers_position n.position).sound hposition
      have hsize := (recovers_size n.size).sound hsize
      have hfields := (recovers_fields n.fields).sound hfields
      have hinner := (recovers_inner h).sound hinner
      refine ⟨?_, List.rel_append hposition.2
        (List.rel_append hsize.2 (List.rel_append hfields.2 hinner.2))⟩
      rw [nodeRecord, nodeJson, depth_record_le]
      simp only [List.forall_mem_cons]
      exact ⟨by simp, by simp, hposition.1, hsize.1, ((recovers_texts _).sound hinputs).1,
        ((recovers_texts _).sound houtputs).1, hfields.1, by simp, hinner.1, by simp⟩

theorem nodesJson_eq (r : GraphRecord) : nodesJson r = .array (r.nodes.map nodeRecord) := rfl

/-- The contents of a graph, inside a container that is open. -/
theorem contentsAt?_complete {r : GraphRecord}
    (h : ∀ n ∈ r.nodes, ∀ inner ∈ n.inner, Recovers graph? graphJson GraphRecord.numbers inner)
    {room : Nat} (hroom : ∀ m ∈ contentsJson r, m.2.depth ≤ room)
    (hnumbers : ∀ x ∈ r.numbers, x.reread = some x) :
    contentsAt? room (nodesJson r) (linksJson r.links) (linksJson r.boundaryLinks) = some r := by
  rw [contentsJson_eq] at hroom
  simp only [List.forall_mem_cons] at hroom
  rw [GraphRecord.numbers_eq] at hnumbers
  rw [contentsAt?, nodesJson_eq, (Recovers.list fun n hn => recovers_node (h n hn)).complete
    hroom.1 hnumbers, (recovers_links r.links).complete hroom.2.1 (by simp),
    (recovers_links r.boundaryLinks).complete hroom.2.2.1 (by simp)]
  cases r
  rfl

theorem contentsAt?_sound {r : GraphRecord}
    (h : ∀ n ∈ r.nodes, ∀ inner ∈ n.inner, Recovers graph? graphJson GraphRecord.numbers inner)
    {room : Nat} {b : GraphRecord}
    (hread : contentsAt? room (nodesJson r) (linksJson r.links)
      (linksJson r.boundaryLinks) = some b) :
    (∀ m ∈ contentsJson r, m.2.depth ≤ room) ∧
      List.Forall₂ (fun x y => x.reread = some y) r.numbers b.numbers := by
  simp only [contentsAt?, Option.bind_eq_bind, Option.bind_eq_some_iff, Option.pure_def,
    Option.some.injEq] at hread
  obtain ⟨nodes, hnodes, links, hlinks, boundaryLinks, hboundary, rfl⟩ := hread
  have hnodes := (Recovers.list fun n hn => recovers_node (h n hn)).sound hnodes
  rw [contentsJson_eq, GraphRecord.numbers_eq, GraphRecord.numbers_eq]
  simp only [List.forall_mem_cons]
  exact ⟨⟨hnodes.1, ((recovers_links _).sound hlinks).1,
    ((recovers_links _).sound hboundary).1, by simp⟩, hnodes.2⟩

theorem recovers_graph (r : GraphRecord) : Recovers graph? graphJson GraphRecord.numbers r := by
  induction r using GraphRecord.nestedInduction with
  | step r ih =>
    constructor
    · intro room hroom hnumbers
      rw [graphJson_eq] at hroom
      cases room with
      | zero => exact absurd hroom (not_depth_record_le_zero _)
      | succ room =>
        rw [depth_record_le] at hroom
        rw [graph?_graphJson, contentsAt?_complete ih hroom hnumbers]
    · intro room b hread
      cases room with
      | zero => simp [graph?_zero] at hread
      | succ room =>
        rw [graph?_graphJson] at hread
        rw [graphJson_eq, depth_record_le]
        exact contentsAt?_sound ih hread

/-! ### Files -/

def panJson (pan : Number × Number) : Json := .array [.ofNumber pan.1, .ofNumber pan.2]

theorem recovers_pan (pan : Number × Number) :
    Recovers pan? panJson (fun pan => [pan.1, pan.2]) pan where
  complete {room} hroom hnumbers := by
    cases room with
    | zero => simp [panJson, depth] at hroom
    | succ room =>
      simp only [List.forall_mem_cons] at hnumbers
      simp [panJson, pan?, number_ofNumber, hnumbers.1, hnumbers.2.1]
  sound {room b} hread := by
    cases room with
    | zero => simp [pan?] at hread
    | succ room =>
      simp only [panJson, pan?, number_ofNumber, Option.bind_eq_bind, Option.bind_eq_some_iff,
        Option.pure_def, Option.some.injEq] at hread
      obtain ⟨x, hx, y, hy, rfl⟩ := hread
      exact ⟨by simp [panJson, depth_array_le], .cons hx (.cons hy .nil)⟩

def viewJson (v : Viewport) : List (String × Json) :=
  [("panOffset", panJson (v.panX, v.panY)), ("zoom", .ofNumber v.zoom)]

def headJson (p : ProjectFile) : List (String × Json) :=
  [("version", .ofNat p.version.toNat), ("moduleName", .text p.metadata.name),
    ("moduleNamespace", .text p.metadata.space),
    ("moduleDescription", .text p.metadata.description),
      ("moduleFlags", mapJson .bool p.metadata.flags)]

theorem toJson_eq (p : ProjectFile) :
    p.toJson = .record (headJson p ++ contentsJson p.root ++ viewJson p.viewport) := rfl

theorem recovers_flags (flags : NameMap Bool) : Recovers (nameMap Decoder.bool) (mapJson .bool)
    (fun flags => flags.entries.flatMap fun _ => []) flags :=
  .nameMap fun e _ => recovers_bool e.2

/-- The parts of a file are read one after the other. -/
theorem file?_toJson (room : Nat) (p : ProjectFile) : file? (room + 1) p.toJson = do
    let version ← uint32 room (.ofNat p.version.toNat)
    let name ← Decoder.text room (.text p.metadata.name)
    let space ← Decoder.text room (.text p.metadata.space)
    let description ← Decoder.text room (.text p.metadata.description)
    let flags ← nameMap Decoder.bool room (mapJson .bool p.metadata.flags)
    let root ← contentsAt? room (nodesJson p.root) (linksJson p.root.links)
      (linksJson p.root.boundaryLinks)
    let pan ← pan? room (panJson (p.viewport.panX, p.viewport.panY))
    let zoom ← Decoder.number room (.ofNumber p.viewport.zoom)
    return ⟨version, ⟨name, space, description, flags⟩, root, ⟨pan.1, pan.2, zoom⟩⟩ := by
  rw [toJson_eq, contentsJson_eq, file?, record_record (by rfl) (by decide)]
  simp only [headJson, viewJson, List.map_cons, List.map_nil, List.cons_append,
    List.nil_append, contents?_eq (list_node? room)]
  rfl

theorem recovers_file (p : ProjectFile) : Recovers file? toJson numbers p where
  complete {room} hroom hnumbers := by
    rw [toJson_eq] at hroom
    cases room with
    | zero => exact absurd hroom (not_depth_record_le_zero _)
    | succ room =>
      simp only [depth_record_le, List.forall_mem_append, headJson, viewJson,
        List.forall_mem_cons] at hroom
      obtain ⟨⟨⟨-, -, -, -, hflags, -⟩, hroot⟩, hpan, -⟩ := hroom
      rw [numbers, List.forall_mem_append, List.forall_mem_append] at hnumbers
      rw [file?_toJson, (recovers_uint32 p.version).complete (by simp) (by simp),
        (recovers_text p.metadata.name).complete (by simp) (by simp),
        (recovers_text p.metadata.space).complete (by simp) (by simp),
        (recovers_text p.metadata.description).complete (by simp) (by simp),
        (recovers_flags p.metadata.flags).complete hflags (by simp),
        contentsAt?_complete (fun _ _ inner _ => recovers_graph inner) hroot hnumbers.1,
        (recovers_pan (p.viewport.panX, p.viewport.panY)).complete hpan hnumbers.2.1,
        (recovers_number p.viewport.zoom).complete (by simp) hnumbers.2.2]
      rfl
  sound {room q} hread := by
    cases room with
    | zero => simp [file?, Decoder.record] at hread
    | succ room =>
      simp only [file?_toJson, Option.bind_eq_bind, Option.bind_eq_some_iff, Option.pure_def,
        Option.some.injEq] at hread
      obtain ⟨_, -, _, -, _, -, _, -, flags, hflags, root, hroot, pan, hpan, zoom, hzoom, rfl⟩ :=
        hread
      have hroot := contentsAt?_sound (fun _ _ inner _ => recovers_graph inner) hroot
      have hpan := (recovers_pan _).sound hpan
      have hzoom := (recovers_number _).sound hzoom
      refine ⟨?_, List.rel_append hroot.2 (List.rel_append hpan.2 hzoom.2)⟩
      simp only [toJson_eq, depth_record_le, List.forall_mem_append, headJson, viewJson,
        List.forall_mem_cons]
      exact ⟨⟨⟨by simp, by simp, by simp, by simp, ((recovers_flags _).sound hflags).1, by simp⟩,
        hroot.1⟩, hpan.1, by simp, by simp⟩

/-! ### Texts of files -/

theorem legible_map {α : Type} {item : α → Json} (h : ∀ a, Legible (item a)) (m : NameMap α) :
    Legible (mapJson item m) := by
  refine .record fun e he => ?_
  obtain ⟨entry, -, rfl⟩ := List.mem_map.1 he
  exact h entry.2

theorem legible_value (v : Value) : Legible (valueJson v) := by
  cases v with
  | number n => exact .record (List.forall_mem_singleton.2 (.ofNumber n))
  | bool b => exact .record (List.forall_mem_singleton.2 (.bool b))
  | text s => exact .record (List.forall_mem_singleton.2 (.text s))
  | vector ns => exact .record (List.forall_mem_singleton.2 (.list fun n _ => .ofNumber n))

theorem legible_links (ls : List Link) : Legible (linksJson ls) := by
  have hendpoint : ∀ e, Legible (endpointJson e) := fun e =>
    .record (by simp only [List.forall_mem_cons]; exact ⟨.ofNat _, .ofNat _, by simp⟩)
  exact .list fun l _ =>
    .record (by simp only [List.forall_mem_cons]; exact ⟨hendpoint _, hendpoint _, by simp⟩)

theorem legible_node {n : Node GraphRecord} (h : ∀ r ∈ n.inner, Legible (graphJson r)) :
    Legible (nodeRecord n) := by
  have hinner : Legible (innerJson n.inner) := by
    cases hi : n.inner with
    | none => exact .null
    | some r => exact h r hi
  refine .record ?_
  simp only [List.forall_mem_cons]
  refine ⟨.ofNat _, .text _, ?_, ?_, .list fun s _ => .text s, .list fun s _ => .text s,
    legible_map legible_value _, .bool _, hinner, by simp⟩
  · exact .record (by simp only [List.forall_mem_cons]; exact ⟨.ofNumber _, .ofNumber _, by simp⟩)
  · exact .record (by simp only [List.forall_mem_cons]; exact ⟨.ofNumber _, .ofNumber _, by simp⟩)

theorem legible_contents {r : GraphRecord}
    (h : ∀ n ∈ r.nodes, ∀ inner ∈ n.inner, Legible (graphJson inner)) :
    ∀ m ∈ contentsJson r, Legible m.2 := by
  rw [contentsJson_eq]
  simp only [List.forall_mem_cons]
  exact ⟨.list fun n hn => legible_node (h n hn), legible_links _, legible_links _, by simp⟩

theorem legible_graph (r : GraphRecord) : Legible (graphJson r) := by
  induction r using GraphRecord.nestedInduction with
  | step r ih =>
    rw [graphJson_eq]
    exact .record (legible_contents ih)

theorem legible_file (p : ProjectFile) : Legible p.toJson := by
  rw [toJson_eq]
  refine .record ?_
  simp only [List.forall_mem_append, headJson, viewJson, List.forall_mem_cons]
  refine ⟨⟨⟨.ofNat _, .text _, .text _, .text _, legible_map .bool _, by simp⟩,
    legible_contents fun _ _ inner _ => legible_graph inner⟩, .array ?_, .ofNumber _, by simp⟩
  simp only [List.forall_mem_cons]
  exact ⟨.ofNumber _, .ofNumber _, by simp⟩

/-- The text of a file is read as the value that was written. -/
theorem parse_render_eq_ok_iff {p q : ProjectFile} :
    parse p.render = .ok q ↔ file? nestingLimit p.toJson = some q := by
  rw [parse, render, (legible_file p).read?_render, Option.bind_some]
  cases file? nestingLimit p.toJson <;> simp

/-- A file is read back as it was exactly if its containers are few enough and every number
survives. -/
theorem parse_render_eq_self_iff {p : ProjectFile} : parse p.render = .ok p ↔
    (∀ x ∈ p.numbers, x.reread = some x) ∧ p.toJson.depth ≤ nestingLimit := by
  rw [parse_render_eq_ok_iff]
  constructor
  · intro h
    have hsound := (recovers_file p).sound h
    exact ⟨List.forall₂_same.1 hsound.2, hsound.1⟩
  · exact fun h => (recovers_file p).complete h.2 h.1

theorem parse_render_eq_error_iff {p : ProjectFile} :
    parse p.render = .error .malformed ↔ ∀ q, parse p.render ≠ .ok q := by
  simp only [ne_eq, parse_render_eq_ok_iff]
  rw [parse, render, (legible_file p).read?_render, Option.bind_some]
  cases file? nestingLimit p.toJson <;> simp

/-- A file that is read at all has finite numbers only, and its containers are few enough. -/
theorem isFinite_of_parse_render {p q : ProjectFile} (h : parse p.render = .ok q) :
    (∀ x ∈ p.numbers, x.isFinite = true) ∧ p.toJson.depth ≤ nestingLimit := by
  have hsound := (recovers_file p).sound (parse_render_eq_ok_iff.1 h)
  have hfinite := hsound.2.imp fun x y hy => And.intro (Number.isFinite_of_reread hy) hy
  exact ⟨((List.forall₂_and_left _ _).1 hfinite).1, hsound.1⟩

/-- A file is read back as it was, bit for bit, if its numbers are finite, if each of them is what
its own literal denotes, and if its containers are few enough. -/
theorem parse_render_self {p : ProjectFile} (hfinite : ∀ x ∈ p.numbers, x.isFinite = true)
    (hliteral : ∀ x ∈ p.numbers, (Literal.ofNumber x).number? = some x)
    (hdepth : p.toJson.depth ≤ nestingLimit) : parse p.render = .ok p := by
  have hreread : ∀ x ∈ p.numbers, x.reread = some x :=
    fun x hx => Number.reread_eq_self_iff.2 ⟨hfinite x hx, hliteral x hx⟩
  exact parse_render_eq_self_iff.2 ⟨hreread, hdepth⟩

/-- Two groups inside each other, texts that need escapes and others that do not, the largest ids
and port indices, negative zero, and the least and the largest of the numbers. -/
theorem parse_render_self_nested :
    let inner : GraphRecord :=
  ⟨[⟨4294967295, "número ✓", ⟨⟨0x8000000000000000⟩, ⟨0x3FB999999999999A⟩⟩,
      ⟨⟨1⟩, ⟨0x7FEFFFFFFFFFFFFF⟩⟩, ["flow"], [],
        .ofList [("v", .vector [⟨0x3FF8000000000000⟩, .zero]), ("\x22\\\n\x01", .text "😀")], false,
          some ⟨[], [], []⟩⟩], [], [⟨⟨1, 18446744073709551615⟩, ⟨2, 0⟩⟩]⟩
    let p : ProjectFile := ⟨7, ⟨"m", "", "d\t", .ofList [("on", true)]⟩,
      ⟨[⟨0, "group", ⟨.zero, .zero⟩, ⟨.zero, .zero⟩, [], [], .empty, true, some inner⟩], [], []⟩,
      ⟨.zero, ⟨0xC1D0000000400000⟩, .ofNat 1⟩⟩
    (∀ x ∈ p.numbers, x.isFinite = true) ∧
      (∀ x ∈ p.numbers, (Literal.ofNumber x).number? = some x) ∧
      p.toJson.depth ≤ nestingLimit ∧ parse p.render = .ok p := by
  intro inner p
  have hfinite : ∀ x ∈ p.numbers, x.isFinite = true := List.all_eq_true.1 (by decide +kernel)
  have hall : (p.numbers.all fun x => decide ((Literal.ofNumber x).number? = some x)) = true := by
    decide +kernel
  have hliteral : ∀ x ∈ p.numbers, (Literal.ofNumber x).number? = some x :=
    fun x hx => of_decide_eq_true (List.all_eq_true.1 hall x hx)
  have hdepth : p.toJson.depth ≤ nestingLimit := by decide +kernel
  exact ⟨hfinite, hliteral, hdepth, parse_render_self hfinite hliteral hdepth⟩

end ProjectFile
end FlowGraph
