import FlowGraph.Document.Snapshot
import FlowGraph.Proofs.EditingSession
import FlowGraph.Proofs.NameMap

/-! The code of images is read back: each reader takes off the bytes exactly what its writer put
there, whatever follows. -/
namespace FlowGraph

/-! ### Building blocks -/

namespace Bytes

/-- The reader takes `x` off `bytes` and leaves what follows. -/
def Reader.Takes {α : Type} (read : Reader α) (bytes : Bytes) (x : α) : Prop :=
  ∀ rest, read (bytes ++ rest) = some (x, rest)

namespace Reader

/-- Reading goes on behind what is taken. -/
theorem Takes.bind {α β : Type} {read : Reader α} {bytes : Bytes} {x : α} (h : read.Takes bytes x)
    (rest : Bytes) (next : α × Bytes → Option β) :
    (read (bytes ++ rest)).bind next = next (x, rest) := by
  rw [h rest, Option.bind_some]

@[simp] theorem bool_ofBool (b : Bool) (rest : Bytes) :
    bool (ofBool b ++ rest) = some (b, rest) := by
  cases b <;> rfl

theorem length_utf8 (s : String) : s.toUTF8.data.toList.length = s.utf8ByteSize := by
  rfl

theorem fromUTF8?_utf8 (s : String) : String.fromUTF8? ⟨s.toUTF8.data.toList.toArray⟩ = some s := by
  have hvalid : s.toByteArray.IsValidUTF8 := s.isValidUTF8
  simp [String.fromUTF8?, String.fromUTF8, hvalid]

@[simp] theorem string_ofString (s : String) (rest : Bytes) :
    string (ofString s ++ rest) = some (s, rest) := by
  have hfixed := fixed_append s.toUTF8.data.toList rest
  rw [length_utf8] at hfixed
  simp only [string, ofString, List.append_assoc, nat_ofNat]
  simp only [bind, Option.bind, hfixed, fromUTF8?_utf8]
  rfl

theorem times_flatMap {α : Type} {item : Reader α} {write : α → Bytes} {xs : List α}
    (h : ∀ x ∈ xs, item.Takes (write x) x) :
    (times item xs.length).Takes (xs.flatMap write) xs := by
  induction xs with
  | nil => exact fun rest => rfl
  | cons x xs ih =>
    intro rest
    have hx := h x List.mem_cons_self (xs.flatMap write ++ rest)
    have hxs := ih (fun y hy => h y (.tail _ hy)) rest
    simp [times, hx, hxs]

theorem list_ofList {α : Type} {item : Reader α} {write : α → Bytes} {xs : List α}
    (h : ∀ x ∈ xs, item.Takes (write x) x) : (list item).Takes (ofList write xs) xs := by
  intro rest
  have htimes := times_flatMap h rest
  simp [list, ofList, List.append_assoc, htimes]

theorem option_ofOption {α : Type} {item : Reader α} {write : α → Bytes} {x : Option α}
    (h : ∀ y, x = some y → item.Takes (write y) y) : (option item).Takes (ofOption write x) x := by
  intro rest
  cases x with
  | none => rfl
  | some y =>
    have hy := h y rfl rest
    simp [option, ofOption, hy]

end Reader

theorem length_le_flatMap {α : Type} (write : α → Bytes) {x : α} {xs : List α} (hx : x ∈ xs) :
    (write x).length ≤ (xs.flatMap write).length := by
  induction xs with
  | nil => cases hx
  | cons y ys ih =>
    rw [List.flatMap_cons, List.length_append]
    rcases List.mem_cons.1 hx with rfl | hx
    · omega
    · have := ih hx
      omega

end Bytes

/-! ### Images -/

namespace Image

open Bytes.Reader

@[simp] theorem readNumber_number (x : Number) (rest : Bytes) :
    readNumber (number x ++ rest) = some (x, rest) := by
  have hword := word_littleEndian 8 x.bits.toNat x.bits.toNat_lt rest
  simp [readNumber, number, hword]

@[simp] theorem readNodeId_nodeId (id : NodeId) (rest : Bytes) :
    readNodeId (nodeId id ++ rest) = some (id, rest) := by
  have hlt : id.toNat < UInt32.size := id.toNat_lt
  simp [readNodeId, nodeId, hlt]

@[simp] theorem readViewport_viewportBytes (v : Viewport) (rest : Bytes) :
    readViewport (viewportBytes v ++ rest) = some (v, rest) := by
  simp [readViewport, viewportBytes, List.append_assoc]

@[simp] theorem readValue_value (v : Value) (rest : Bytes) :
    readValue (value v ++ rest) = some (v, rest) := by
  cases v with
  | vector ns =>
    have hlist : (list readNumber).Takes (Bytes.ofList number ns) ns :=
      list_ofList fun x _ => readNumber_number x
    simp [readValue, value, List.append_assoc, hlist rest]
  | _ => simp [readValue, value, List.append_assoc]

theorem readNameMap_nameMap {α : Type} {item : Bytes.Reader α} {write : α → Bytes}
    (h : ∀ x, item.Takes (write x) x) (m : NameMap α) :
    (readNameMap item).Takes (nameMap write m) m := by
  intro rest
  have hlist : (list (readEntry item)).Takes (Bytes.ofList (entry write) m.entries) m.entries :=
    list_ofList fun e _ rest => by simp [readEntry, entry, List.append_assoc, h e.2 rest]
  simp [readNameMap, nameMap, hlist rest]

@[simp] theorem readLink_link (l : Link) (rest : Bytes) :
    readLink (link l ++ rest) = some (l, rest) := by
  have hendpoint : ∀ (e : Endpoint) (rest : Bytes),
      readEndpoint (endpoint e ++ rest) = some (e, rest) := fun e rest => by
    simp [readEndpoint, endpoint, List.append_assoc]
  simp [readLink, link, List.append_assoc, hendpoint]

theorem readNode_node {inner : Bytes.Reader GraphRecord} {write : GraphRecord → Bytes}
    (n : Node GraphRecord) (h : ∀ r, n.inner = some r → inner.Takes (write r) r) :
    (readNode inner).Takes (node n (n.inner.map write)) n := by
  intro rest
  have htexts : ∀ texts : List String, (list string).Takes (Bytes.ofList Bytes.ofString texts)
      texts := fun texts =>
    list_ofList fun s _ => string_ofString s
  have hfields := readNameMap_nameMap readValue_value n.fields
  have hbytes : Bytes.ofOption id (n.inner.map write) = Bytes.ofOption write n.inner := by
    cases n.inner <;> rfl
  rw [node, hbytes]
  simp only [List.append_assoc]
  refine (Takes.bind (readNodeId_nodeId n.id) _ _).trans ?_
  refine (Takes.bind (string_ofString n.type) _ _).trans ?_
  refine (Takes.bind (readNumber_number n.position.x) _ _).trans ?_
  refine (Takes.bind (readNumber_number n.position.y) _ _).trans ?_
  refine (Takes.bind (readNumber_number n.size.width) _ _).trans ?_
  refine (Takes.bind (readNumber_number n.size.height) _ _).trans ?_
  refine ((htexts n.inputs).bind _ _).trans ?_
  refine ((htexts n.outputs).bind _ _).trans ?_
  refine (hfields.bind _ _).trans ?_
  refine (Takes.bind (bool_ofBool n.isGroup) _ _).trans ?_
  exact (option_ofOption h).bind rest _

theorem graph_eq (r : GraphRecord) : graph r =
    Bytes.ofList (fun n => node n (n.inner.map graph)) r.nodes ++ Bytes.ofList link r.links ++
      Bytes.ofList link r.boundaryLinks := by
  rw [graph, GraphRecord.fold_eq]
  simp [Bytes.ofList, List.flatMap_map]

theorem length_inner_lt_graph {r inner : GraphRecord} {n : Node GraphRecord} (hn : n ∈ r.nodes)
    (hi : n.inner = some inner) : (graph inner).length < (graph r).length := by
  have hnode := Bytes.length_le_flatMap (fun n => node n (n.inner.map graph)) hn
  have hlast : (graph inner).length < (node n (n.inner.map graph)).length := by
    simp only [node, hi, Option.map_some, Bytes.ofOption, List.length_append, List.length_cons, id]
    omega
  rw [graph_eq r]
  simp only [Bytes.ofList, List.length_append] at hnode ⊢
  omega

/-- A graph is read with any depth that its bytes do not exceed: nested graphs are shorter. -/
theorem readGraph_graph (r : GraphRecord) :
    ∀ depth, (graph r).length ≤ depth → (readGraph depth).Takes (graph r) r := by
  induction r using GraphRecord.nestedInduction with
  | step r ih =>
    intro depth hdepth rest
    cases depth with
    | zero =>
      rw [graph_eq] at hdepth
      simp only [Bytes.ofList, List.length_append] at hdepth
      have hlen : (Bytes.ofNat r.nodes.length).length = 0 := by omega
      have hread := nat_ofNat r.nodes.length []
      rw [List.length_eq_zero_iff.1 hlen] at hread
      cases hread
    | succ depth =>
      have hnodes : (list (readNode (readGraph depth))).Takes
          (Bytes.ofList (fun n => node n (n.inner.map graph)) r.nodes) r.nodes := by
        refine list_ofList fun n hn => readNode_node n fun inner hi => ih n hn inner hi depth ?_
        have hlt := length_inner_lt_graph hn hi
        omega
      have hlinks : ∀ (links : List Link) (rest : Bytes),
          Bytes.Reader.list readLink (Bytes.ofList link links ++ rest) = some (links, rest) :=
        fun links => list_ofList fun l _ => readLink_link l
      rw [graph_eq, readGraph]
      cases r with
      | mk nodes links boundaryLinks => simp [List.append_assoc, hnodes _, hlinks]

/-- The code of an image is read back as the image. -/
theorem ofBytes?_toBytes (i : Image) : ofBytes? i.toBytes = some i := by
  have hmetadata : ∀ rest, readMetadata (metadataBytes i.metadata ++ rest) =
      some (i.metadata, rest) := by
    intro rest
    have hflags := readNameMap_nameMap bool_ofBool i.metadata.flags rest
    simp [readMetadata, metadataBytes, List.append_assoc, hflags]
  have hroot := readGraph_graph i.root i.toBytes.length (by
    simp only [toBytes, List.length_append]
    omega)
  have hgroups : (list readOpenGroup).Takes (Bytes.ofList openGroup i.openGroups) i.openGroups :=
    list_ofList fun group _ rest => by simp [readOpenGroup, openGroup, List.append_assoc]
  have hview := readViewport_viewportBytes i.viewport []
  rw [List.append_nil] at hview
  have hbytes : i.toBytes = metadataBytes i.metadata ++ (graph i.root ++
      (Bytes.ofList openGroup i.openGroups ++ viewportBytes i.viewport)) := by
    simp only [toBytes, List.append_assoc]
  simp only [ofBytes?]
  generalize i.toBytes.length = depth at hroot ⊢
  simp [hbytes, hmetadata, hroot _, hgroups _, hview]

end Image
end FlowGraph
