import Mathlib.Algebra.Group.Nat.Defs
import FlowGraph.Proofs.ImageCode

/-! The layout of images. Serial data are laid out by fixed rules, one for each shape of data; the
code of an image is the layout of the record that the image is. -/
namespace FlowGraph

/-- Data to be laid out. A map is the sequence of its entries, and an entry is a record. -/
inductive Datum where
  | unsigned (n : Nat)
  | float (x : Number)
  | bool (b : Bool)
  | text (s : String)
  | absent
  | present (x : Datum)
  | variant (index : Nat) (payload : Datum)
  | record (fields : List Datum)
  | sequence (items : List Datum)

/-- Small numbers take one byte, others a mark and the least number of two, four or eight bytes that
holds them. The rules say nothing of numbers beyond 64 bits. -/
inductive Bytes.Unsigned (n : Nat) : Bytes → Prop
  | byte {b : UInt8} (small : n ≤ 250) (value : b.toNat = n) : Unsigned n [b]
  | two {bs : Bytes} (low : 250 < n) (high : n < 2 ^ 16) (length : bs.length = 2)
      (value : ofLittleEndian bs = n) : Unsigned n (251 :: bs)
  | four {bs : Bytes} (low : 2 ^ 16 ≤ n) (high : n < 2 ^ 32) (length : bs.length = 4)
      (value : ofLittleEndian bs = n) : Unsigned n (252 :: bs)
  | eight {bs : Bytes} (low : 2 ^ 32 ≤ n) (high : n < 2 ^ 64) (length : bs.length = 8)
      (value : ofLittleEndian bs = n) : Unsigned n (253 :: bs)
  | beyond {bs : Bytes} (low : 2 ^ 64 ≤ n) : Unsigned n bs

/-- The bytes of data: floating-point numbers in eight bytes, texts and sequences behind their
length, optional data behind a zero or a one, variants behind their index, and the fields of a
record in their order with nothing between them. -/
inductive Datum.Layout : Datum → Bytes → Prop
  | unsigned {n : Nat} {bs : Bytes} (number : bs.Unsigned n) : Layout (.unsigned n) bs
  | float {x : Number} {bs : Bytes} (length : bs.length = 8)
      (value : bs.ofLittleEndian = x.bits.toNat) : Layout (.float x) bs
  | no : Layout (.bool false) [0]
  | yes : Layout (.bool true) [1]
  | text {s : String} {size : Bytes} (number : size.Unsigned s.utf8ByteSize) :
      Layout (.text s) (size ++ s.toUTF8.data.toList)
  | absent : Layout .absent [0]
  | present {x : Datum} {bs : Bytes} (item : Layout x bs) : Layout (.present x) (1 :: bs)
  | variant {index : Nat} {x : Datum} {tag bs : Bytes} (number : tag.Unsigned index)
      (item : Layout x bs) : Layout (.variant index x) (tag ++ bs)
  | last : Layout (.record []) []
  | field {x : Datum} {xs : List Datum} {bs rest : Bytes} (item : Layout x bs)
      (others : Layout (.record xs) rest) : Layout (.record (x :: xs)) (bs ++ rest)
  | sequence {xs : List Datum} {size bs : Bytes} (number : size.Unsigned xs.length)
      (items : Layout (.record xs) bs) : Layout (.sequence xs) (size ++ bs)

/-! ### Images as data -/

namespace Image

def nodeIdDatum (id : NodeId) : Datum := .unsigned id.toNat

def viewportDatum (v : Viewport) : Datum := .record [.float v.panX, .float v.panY, .float v.zoom]

def valueDatum : Value → Datum
  | .number n => .variant 0 (.float n)
  | .bool b => .variant 1 (.bool b)
  | .text s => .variant 2 (.text s)
  | .vector ns => .variant 3 (.sequence (ns.map .float))

def nameMapDatum {α : Type} (item : α → Datum) (m : NameMap α) : Datum :=
  .sequence (m.entries.map fun e => .record [.text e.1, item e.2])

def endpointDatum (e : Endpoint) : Datum := .record [nodeIdDatum e.node, .unsigned e.port.toNat]

def linkDatum (l : Link) : Datum := .record [endpointDatum l.source, endpointDatum l.target]

def nodeDatum (n : Node GraphRecord) (inner : Option Datum) : Datum :=
  .record [nodeIdDatum n.id, .text n.type, .record [.float n.position.x, .float n.position.y],
    .record [.float n.size.width, .float n.size.height], .sequence (n.inputs.map .text),
    .sequence (n.outputs.map .text), nameMapDatum valueDatum n.fields, .bool n.isGroup,
    inner.elim .absent .present]

def graphDatum : GraphRecord → Datum := GraphRecord.fold fun entries links boundaryLinks =>
  .record [.sequence (entries.map fun (n, inner) => nodeDatum n inner),
    .sequence (links.map linkDatum), .sequence (boundaryLinks.map linkDatum)]

def metadataDatum (m : Metadata) : Datum :=
  .record [.text m.name, .text m.space, .text m.description, nameMapDatum .bool m.flags]

def openGroupDatum (group : NodeId × Viewport) : Datum :=
  .record [nodeIdDatum group.1, viewportDatum group.2]

/-- What a serializer sees of an image: the fields of its structures in the order of declaration. -/
def datum (i : Image) : Datum :=
  .record [metadataDatum i.metadata, graphDatum i.root, .sequence (i.openGroups.map openGroupDatum),
    viewportDatum i.viewport]

end Image

/-! ### What the writers write -/

theorem Bytes.unsigned_ofNat (n : Nat) : (ofNat n).Unsigned n := by
  have hwide : ∀ count, n < Nat.pow 256 count →
      (littleEndian count n).length = count ∧ ofLittleEndian (littleEndian count n) = n :=
    fun count h => ⟨length_littleEndian count n, ofLittleEndian_littleEndian count n h⟩
  unfold ofNat
  split
  · next h => exact .byte (by omega) (by simp; omega)
  · split
    · next h => exact .two (by omega) h (hwide 2 h).1 (hwide 2 h).2
    · split
      · next low h => exact .four (Nat.le_of_not_lt low) h (hwide 4 h).1 (hwide 4 h).2
      · split
        · next low h => exact .eight (Nat.le_of_not_lt low) h (hwide 8 h).1 (hwide 8 h).2
        · next low => exact .beyond (Nat.le_of_not_lt low)

namespace Datum.Layout

theorem ofNat (n : Nat) : (Datum.unsigned n).Layout (Bytes.ofNat n) :=
  .unsigned (Bytes.unsigned_ofNat n)

theorem ofBool (b : Bool) : (Datum.bool b).Layout (Bytes.ofBool b) := by
  cases b
  · exact .no
  · exact .yes

theorem ofString (s : String) : (Datum.text s).Layout (Bytes.ofString s) :=
  .text (Bytes.unsigned_ofNat _)

theorem flatMap {α : Type} {write : α → Bytes} {datum : α → Datum} {xs : List α}
    (h : ∀ x ∈ xs, (datum x).Layout (write x)) :
    (Datum.record (xs.map datum)).Layout (xs.flatMap write) := by
  induction xs with
  | nil => exact .last
  | cons x xs ih => exact .field (h x List.mem_cons_self) (ih fun y hy => h y (.tail _ hy))

theorem ofList {α : Type} {write : α → Bytes} {datum : α → Datum} {xs : List α}
    (h : ∀ x ∈ xs, (datum x).Layout (write x)) :
    (Datum.sequence (xs.map datum)).Layout (Bytes.ofList write xs) := by
  refine .sequence ?_ (flatMap h)
  rw [List.length_map]
  exact Bytes.unsigned_ofNat xs.length

theorem number (x : Number) : (Datum.float x).Layout (Image.number x) :=
  .float (Bytes.length_littleEndian 8 _) (Bytes.ofLittleEndian_littleEndian 8 _ x.bits.toNat_lt)

theorem viewport (v : Viewport) : (Image.viewportDatum v).Layout (Image.viewportBytes v) := by
  have h := field (number v.panX) (field (number v.panY) (field (number v.zoom) last))
  simpa [Image.viewportDatum, Image.viewportBytes, List.append_assoc] using h

theorem value (v : Value) : (Image.valueDatum v).Layout (Image.value v) := by
  cases v with
  | number n => exact .variant (Bytes.unsigned_ofNat 0) (number n)
  | bool b => exact .variant (Bytes.unsigned_ofNat 1) (ofBool b)
  | text s => exact .variant (Bytes.unsigned_ofNat 2) (ofString s)
  | vector ns => exact .variant (Bytes.unsigned_ofNat 3) (ofList fun x _ => number x)

theorem nameMap {α : Type} {write : α → Bytes} {datum : α → Datum}
    (h : ∀ x, (datum x).Layout (write x)) (m : NameMap α) :
    (Image.nameMapDatum datum m).Layout (Image.nameMap write m) := by
  refine ofList fun e _ => ?_
  have hentry := field (ofString e.1) (field (h e.2) last)
  simpa [Image.entry] using hentry

theorem link (l : Link) : (Image.linkDatum l).Layout (Image.link l) := by
  have hend : ∀ e : Endpoint, (Image.endpointDatum e).Layout (Image.endpoint e) := fun e => by
    have h := field (ofNat e.node.toNat) (field (ofNat e.port.toNat) last)
    simpa [Image.endpointDatum, Image.endpoint, Image.nodeIdDatum, Image.nodeId] using h
  have h := field (hend l.source) (field (hend l.target) last)
  simpa [Image.linkDatum, Image.link] using h

theorem node {datum : GraphRecord → Datum} {write : GraphRecord → Bytes} (n : Node GraphRecord)
    (h : ∀ r, n.inner = some r → (datum r).Layout (write r)) :
    (Image.nodeDatum n (n.inner.map datum)).Layout (Image.node n (n.inner.map write)) := by
  have hinner : ((n.inner.map datum).elim .absent .present : Datum).Layout
      (Bytes.ofOption id (n.inner.map write)) := by
    cases hi : n.inner with
    | none => exact .absent
    | some r => exact .present (h r hi)
  have htexts : ∀ texts : List String,
      (Datum.sequence (texts.map .text)).Layout (Bytes.ofList Bytes.ofString texts) :=
    fun texts => ofList fun s _ => ofString s
  have hrecord := field (ofNat n.id.toNat) (field (ofString n.type)
    (field (field (number n.position.x) (field (number n.position.y) last))
      (field (field (number n.size.width) (field (number n.size.height) last))
        (field (htexts n.inputs) (field (htexts n.outputs) (field (nameMap value n.fields)
          (field (ofBool n.isGroup) (field hinner last))))))))
  simpa [Image.nodeDatum, Image.node, Image.nodeIdDatum, Image.nodeId,
    List.append_assoc] using hrecord

theorem graph (r : GraphRecord) : (Image.graphDatum r).Layout (Image.graph r) := by
  induction r using GraphRecord.nestedInduction with
  | step r ih =>
    have hnodes := ofList (fun n hn => node n (ih n hn))
    have hlinks : ∀ links : List Link,
        (Datum.sequence (links.map Image.linkDatum)).Layout (Bytes.ofList Image.link links) :=
      fun links => ofList fun l _ => link l
    have h := field hnodes (field (hlinks r.links) (field (hlinks r.boundaryLinks) last))
    rw [Image.graph_eq, Image.graphDatum, GraphRecord.fold_eq]
    simpa [List.append_assoc, Function.comp_def, Image.graphDatum] using h

/-- The code of an image is its layout. -/
theorem image (i : Image) : i.datum.Layout i.toBytes := by
  have hmetadata : (Image.metadataDatum i.metadata).Layout (Image.metadataBytes i.metadata) := by
    have h := field (ofString i.metadata.name) (field (ofString i.metadata.space)
      (field (ofString i.metadata.description) (field (nameMap ofBool i.metadata.flags) last)))
    simpa [Image.metadataDatum, Image.metadataBytes, List.append_assoc] using h
  have hgroups : (Datum.sequence (i.openGroups.map Image.openGroupDatum)).Layout
      (Bytes.ofList Image.openGroup i.openGroups) := by
    refine ofList fun group _ => ?_
    have h := field (ofNat group.1.toNat) (field (viewport group.2) last)
    simpa [Image.openGroupDatum, Image.openGroup, Image.nodeIdDatum, Image.nodeId] using h
  have h := field hmetadata
    (field (graph i.root) (field hgroups (field (viewport i.viewport) last)))
  simpa [Image.datum, Image.toBytes, List.append_assoc] using h

end Datum.Layout
end FlowGraph
