import FlowGraph.Document.Basic
import FlowGraph.Source.Layout
import FlowGraph.Source.Outline
import FlowGraph.Text.Identifier

/-! The module generated from a graph: a class with a method for every section and for every group
that no flow enters. -/
namespace FlowGraph

structure SectionMethod where
  sect : Section
  name : String
  body : String
deriving DecidableEq

/-- A method made of a group. -/
structure Routine where
  name : String
  group : NodeId
  body : String
deriving DecidableEq

structure Module where
  className : String
  sections : List SectionMethod
  routines : List Routine
  properties : List Property
  source : String
deriving DecidableEq

namespace Module

/-! ### Types -/

/-- The first node without a template, a node before those of its nested graph. -/
def unknownType? (catalog : Catalog) : Graph → Option UnknownType :=
  Graph.fold fun nodes _ => nodes.findSome? fun (n, inner) =>
    if catalog.contains n.type then inner.join else some ⟨n.id, n.type⟩

/-! ### Names -/

/-- The names to try for a member, one after the other. -/
def candidate (base : String) (id : NodeId) : Nat → String
  | 0 => base
  | 1 => base ++ "_" ++ idText id
  | attempt => base ++ "_" ++ idText id ++ "_" ++ Nat.repr attempt

/-- The first candidate from an attempt on that is not taken. -/
def freeName (base : String) (id : NodeId) (attempt : Nat) (taken : List String) : String :=
  if h : candidate base id attempt ∈ taken then
    freeName base id (attempt + 1) (taken.erase (candidate base id attempt))
  else candidate base id attempt
termination_by taken.length
decreasing_by
  rw [List.length_erase_of_mem h]
  exact Nat.sub_one_lt_of_lt (List.length_pos_of_mem h)

/-- The names that no member made from a graph gets. -/
def reserved : List String := ["constructor", "super"] ++ Section.lifecycle.map Section.hook

/-- Names members in turn: `wanted` gives each its text and its id. -/
def assignNames {α : Type} (wanted : α → String × NodeId) (taken : List String) :
    List α → List (α × String)
  | [] => []
  | x :: xs =>
    let name := freeName (Text.identifier (wanted x).1) (wanted x).2 0 taken
    (x, name) :: assignNames wanted (name :: taken) xs

def classNameOf (name : String) : String :=
  if Text.isBlankText name then "Module" else Text.identifier name

/-! ### Members -/

/-- The nodes that start a section: those it is anchored at and that no flow enters. -/
def anchors (s : Scope) : List (Section × NodeId) :=
  s.graph.nodes.filterMap fun n => do
    let template ← s.catalog.find? n.type
    let sect ← template.anchor n
    if s.graph.hasIncomingFlow n then none else some (sect, n.id)

/-- The custom sections by name, each with its lowest anchor. -/
def customSections (anchors : List (Section × NodeId)) : NameMap NodeId :=
  anchors.foldl (fun m (sect, id) =>
    match sect with
    | .custom name => m.insertNew name id
    | _ => m) .empty

def sectionBody (s : Scope) (anchors : List (Section × NodeId)) (sect : Section) : String :=
  Outline.source (s.outline s.groupOutline ((anchors.filter (·.1 == sect)).map (·.2)))

/-- The groups that no flow enters, with their bodies, a group before those inside it. -/
def freeGroups (catalog : Catalog) : Graph → String → List (Node Graph × String) :=
  Graph.fold fun nodes links stem =>
    let s : Scope := ⟨catalog, ⟨nodes.map Prod.fst, links⟩, stem⟩
    nodes.flatMap fun (n, inner) =>
      if n.isGroup then
        (if s.graph.hasIncomingFlow n then [] else [(n, Outline.source (s.groupOutline n))]) ++
          match inner with
          | some groups => groups (Scope.innerStem stem n.id)
          | none => []
      else []

/-- The properties that nodes register, a node before those of its nested graph. -/
def registrations (catalog : Catalog) : Graph → List Property :=
  Graph.fold fun nodes _ => nodes.flatMap fun (n, inner) =>
    ((catalog.find? n.type).bind (·.property n)).toList ++ inner.getD []

/-- Of the properties of one name the first counts. -/
def firstOfName : List Property → List Property
  | [] => []
  | p :: ps => p :: (firstOfName ps).filter (·.name != p.name)

/-! ### Text -/

def methodLines (name parameters body : String) : List String :=
  [name ++ "(" ++ parameters ++ ") \x7b", body, "\x7d"]

def classLines (metadata : Metadata) (baseClass className : String) (sections : List SectionMethod)
    (routines : List Routine) (properties : List Property) : List String :=
  let space := Text.trimText metadata.space
  (if space.isEmpty then [] else ["namespace " ++ space ++ " \x7b"]) ++
    (Text.linesOf metadata.description).map ("// " ++ ·) ++
    ["class " ++ className ++ " extends " ++ baseClass ++ " \x7b"] ++
    metadata.flags.entries.map (fun (name, value) =>
      "static " ++ Text.identifier name ++ " = " ++ Value.boolText value ++ ";") ++
    ["constructor() \x7b", "super();"] ++
    properties.map (fun p =>
      "this.registerProperty(" ++ Text.quote p.name ++ ", " ++ p.default.source ++ ");") ++
    ["\x7d"] ++
    sections.flatMap (fun m => methodLines m.name m.sect.parameters m.body) ++
    routines.flatMap (fun r => methodLines r.name "" r.body) ++
    ["\x7d"] ++
    (if space.isEmpty then [] else ["\x7d"])

/-- What a module is generated with. -/
structure Options where
  layout : Layout
  baseClass : String

def Options.standard : Options := ⟨.standard, "Behavior"⟩

/-- Generates the module of a graph, all of whose types have to be in the catalog. -/
def generate (catalog : Catalog) (options : Options) (metadata : Metadata) (root : Graph) :
    Except UnknownType Module :=
  match unknownType? catalog root with
  | some e => .error e
  | none =>
    let s : Scope := ⟨catalog, root, ""⟩
    let anchors := anchors s
    let lifecycle := Section.lifecycle.map fun sect =>
      ⟨sect, sect.hook, sectionBody s anchors sect⟩
    let custom := (assignNames id reserved (customSections anchors).entries).map
      fun ((title, _), name) => ⟨.custom title, name, sectionBody s anchors (.custom title)⟩
    let sections : List SectionMethod := lifecycle ++ custom
    let taken := (custom.map (·.name)).reverse ++ reserved
    let routines := (assignNames (fun (n, _) => (n.displayName, n.id)) taken
      (freeGroups catalog root "")).map fun ((n, body), name) => ⟨name, n.id, body⟩
    let properties := firstOfName (registrations catalog root)
    let className := classNameOf metadata.name
    let text := Text.joinLines
      (classLines metadata options.baseClass className sections routines properties)
    .ok ⟨className, sections, routines, properties, options.layout.apply text⟩

/-- Generates the module of a document, groups that are open included. -/
def ofDocument (catalog : Catalog) (options : Options) (d : Document) : Except UnknownType Module :=
  generate catalog options d.metadata d.root

end Module
end FlowGraph
