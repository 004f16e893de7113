import FlowGraph.Proofs.ExpressionGrammar
import FlowGraph.Proofs.ScriptText

/-! The expressions that data graphs stand for. The text of a data input that a tree of pure nodes
feeds has one reading, and this is the tree. -/
namespace FlowGraph

/-! ### Values -/

namespace Text

open Operand

theorem quoted_escape (c : Char) {cs : List Char} (h : Quoted cs) : Quoted (escape c ++ cs) := by
  unfold escape
  split
  · exact .escape h
  · exact .escape h
  · exact .escape h
  · exact .escape h
  · exact .escape h
  · next hquote hescape _ _ _ => exact .char hquote hescape h

theorem quoted_escapeAll (cs : List Char) : Quoted (escapeAll cs) := by
  induction cs with
  | nil => exact .nil
  | cons c cs ih => exact quoted_escape c ih

end Text

namespace Expression

open Operand Text

theorem Items.blank_cons {c : Char} (hc : isBlank c = true) {cs : List Char} {n : Number}
    {ns : List Number} (h : Items cs (n :: ns)) : Items (c :: cs) (n :: ns) := by
  have htrim : ∀ cs, trim (c :: cs) = trim cs :=
    fun cs => by rw [trim, trim, List.dropWhile_cons_of_pos hc]
  cases h with
  | last h => exact .last (by rwa [htrim])
  | more h hrest => exact (Items.more ((htrim _).symm ▸ h) hrest :)

theorem items_intercalate (ns : List Number) :
    Items (String.intercalate ", " (ns.map (·.toText Number.sourceLayout))).toList
      (ns.map Number.canonical) := by
  have hone : ∀ n : Number, Script.Spelled Number.sourceLayout
      (trim (n.toText Number.sourceLayout).toList)
      n.canonical := fun n => by
    have hspelled := Script.spelled_toText Number.sourceLayout n
    rwa [trim_eq_self fun c hc => ((isWord_of_spelled hspelled).plain hc).2.1]
  induction ns with
  | nil => exact .none (fun c hc => absurd hc List.not_mem_nil)
  | cons n ns ih =>
    cases ns with
    | nil =>
      rw [List.map_singleton, String.intercalate_singleton]
      exact .last (hone n)
    | cons m ns =>
      have hrest := ih.blank_cons (c := ' ') (by decide)
      have hitems := Items.more (hone n) hrest
      simpa [String.intercalate_cons_cons, String.toList_append] using hitems

theorem source_zero : Template.zero.source = "0" := by decide +kernel

/-- A value is written as a leaf, and numbers are read in their canonical form. -/
theorem leaf_source (v : Value) : Leaf v.source.toList (literal v.canonical) := by
  cases v with
  | number n => exact .word (.number (Script.spelled_toText _ n))
  | bool b => exact .word (.bool b)
  | text s =>
    have hleaf := Leaf.text (quoted_escapeAll s.toList)
    rw [unescapeAll_escapeAll, String.ofList_toList] at hleaf
    rw [Value.source, quote, String.toList_ofList]
    exact hleaf
  | vector ns =>
    have hleaf := Leaf.vector (items_intercalate ns)
    rw [Value.source, Value.bracketed, String.toList_append, String.toList_append]
    exact hleaf

end Expression

/-! ### Data graphs -/

namespace Operator

def symbol : Operator → String
  | add => "+"
  | subtract => "-"
  | multiply => "*"
  | divide => "/"
  | greater => ">"
  | less => "<"
  | equal => "=="
  | and => "&&"
  | or => "||"

theorem toList_symbol (op : Operator) : op.symbol.toList = op.chars := by
  cases op <;> rfl

def fallback : Operator → Value
  | divide => .number (.ofNat 1)
  | and => .bool false
  | or => .bool false
  | _ => .number .zero

end Operator

inductive Shape where
  | literal (default : Value)
  | property
  | vector
  | negation
  | binary (op : Operator)
deriving DecidableEq

namespace Shape

def template (type : String) : Shape → Template
  | literal default => Template.literal type default
  | property => Template.getProperty
  | vector => Template.vector3
  | negation => Template.negation
  | binary op => Template.binary type op.symbol op.fallback.source

def types : List (String × Shape) :=
  [("number", literal Template.zero), ("boolean", literal (.bool false)),
    ("text", literal (.text "")), ("vector3", vector), ("get-property", property),
    ("not", negation), ("add", binary .add), ("subtract", binary .subtract),
    ("multiply", binary .multiply), ("divide", binary .divide), ("greater", binary .greater),
    ("less", binary .less), ("equal", binary .equal), ("and", binary .and), ("or", binary .or)]

theorem find?_standard {type : String} {shape : Shape} (h : (type, shape) ∈ types) :
    Catalog.standard.find? type = some (shape.template type) := by
  have hzero : (Value.number .zero).source = "0" := Expression.source_zero
  have hone : (Value.number (.ofNat 1)).source = "1" := by decide +kernel
  have hfalse : (Value.bool false).source = "false" := rfl
  simp only [types, List.mem_cons, List.not_mem_nil, or_false, Prod.mk.injEq] at h
  rcases h with ⟨rfl, rfl⟩ | ⟨rfl, rfl⟩ | ⟨rfl, rfl⟩ | ⟨rfl, rfl⟩ | ⟨rfl, rfl⟩ | ⟨rfl, rfl⟩ |
    ⟨rfl, rfl⟩ | ⟨rfl, rfl⟩ | ⟨rfl, rfl⟩ | ⟨rfl, rfl⟩ | ⟨rfl, rfl⟩ | ⟨rfl, rfl⟩ | ⟨rfl, rfl⟩ |
    ⟨rfl, rfl⟩ | ⟨rfl, rfl⟩
  all_goals
    refine Catalog.find?_eq_some_iff.2 ⟨?_, rfl⟩
    simp [template, Operator.fallback, Operator.symbol, hzero, hone, hfalse, Template.standard]

theorem isPure_template (type : String) (shape : Shape) : (shape.template type).isPure = true := by
  cases shape <;> rfl

theorem unique {type : String} {shape shape' : Shape} (h : (type, shape) ∈ types)
    (h' : (type, shape') ∈ types) : shape = shape' := by
  have hnodup : (types.map Prod.fst).Nodup := by decide +kernel
  exact (Prod.mk.inj (List.inj_on_of_nodup_map hnodup h h' rfl)).2

end Shape

/-- A place of a data graph that has a value: an output, a pure node, or an input with the field and
the value that stand for it if nothing is connected to it. -/
inductive Slot where
  | output (output : Endpoint)
  | node (id : NodeId)
  | input (node : Node Graph) (index : Nat) (field : String) (fallback : Value)

def eventTypes : List String := ["on-start", "on-update", "on-render", "on-destroy"]

def variableTypes : List String := ["for-loop", "call-method"]

theorem disjoint_variableTypes_eventTypes : variableTypes.Disjoint eventTypes := by
  simp only [variableTypes, eventTypes, List.disjoint_cons_left, List.disjoint_nil_left, and_true]
  decide

open Expression in
/-- The expression trees of a data graph, where `path` leads to the graph. Numbers are in their
canonical form. -/
inductive Graph.Denotes (g : Graph) (path : List NodeId) : Slot → Expression → Prop
  | literal {id : NodeId} {node : Node Graph} {default : Value} (hfind : g.find? id = some node)
      (hshape : (node.type, .literal default) ∈ Shape.types) :
      Denotes g path (.node id) (literal ((node.fields.get? "value").getD default).canonical)
  | property {id : NodeId} {node : Node Graph} (hfind : g.find? id = some node)
      (hshape : (node.type, .property) ∈ Shape.types)
      (hname : Module.IsName (Template.fieldText node "name" "value")) :
      Denotes g path (.node id) (property (Template.fieldText node "name" "value"))
  | vector {id : NodeId} {node : Node Graph} {x y z : Expression} (hfind : g.find? id = some node)
      (hshape : (node.type, .vector) ∈ Shape.types)
      (hx : Denotes g path (.input node 0 "x" Template.zero) x)
      (hy : Denotes g path (.input node 1 "y" Template.zero) y)
      (hz : Denotes g path (.input node 2 "z" Template.zero) z) :
      Denotes g path (.node id) (vector x y z)
  | negation {id : NodeId} {node : Node Graph} {x : Expression} (hfind : g.find? id = some node)
      (hshape : (node.type, .negation) ∈ Shape.types)
      (hx : Denotes g path (.input node 0 "value" (.bool false)) x) :
      Denotes g path (.node id) (negation x)
  | binary {id : NodeId} {node : Node Graph} {op : Operator} {x y : Expression}
      (hfind : g.find? id = some node)
      (hshape : (node.type, .binary op) ∈ Shape.types)
      (hx : Denotes g path (.input node 0 "a" op.fallback) x)
      (hy : Denotes g path (.input node 1 "b" op.fallback) y) :
      Denotes g path (.node id) (binary op x y)
  /-- The value of a pure node with one data output is at each of its outputs. -/
  | pure {output : Endpoint} {node : Node Graph} {label : String} {e : Expression}
      (hfind : g.find? output.node = some node)
      (hlabel : node.outputs[output.port.toNat]? = some label) (hdata : node.dataOutputs ≤ 1)
      (h : Denotes g path (.node output.node) e) : Denotes g path (.output output) e
  | declared {output : Endpoint} {node : Node Graph} {label : String}
      (hfind : g.find? output.node = some node)
      (hlabel : node.outputs[output.port.toNat]? = some label) (htype : node.type ∈ variableTypes) :
      Denotes g path (.output output) (name (Scope.variableAt (path, node.id)))
  | parameter {output : Endpoint} {node : Node Graph} {label : String}
      (hfind : g.find? output.node = some node)
      (hlabel : node.outputs[output.port.toNat]? = some label) (htype : node.type ∈ eventTypes)
      (hname : Module.IsName label) (hfree : label ∉ valueWords) :
      Denotes g path (.output output) (name label)
  | linked {node : Node Graph} {index : Nat} {field label : String} {fallback : Value} {link : Link}
      {e : Expression}
      (hlabel : node.inputs[index]? = some label) (hdata : Label.isFlow label = false)
      (hlink : g.incoming? node.id index = some link) (h : Denotes g path (.output link.source) e) :
      Denotes g path (.input node index field fallback) e
  /-- An input that nothing is connected to has the value of the field. -/
  | filled {node : Node Graph} {index : Nat} {field : String} {fallback : Value}
      (hunfed : ∀ label, node.inputs[index]? = some label → Label.isFlow label = false →
        g.incoming? node.id index = none) :
      Denotes g path (.input node index field fallback)
        (literal ((node.fields.get? field).getD fallback).canonical)

namespace Graph.Denotes

variable {g : Graph} {path : List NodeId} {slot : Slot} {e e' : Expression}

theorem exists_shape {id : NodeId} (h : g.Denotes path (.node id) e) :
    ∃ node shape, g.find? id = some node ∧ (node.type, shape) ∈ Shape.types := by
  cases h with
  | literal hfind hshape => exact ⟨_, _, hfind, hshape⟩
  | property hfind hshape => exact ⟨_, _, hfind, hshape⟩
  | vector hfind hshape => exact ⟨_, _, hfind, hshape⟩
  | negation hfind hshape => exact ⟨_, _, hfind, hshape⟩
  | binary hfind hshape => exact ⟨_, _, hfind, hshape⟩

/-- A node of a pure type is no event and has no variable. -/
theorem not_mem_of_pure {output : Endpoint} {node : Node Graph}
    (hfind : g.find? output.node = some node) (h : g.Denotes path (.node output.node) e) :
    node.type ∉ variableTypes ++ eventTypes := by
  have hall : (Shape.types.all fun p => !(variableTypes ++ eventTypes).contains p.1) = true := by
    decide +kernel
  obtain ⟨node', shape, hfind', hshape⟩ := h.exists_shape
  obtain rfl := Option.some.inj (hfind'.symm.trans hfind)
  simpa using List.all_eq_true.1 hall _ hshape

def Builds (g : Graph) (path : List NodeId) (node : Node Graph) (e : Expression) : Shape → Prop
  | .literal default => e = .literal ((node.fields.get? "value").getD default).canonical
  | .property => e = .property (Template.fieldText node "name" "value")
  | .vector => ∃ x y z, e = .vector x y z ∧ g.Denotes path (.input node 0 "x" Template.zero) x ∧
      g.Denotes path (.input node 1 "y" Template.zero) y ∧
        g.Denotes path (.input node 2 "z" Template.zero) z
  | .negation => ∃ x, e = .negation x ∧ g.Denotes path (.input node 0 "value" (.bool false)) x
  | .binary op => ∃ x y, e = .binary op x y ∧ g.Denotes path (.input node 0 "a" op.fallback) x ∧
      g.Denotes path (.input node 1 "b" op.fallback) y

theorem shape_unique {id : NodeId} {node node' : Node Graph} {shape shape' : Shape}
    (hfind : g.find? id = some node) (hshape : (node.type, shape) ∈ Shape.types)
    (hfind' : g.find? id = some node') (hshape' : (node'.type, shape') ∈ Shape.types) :
    node = node' ∧ shape = shape' := by
  obtain rfl := Option.some.inj (hfind.symm.trans hfind')
  exact ⟨rfl, Shape.unique hshape hshape'⟩

theorem builds {id : NodeId} {node : Node Graph} {shape : Shape} (hfind : g.find? id = some node)
    (hshape : (node.type, shape) ∈ Shape.types) (h : g.Denotes path (.node id) e) :
    Builds g path node e shape := by
  cases h with
  | literal hfind' hshape' =>
    obtain ⟨rfl, rfl⟩ := shape_unique hfind hshape hfind' hshape'
    rfl
  | property hfind' hshape' =>
    obtain ⟨rfl, rfl⟩ := shape_unique hfind hshape hfind' hshape'
    rfl
  | vector hfind' hshape' hx hy hz =>
    obtain ⟨rfl, rfl⟩ := shape_unique hfind hshape hfind' hshape'
    exact ⟨_, _, _, rfl, hx, hy, hz⟩
  | negation hfind' hshape' hx =>
    obtain ⟨rfl, rfl⟩ := shape_unique hfind hshape hfind' hshape'
    exact ⟨_, rfl, hx⟩
  | binary hfind' hshape' hx hy =>
    obtain ⟨rfl, rfl⟩ := shape_unique hfind hshape hfind' hshape'
    exact ⟨_, _, rfl, hx, hy⟩

/-- A place has one value at most. -/
theorem unique (h : g.Denotes path slot e) (h' : g.Denotes path slot e') : e = e' := by
  induction h generalizing e' with
  | literal hfind hshape => exact (h'.builds hfind hshape).symm
  | property hfind hshape => exact (h'.builds hfind hshape).symm
  | vector hfind hshape _ _ _ ihx ihy ihz =>
    obtain ⟨x, y, z, rfl, hx, hy, hz⟩ := h'.builds hfind hshape
    rw [ihx hx, ihy hy, ihz hz]
  | negation hfind hshape _ ihx =>
    obtain ⟨x, rfl, hx⟩ := h'.builds hfind hshape
    rw [ihx hx]
  | binary hfind hshape _ _ ihx ihy =>
    obtain ⟨x, y, rfl, hx, hy⟩ := h'.builds hfind hshape
    rw [ihx hx, ihy hy]
  | pure hfind _ _ h ih =>
    have hnot := not_mem_of_pure hfind h
    cases h' with
    | pure _ _ _ h' => exact ih h'
    | declared hfind' _ htype =>
      obtain rfl := Option.some.inj (hfind.symm.trans hfind')
      exact absurd (List.mem_append_left _ htype) hnot
    | parameter hfind' _ htype =>
      obtain rfl := Option.some.inj (hfind.symm.trans hfind')
      exact absurd (List.mem_append_right _ htype) hnot
  | declared hfind _ htype =>
    cases h' with
    | pure _ _ _ h' => exact absurd (List.mem_append_left _ htype) (not_mem_of_pure hfind h')
    | declared hfind' =>
      obtain rfl := Option.some.inj (hfind.symm.trans hfind')
      rfl
    | parameter hfind' _ htype' =>
      obtain rfl := Option.some.inj (hfind.symm.trans hfind')
      exact (disjoint_variableTypes_eventTypes htype htype').elim
  | parameter hfind hlabel htype =>
    cases h' with
    | pure _ _ _ h' => exact absurd (List.mem_append_right _ htype) (not_mem_of_pure hfind h')
    | declared hfind' _ htype' =>
      obtain rfl := Option.some.inj (hfind.symm.trans hfind')
      exact (disjoint_variableTypes_eventTypes htype' htype).elim
    | parameter hfind' hlabel' =>
      obtain rfl := Option.some.inj (hfind.symm.trans hfind')
      rw [Option.some.inj (hlabel.symm.trans hlabel')]
  | linked hlabel hdata hlink _ ih =>
    cases h' with
    | linked _ _ hlink' h' =>
      obtain rfl := Option.some.inj (hlink.symm.trans hlink')
      exact ih h'
    | filled hunfed =>
      rw [hunfed _ hlabel hdata] at hlink
      cases hlink
  | filled hunfed =>
    cases h' with
    | linked hlabel hdata hlink =>
      rw [hunfed _ hlabel hdata] at hlink
      cases hlink
    | filled => rfl

end Graph.Denotes

/-! ### Texts of data graphs -/

namespace Scope

section Output

variable {s : Scope} {left : List NodeId} {output : Endpoint} {node : Node Graph} {label : String}
  {template : Template}

theorem expression_of_pure (hfind : s.graph.find? output.node = some node)
    (hlabel : node.outputs[output.port.toNat]? = some label)
    (htemplate : s.catalog.find? node.type = some template) (hpure : template.isPure = true)
    (hdata : node.dataOutputs ≤ 1) (hleft : output.node ∈ left) :
    s.expression left output =
      some (template.emit node ⟨s.inputs node (s.expression (left.erase output.node)), [],
        s.varName node.id⟩) := by
  have hone : ¬1 < node.dataOutputs := by omega
  rw [expression]
  simp [hfind, hlabel, htemplate, hpure, hleft, hone]

theorem expression_of_access (hfind : s.graph.find? output.node = some node)
    (hlabel : node.outputs[output.port.toNat]? = some label)
    (htemplate : s.catalog.find? node.type = some template) (hpure : template.isPure = false)
    {text : String} (haccess : template.access node (s.varName node.id) label = some text) :
    s.expression left output = some text := by
  rw [expression]
  simp [hfind, hlabel, htemplate, hpure, haccess]

theorem expression_of_single (hfind : s.graph.find? output.node = some node)
    (hlabel : node.outputs[output.port.toNat]? = some label)
    (htemplate : s.catalog.find? node.type = some template) (hpure : template.isPure = false)
    (haccess : template.access node (s.varName node.id) label = none)
    (hsingle : template.single = true) : s.expression left output = some (s.varName node.id) := by
  rw [expression]
  simp [hfind, hlabel, htemplate, hpure, haccess, hsingle]

end Output

theorem getElem?_inputs (s : Scope) (node : Node Graph) (value : Endpoint → Option String)
    (index : Nat) :
    (s.inputs node value)[index]? = node.inputs[index]?.map fun label =>
      if Label.isFlow label then none else (s.graph.incoming? node.id index).bind
        fun link => value link.source := by
  simp only [inputs, List.getElem?_map, List.getElem?_zipIdx, Option.map_map]
  simp [Function.comp_def]

section Input

variable {s : Scope} {node : Node Graph} {value : Endpoint → Option String} {index : Nat}
  {branches : List String}
  {varName field : String}

theorem inputOr_of_linked {label fallback text : String} {link : Link}
    (hlabel : node.inputs[index]? = some label) (hdata : Label.isFlow label = false)
    (hlink : s.graph.incoming? node.id index = some link) (hvalue : value link.source = some text) :
    Emission.inputOr ⟨s.inputs node value, branches, varName⟩ index node field fallback = text := by
  have hinput : Emission.input? ⟨s.inputs node value, branches, varName⟩ index = some text := by
    rw [Emission.input?, getElem?_inputs, hlabel, Option.map_some, hdata, hlink,
      Option.bind_some, hvalue]
    rfl
  rw [Emission.inputOr, hinput]

theorem inputOr_of_unfed {fallback : Value} (hunfed : ∀ label, node.inputs[index]? = some label →
      Label.isFlow label = false → s.graph.incoming? node.id index = none) :
    Emission.inputOr ⟨s.inputs node value, branches, varName⟩ index node field fallback.source =
      ((node.fields.get? field).getD fallback).source := by
  have hinput : Emission.input? ⟨s.inputs node value, branches, varName⟩ index = none := by
    rw [Emission.input?, getElem?_inputs]
    cases hlabel : node.inputs[index]? with
    | none => rfl
    | some label =>
      cases hflow : Label.isFlow label with
      | true => simp [hflow]
      | false => simp [hunfed label hlabel hflow]
  rw [Emission.inputOr, hinput]
  cases node.fields.get? field <;> rfl

end Input

theorem isName_variableAt (p : List NodeId × NodeId) : Module.IsName (variableAt p) := by
  have hcode : ∀ c ∈ code p, Text.isNameChar c = true := by
    intro c hc
    rcases List.mem_append.1 hc with hc | hc
    · obtain ⟨id, -, hc⟩ := List.mem_flatMap.1 hc
      rcases List.mem_append.1 hc with hc | hc
      · exact Module.isNameChar_of_mem_toDigits hc
      · exact List.mem_singleton.1 hc ▸ Text.isNameChar_underscore
    · exact Module.isNameChar_of_mem_toDigits hc
  have hfirst : Text.isNameChar 'n' = true := by decide +kernel
  rw [Module.IsName, toList_variableAt]
  exact ⟨by rw [List.all_cons, hfirst, List.all_eq_true.2 hcode]; rfl, 'n', rfl, by decide +kernel⟩

theorem variableAt_not_mem_valueWords (p : List NodeId × NodeId) :
    variableAt p ∉ Expression.valueWords := by
  have hall : (Expression.valueWords.all fun w => w.toList.head? != some 'n') = true := by
    decide +kernel
  intro hmem
  simpa [toList_variableAt] using List.all_eq_true.1 hall _ hmem

end Scope

/-- The text that stands for a place, where `left` are the ids of pure nodes that are not on the way
to it. -/
def Slot.text? (s : Scope) (left : List NodeId) : Slot → Option String
  | output source => s.expression left source
  | node id => (s.graph.find? id).bind fun n => (s.catalog.find? n.type).map fun template =>
      template.emit n ⟨s.inputs n (s.expression (left.erase id)), [], s.varName n.id⟩
  | input n index field fallback =>
    some ((⟨s.inputs n (s.expression left), [], ""⟩ : Emission).inputOr index n field
      fallback.source)

theorem Slot.text?_node {g : Graph} {stem : String} {left : List NodeId} {id : NodeId}
    {node : Node Graph} {shape : Shape} (hfind : g.find? id = some node)
    (hshape : (node.type, shape) ∈ Shape.types) :
    (Slot.node id).text? ⟨.standard, g, stem⟩ left = some ((shape.template node.type).emit node
      ⟨Scope.inputs ⟨.standard, g, stem⟩ node
        (Scope.expression ⟨.standard, g, stem⟩ (left.erase id)), [],
        Scope.varName ⟨.standard, g, stem⟩ node.id⟩) := by
  simp only [text?, hfind, Shape.find?_standard hshape, Option.bind_some, Option.map_some]

theorem find?_of_mem_eventTypes {type : String} (h : type ∈ eventTypes) :
    ∃ t, Catalog.standard.find? type = some t ∧ t.isPure = false ∧
      ∀ node base label, t.access node base label = some label := by
  simp only [eventTypes, List.mem_cons, List.not_mem_nil, or_false] at h
  rcases h with rfl | rfl | rfl | rfl <;> rw [Catalog.find?_standard_eq] <;>
    exact ⟨_, rfl, rfl, fun _ _ _ => rfl⟩

theorem find?_of_mem_variableTypes {type : String} (h : type ∈ variableTypes) :
    ∃ t, Catalog.standard.find? type = some t ∧ t.isPure = false ∧ t.single = true ∧
      ∀ node base label, t.access node base label = none := by
  simp only [variableTypes, List.mem_cons, List.not_mem_nil, or_false] at h
  rcases h with rfl | rfl <;> rw [Catalog.find?_standard_eq] <;>
    exact ⟨_, rfl, rfl, rfl, fun _ _ _ => rfl⟩

namespace Graph.Denotes

open Expression Scope

variable {g : Graph} {path : List NodeId} {slot : Slot} {e : Expression} {left : List NodeId}

/-- The pure nodes on the way have larger values, so that they are not met again. -/
def Outgrown (g : Graph) (path left : List NodeId) (e : Expression) : Prop :=
  ∀ id e', id ∉ left → g.Denotes path (.node id) e' → sizeOf e < sizeOf e'

theorem Outgrown.erase (hleft : Outgrown g path left e) {id : NodeId}
    (h : g.Denotes path (.node id) e) {x : Expression} (hx : sizeOf x < sizeOf e) :
    Outgrown g path (left.erase id) x := by
  intro id' e' hid' he'
  -- The node that comes on the way now has the value `e` at whichever output it is met.
  by_cases heq : id' = id
  · rw [heq] at he'
    rwa [← h.unique he']
  · rw [List.mem_erase_of_ne heq] at hid'
    exact Nat.lt_trans hx (hleft id' e' hid' he')

/-- The value of a place is written in its text. -/
theorem exists_text (h : g.Denotes path slot e) (hleft : Outgrown g path left e) :
    ∃ text, slot.text? ⟨.standard, g, stemAt path⟩ left = some text ∧ Written text.toList e := by
  induction h generalizing left with
  | literal hfind hshape => exact ⟨_, Slot.text?_node hfind hshape, .leaf (leaf_source _)⟩
  | property hfind hshape hname =>
    refine ⟨"this." ++ Template.fieldText _ "name" "value", Slot.text?_node hfind hshape,
      .leaf (.word ?_)⟩
    rw [String.toList_append]
    exact Word.property hname
  | vector hfind hshape hx hy hz ihx ihy ihz =>
    have hnode := vector hfind hshape hx hy hz
    obtain ⟨tx, htx, hx⟩ := ihx (hleft.erase hnode (by rw [Expression.vector.sizeOf_spec]; omega))
    obtain ⟨ty, hty, hy⟩ := ihy (hleft.erase hnode (by rw [Expression.vector.sizeOf_spec]; omega))
    obtain ⟨tz, htz, hz⟩ := ihz (hleft.erase hnode (by rw [Expression.vector.sizeOf_spec]; omega))
    rw [Slot.text?, source_zero] at htx hty htz
    refine ⟨"vec3(" ++ tx ++ ", " ++ ty ++ ", " ++ tz ++ ")", ?_, ?_⟩
    · rw [Slot.text?_node hfind hshape, ← Option.some.inj htx, ← Option.some.inj hty,
        ← Option.some.inj htz]
      rfl
    · simpa [String.toList_append] using Written.vector hx hy hz
  | negation hfind hshape hx ihx =>
    have hnode := negation hfind hshape hx
    obtain ⟨tx, htx, hx⟩ := ihx (hleft.erase hnode (by rw [Expression.negation.sizeOf_spec]; omega))
    refine ⟨"!" ++ operand tx, ?_, ?_⟩
    · rw [Slot.text?_node hfind hshape, ← Option.some.inj htx]
      rfl
    · simpa [String.toList_append, toList_operand] using Written.negation hx
  | @binary _ _ op _ _ hfind hshape hx hy ihx ihy =>
    have hnode := binary hfind hshape hx hy
    obtain ⟨tx, htx, hx⟩ := ihx (hleft.erase hnode (by rw [Expression.binary.sizeOf_spec]; omega))
    obtain ⟨ty, hty, hy⟩ := ihy (hleft.erase hnode (by rw [Expression.binary.sizeOf_spec]; omega))
    refine ⟨operand tx ++ " " ++ op.symbol ++ " " ++ operand ty, ?_, ?_⟩
    · rw [Slot.text?_node hfind hshape, ← Option.some.inj htx, ← Option.some.inj hty]
      rfl
    · simpa [String.toList_append, toList_operand, Operator.toList_symbol] using Written.binary
        op hx hy
  | @pure output node label e hfind hlabel hdata h ih =>
    obtain ⟨node', shape, hfind', hshape⟩ := h.exists_shape
    obtain rfl := Option.some.inj (hfind'.symm.trans hfind)
    obtain ⟨text, htext, hwritten⟩ := ih hleft
    -- Were the node on the way already, its value would be larger than itself.
    have hmem : output.node ∈ left := by
      by_contra hnot
      exact Nat.lt_irrefl _ (hleft _ e hnot h)
    refine ⟨text, ?_, hwritten⟩
    rw [Slot.text?_node hfind hshape] at htext
    rw [← htext]
    exact expression_of_pure hfind hlabel (Shape.find?_standard hshape)
      (Shape.isPure_template _ _) hdata hmem
  | @declared _ node _ hfind hlabel htype =>
    obtain ⟨t, htemplate, hpure, hsingle, haccess⟩ := find?_of_mem_variableTypes htype
    have hword := Word.name (isName_variableAt (path, node.id)) (variableAt_not_mem_valueWords _)
    refine ⟨variableAt (path, node.id), ?_, .leaf (.word hword)⟩
    exact expression_of_single hfind hlabel htemplate hpure (haccess _ _ _) hsingle
  | parameter hfind hlabel htype hname hfree =>
    obtain ⟨t, htemplate, hpure, haccess⟩ := find?_of_mem_eventTypes htype
    exact ⟨_, expression_of_access hfind hlabel htemplate hpure (haccess _ _ _),
      .leaf (.word (.name hname hfree))⟩
  | linked hlabel hdata hlink _ ih =>
    obtain ⟨text, htext, hwritten⟩ := ih hleft
    refine ⟨text, ?_, hwritten⟩
    rw [Slot.text?, inputOr_of_linked hlabel hdata hlink htext]
  | filled hunfed =>
    refine ⟨_, ?_, .leaf (leaf_source _)⟩
    rw [Slot.text?, inputOr_of_unfed hunfed]

/-- At the start no pure node is on the way. -/
theorem outgrown_ids (g : Graph) (path : List NodeId) (e : Expression) :
    Outgrown g path g.ids e := by
  intro id e' hid h
  obtain ⟨node, shape, hfind, -⟩ := h.exists_shape
  obtain ⟨hmem, rfl⟩ := Graph.find?_mem hfind
  exact absurd (List.mem_map_of_mem hmem) hid

end Graph.Denotes

/-- The text for a data input that a tree of pure nodes feeds has one reading, however operators
bind, and this is the tree. -/
theorem Scope.inputExpressions_reads {g : Graph} {path : List NodeId} {node : Node Graph}
    {index : Nat} {label : String} {link : Link} {e : Expression}
    (hlabel : node.inputs[index]? = some label) (hdata : Label.isFlow label = false)
    (hlink : g.incoming? node.id index = some link) (h : g.Denotes path (.output link.source) e) :
    ∃ text, (inputExpressions ⟨.standard, g, stemAt path⟩ node)[index]? = some (some text) ∧
      ∀ e', Expression.Reads .whole text.toList e' ↔ e' = e := by
  obtain ⟨text, htext, hwritten⟩ := h.exists_text (Graph.Denotes.outgrown_ids g path e)
  refine ⟨text, ?_, fun e' => hwritten.reads_iff⟩
  have hsource : expression ⟨.standard, g, stemAt path⟩ g.ids link.source = some text := htext
  rw [inputExpressions, getElem?_inputs, hlabel, Option.map_some, hdata, hlink,
    Option.bind_some, hsource]
  rfl

def comparison : Graph :=
  let made (id : NodeId) (type : String) (inputs : List String) (fields : List (String × Value)) :
      Node Graph :=
    { (Node.ofType id type inputs ["value"] : Node Graph) with fields := .ofList fields }
  ⟨[made 1 "number" [] [("value", .number (.infinity true))],
    made 2 "text" [] [("value", .text "\" (")], made 3 "subtract" ["a", "b"]
    [("b", .vector [.ofNat 1, .ofNat 2])], made 4 "not" ["value"] [], made 5 "equal" ["a", "b"] [],
    .ofType 6 "log" ["flow", "message"] ["flow"]],
    [⟨⟨1, 0⟩, ⟨3, 0⟩⟩, ⟨⟨3, 0⟩, ⟨4, 0⟩⟩, ⟨⟨4, 0⟩, ⟨5, 0⟩⟩, ⟨⟨2, 0⟩, ⟨5, 1⟩⟩, ⟨⟨5, 0⟩, ⟨6, 1⟩⟩]⟩

theorem Scope.inputExpressions_reads_comparison : ∃ text,
    (inputExpressions ⟨.standard, comparison, stemAt [7]⟩
      (.ofType 6 "log" ["flow", "message"] ["flow"]))[1]? = some (some text) ∧
    text = "!(-Infinity - [1, 2]) == \"\\\" (\"" ∧
    ∀ e', Expression.Reads .whole text.toList e' ↔ e' = .binary .equal
      (.negation (.binary .subtract (.literal (.number (.infinity true)))
        (.literal (.vector [.ofNat 1, .ofNat 2]))))
      (.literal (.text "\" (")) := by
  have hshape : ∀ p : String × Shape, Shape.types.contains p = true → p ∈ Shape.types :=
    fun _ => List.contains_iff_mem.1
  have hliteral : ∀ {id : NodeId} {node : Node Graph} {default v : Value},
      comparison.find? id = some node →
      (node.type, .literal default) ∈ Shape.types →
        ((node.fields.get? "value").getD default).canonical = v →
      comparison.Denotes [7] (.node id) (.literal v) :=
        fun hfind hmem hv => hv ▸ .literal hfind hmem
  have hfield : ∀ {node : Node Graph} {index : Nat} {field : String} {fallback v : Value},
      comparison.incoming? node.id index = none →
        ((node.fields.get? field).getD fallback).canonical = v →
      comparison.Denotes [7] (.input node index field fallback) (.literal v) := fun hnone hv =>
    hv ▸ .filled fun _ _ _ => hnone
  have hnumber : comparison.Denotes [7] (.node 1) (.literal (.number (.infinity true))) :=
    hliteral rfl (hshape ("number", .literal Template.zero) (by decide +kernel)) (by decide +kernel)
  have htext : comparison.Denotes [7] (.node 2) (.literal (.text "\" (")) :=
    hliteral rfl (hshape ("text", .literal (.text "")) (by decide +kernel)) (by decide +kernel)
  have hdifference : comparison.Denotes [7] (.node 3)
      (.binary .subtract _ (.literal (.vector [.ofNat 1, .ofNat 2]))) :=
    .binary rfl (hshape ("subtract", .binary .subtract) (by decide +kernel))
      (.linked rfl rfl rfl (.pure rfl rfl (by decide) hnumber)) (hfield rfl (by decide +kernel))
  have hnegation : comparison.Denotes [7] (.node 4) (.negation _) :=
    .negation rfl (hshape ("not", .negation) (by decide +kernel))
      (.linked rfl rfl rfl (.pure rfl rfl (by decide) hdifference))
  have hequal : comparison.Denotes [7] (.node 5) (.binary .equal _ _) :=
    .binary rfl (hshape ("equal", .binary .equal) (by decide +kernel))
      (.linked rfl rfl rfl (.pure rfl rfl (by decide) hnegation))
        (.linked rfl rfl rfl (.pure rfl rfl (by decide) htext))
  have hlabel : (Node.ofType 6 "log" ["flow", "message"] ["flow"] : Node Graph).inputs[1]? =
      some "message" := rfl
  have hlink : comparison.incoming?
      (Node.ofType 6 "log" ["flow", "message"] ["flow"] : Node Graph).id 1 =
      some ⟨⟨5, 0⟩, ⟨6, 1⟩⟩ := rfl
  obtain ⟨text, hexpression, hreads⟩ :=
    inputExpressions_reads hlabel (by decide) hlink (.pure rfl rfl (by decide) hequal)
  have hvalue : (inputExpressions ⟨.standard, comparison, stemAt [7]⟩
      (.ofType 6 "log" ["flow", "message"] ["flow"]))[1]? =
        some (some "!(-Infinity - [1, 2]) == \"\\\" (\"") := by
    decide +kernel
  exact ⟨text, hexpression, Option.some.inj (Option.some.inj (hexpression.symm.trans hvalue)),
    hreads⟩

end FlowGraph
