import FlowGraph.Catalog.Template
import FlowGraph.Text.Basic

/-! The standard templates, and catalogs: the templates by the type of the nodes that they are
for. -/
namespace FlowGraph

/-! ### Operands -/

namespace Operand

/-- What the scan of an expression has seen: how deep in brackets it is, and where in a quoted
text. -/
inductive Mode where
  | plain
  | quoted
  | escaped
deriving DecidableEq

/-- Whether a blank stands outside brackets and quotes. -/
def isOpen : Mode → Int → List Char → Bool
  | _, _, [] => false
  | .escaped, depth, _ :: cs => isOpen .quoted depth cs
  | .quoted, depth, c :: cs =>
    if c = '\\' then isOpen .escaped depth cs
    else if c = '\x22' then isOpen .plain depth cs
    else isOpen .quoted depth cs
  | .plain, depth, c :: cs =>
    if c = '\x22' then isOpen .quoted depth cs
    else if c = '(' || c = '[' then isOpen .plain (depth + 1) cs
    else if c = ')' || c = ']' then isOpen .plain (depth - 1) cs
    else (Text.isBlank c && depth == 0) || isOpen .plain depth cs

end Operand

/-- An expression as an operand: in parentheses if a blank stands in it outside brackets and
quotes. -/
def operand (s : String) : String :=
  if Operand.isOpen .plain 0 s.toList then "(" ++ s ++ ")" else s

end FlowGraph

namespace FlowGraph.Template

/-! ### Standard templates -/

def fieldText (node : Node Graph) (name fallback : String) : String :=
  (node.text? name).getD fallback

def zero : Value := .number .zero

/-! ### Events -/

/-- The data outputs of an event are the parameters of its hook. -/
def event (type : String) (hook : Section) (outputs : List String) : Template :=
  { basic type [] outputs fun _ _ => "" with
    anchor := fun _ => some hook
    access := fun _ _ label => some label }

def customEvent : Template :=
  { basic "custom-event" [] ["flow"] fun _ _ => "" with
    defaults := .ofList [("name", .text "customEvent")]
    anchor := fun node => some (.custom (fieldText node "name" "customEvent")) }

/-! ### Values -/

def literal (type : String) (default : Value) : Template :=
  { basic type [] ["value"] fun node _ => ((node.fields.get? "value").getD default).source with
    defaults := .ofList [("value", default)] }

def vector3 : Template :=
  { basic "vector3" ["x", "y", "z"] ["vector"] fun node e =>
      "vec3(" ++ e.inputOr 0 node "x" "0" ++ ", " ++ e.inputOr 1 node "y" "0" ++ ", " ++
        e.inputOr 2 node "z" "0" ++ ")" with
    defaults := .ofList [("x", zero), ("y", zero), ("z", zero)] }

def splitVector : Template :=
  basic "split-vector" ["vector"] ["x", "y", "z"] fun _ e => (e.input? 0).getD "vec3(0, 0, 0)"

def getProperty : Template :=
  { basic "get-property" [] ["value"] fun node _ => "this." ++ fieldText node "name" "value" with
    defaults := .ofList [("name", .text "value")] }

def negation : Template :=
  basic "not" ["value"] ["result"] fun node e => "!" ++ operand (e.inputOr 0 node "value" "false")

/-- Two operands around an operator; `fallback` stands for an operand that is not there. -/
def binary (type operator fallback : String) : Template :=
  basic type ["a", "b"] ["result"] fun node e =>
    operand (e.inputOr 0 node "a" fallback) ++ " " ++ operator ++ " " ++
      operand (e.inputOr 1 node "b" fallback)

/-! ### Statements -/

def setProperty : Template :=
  { basic "set-property" ["flow", "value"] ["flow"] fun node e =>
      "this." ++ fieldText node "name" "value" ++ " = " ++ e.inputOr 1 node "value"
        "null" ++ ";" with
    defaults := .ofList [("name", .text "value"), ("value", zero), ("expose", .bool false)]
    property := fun node =>
      if (node.fields.get? "expose").bind Value.bool? = some true then
        some ⟨fieldText node "name" "value", (node.fields.get? "value").getD zero⟩
      else none }

def log : Template :=
  { basic "log" ["flow", "message"] ["flow"] fun node e =>
      "log(" ++ e.inputOr 1 node "message" "\"\"" ++ ");" with
    defaults := .ofList [("message", .text "")] }

def branch : Template :=
  basic "branch" ["flow", "condition"] ["flow:true", "flow:false"] fun node e =>
    let head := "if (" ++ e.inputOr 1 node "condition" "false" ++ ") \x7b"
    if Text.isBlankText (e.branch 1) then Text.stack [head, e.branch 0, "\x7d"]
    else Text.stack [head, e.branch 0, "\x7d else \x7b", e.branch 1, "\x7d"]

def forLoop : Template :=
  { basic "for-loop" ["flow", "count"] ["flow:body", "flow:completed", "index"] fun node e =>
      let index := e.varName
      let head := "for (let " ++ index ++ " = 0; " ++ index ++ " < " ++
        operand (e.inputOr 1 node "count" "0") ++ "; " ++ index ++ "++) \x7b"
      Text.stack [head, e.branch 0, "\x7d", e.branch 1] with
    defaults := .ofList [("count", .number (.ofNat 1))]
    single := true }

def callMethod : Template :=
  { basic "call-method" ["flow", "argument"] ["flow", "result"] fun node e =>
      "const " ++ e.varName ++ " = this." ++ fieldText node "method" "call" ++ "(" ++
        e.inputOr 1 node "argument" "" ++ ");" with
    defaults := .ofList [("method", .text "call")]
    single := true }

/-! ### Groups -/

/-- A node that only shapes the graph. -/
def structural (type : String) (inputs outputs : List String) : Template :=
  basic type inputs outputs fun _ _ => ""

def standard : List Template :=
  [event "on-start" .init ["flow"], event "on-update" .update ["flow", "delta"],
    event "on-render" .render ["flow"], event "on-destroy" .teardown ["flow"], customEvent,
    literal "number" zero, literal "boolean" (.bool false), literal "text" (.text ""), vector3,
    splitVector, getProperty, negation, setProperty, log, branch, forLoop, callMethod,
    structural Node.groupType ["flow"] ["flow"], structural (Node.boundaryType .input) [] ["flow"],
    structural (Node.boundaryType .output) ["flow"] [], binary "add" "+" "0",
    binary "subtract" "-" "0", binary "multiply" "*" "0", binary "divide" "/" "1",
    binary "greater" ">" "0", binary "less" "<" "0", binary "equal" "==" "0",
    binary "and" "&&" "false", binary "or" "||" "false"]

end FlowGraph.Template

namespace FlowGraph

/-! ### Catalogs -/

/-- A node whose type has no template. -/
structure UnknownType where
  id : NodeId
  type : String
deriving DecidableEq

def UnknownType.message (e : UnknownType) : String :=
  "Node '" ++ idText e.id ++ "' has an unregistered node type: '" ++ e.type ++ "'"

structure Catalog where
  templates : NameMap Template

namespace Catalog

def find? (c : Catalog) (type : String) : Option Template := c.templates.get? type

def contains (c : Catalog) (type : String) : Bool := c.templates.contains type

def register (c : Catalog) (type : String) (t : Template) : Catalog := ⟨c.templates.insert type t⟩

def standard : Catalog := ⟨.ofList (Template.standard.map fun t => (t.type, t))⟩

/-- Nodes of type `name` are treated like nodes of a standard type. -/
def withAlias (c : Catalog) (name type : String) : Catalog :=
  match Template.standard.find? (·.type == type) with
  | some t => c.register name t
  | none => c

def withTemplate (c : Catalog) (t : Template) : Catalog := c.register t.type t

def require (c : Catalog) (node : Node Graph) : Except UnknownType Template :=
  match c.find? node.type with
  | some t => .ok t
  | none => .error ⟨node.id, node.type⟩

/-- A new node of a type: the ports of its template, and the default fields that it does not
have. -/
def instantiate? (c : Catalog) (type : String) (id : NodeId) (position : Position) :
    Option (Node Graph) :=
  (c.find? type).map fun t =>
    let node : Node Graph :=
      if type = Node.groupType then .group id "Group" t.inputs t.outputs .empty
      else .ofType id type t.inputs t.outputs
    { node with
      position
      fields := t.defaults.entries.foldl (fun m entry => m.insertNew entry.1 entry.2) node.fields }

end Catalog
end FlowGraph
