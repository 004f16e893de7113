import FlowGraph.Document.Basic
import FlowGraph.Script.Lexer

/-! Graphs written as scripts. -/
namespace FlowGraph.Script

def indent (depth : Nat) : String := String.ofList (List.replicate (4 * depth) ' ')

/-- The words that are no identifiers. -/
def reservedWords : List String := Keyword.all.map Keyword.word ++ ["true", "false", "inf", "nan"]

/-- Whether a name can stand without quotes. -/
def isPlainName (s : String) : Bool :=
  match s.toList with
  | [] => false
  | c :: cs => isWordStart c && cs.all isWordChar && !reservedWords.contains s

def nameText (s : String) : String := if isPlainName s then s else Text.quote s

def numberText (x : Number) : String := x.toText Number.scriptLayout

def valueText : Value → String
  | .number n => numberText n
  | .bool b => Value.boolText b
  | .text s => Text.quote s
  | .vector ns => Value.bracketed (ns.map numberText)

def pairText (a b : Number) : String := "(" ++ numberText a ++ ", " ++ numberText b ++ ")"

/-- The position, and the size unless it is the standard one. -/
def placementText {G : Type} (n : Node G) : String :=
  " at " ++ pairText n.position.x n.position.y ++
    if n.size.agrees .standard then "" else " size " ++ pairText n.size.width n.size.height

def labelsText (labels : List String) : String := Value.bracketed (labels.map Text.quote)

def fieldText (depth : Nat) (entry : String × Value) : String :=
  indent depth ++ nameText entry.1 ++ " = " ++ valueText entry.2 ++ ";\n"

def fieldsText (depth : Nat) (entries : List (String × Value)) : String :=
  String.join (entries.map (fieldText depth))

def nodeText {G : Type} (depth : Nat) (n : Node G) : String :=
  indent depth ++ "node " ++ idText n.id ++ " " ++ Text.quote n.type ++ placementText n ++
    if n.fields.entries.isEmpty then ";\n"
    else " \x7b\n" ++ fieldsText (depth + 1) n.fields.entries ++ indent depth ++ "\x7d\n"

/-- A group; its name stands in front of its other fields. -/
def groupText {G : Type} (depth : Nat) (n : Node G) (body : String) : String :=
  indent depth ++ "group " ++ idText n.id ++ " " ++ Text.quote n.displayName ++ placementText n ++
    " inputs " ++ labelsText n.inputs ++ " outputs " ++ labelsText n.outputs ++ " \x7b\n" ++
    fieldsText (depth + 1) (n.fields.entries.filter (·.1 != "name")) ++ body ++
    indent depth ++ "\x7d\n"

def endpointText (e : Endpoint) : String := idText e.node ++ ":" ++ Nat.repr e.port.toNat

def linkText (depth : Nat) (l : Link) : String :=
  indent depth ++ "connect " ++ endpointText l.source ++ " -> " ++ endpointText l.target ++ ";\n"

/-- The statements of a graph: its nodes in order, then its links. -/
def graphText : Graph → Nat → String := Graph.fold fun nodes links depth =>
  String.join (nodes.map fun (n, inner) =>
    if n.isGroup then
      groupText depth n (match inner with | some text => text (depth + 1) | none => "")
    else nodeText depth n) ++
  String.join (links.map (linkText depth))

def metadataText (m : Metadata) : String :=
  "module " ++ Text.quote m.name ++ ";\n" ++
    (if m.space.isEmpty then "" else "namespace " ++ Text.quote m.space ++ ";\n") ++
    (if m.description.isEmpty then "" else "description " ++ Text.quote m.description ++ ";\n") ++
    String.join (m.flags.entries.map fun (name, value) =>
      "flag " ++ nameText name ++ " = " ++ Value.boolText value ++ ";\n")

/-- The script of a module. -/
def render (m : Metadata) (g : Graph) : String :=
  metadataText m ++ (if g.isEmpty then "" else "\n") ++ graphText g 0

/-- The script of the graph being edited. -/
def ofDocument (d : Document) : String := render d.metadata d.active

end FlowGraph.Script
