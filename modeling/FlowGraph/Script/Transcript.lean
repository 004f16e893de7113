import FlowGraph.Script.Target

/-! A target that writes down what a script asks for. -/
namespace FlowGraph.Script

/-- The requests so far, in order, and the ids of the nodes that are refused. -/
structure Transcript where
  requests : List String
  refused : List NodeId

namespace Transcript

def plain (x : Number) : String := x.toPlain Number.messageLayout

def fieldText (entry : String × Value) : String := entry.1 ++ "=" ++ entry.2.source

def nodeText (n : Node Graph) : String :=
  "node " ++ idText n.id ++ " " ++ n.type ++ " at " ++ plain n.position.x ++ "," ++
    plain n.position.y ++ " size " ++ plain n.size.width ++ "," ++ plain n.size.height ++
    " fields " ++ String.intercalate "|" (n.fields.entries.map fieldText)

def portText (p : Port) : String := idText p.node ++ ":" ++ Nat.repr p.index.toNat

def note (t : Transcript) (request : String) : Transcript :=
  { t with requests := t.requests ++ [request] }

instance : Target Transcript where
  setName t name := t.note ("module " ++ name)
  setSpace t name := t.note ("namespace " ++ name)
  setDescription t text := t.note ("description " ++ text)
  setFlag t name value := t.note ("flag " ++ name ++ "=" ++ Value.boolText value)
  addNode t n :=
    (t.note (nodeText n), if n.id ∈ t.refused then .error (.duplicateId n.id) else .ok ())
  connect t a b :=
    (t.note ("connect " ++ portText a ++ " " ++ portText b),
      if b.node ∈ t.refused then .error (.nodeNotFound b.node) else .ok ())
  enterGroup t id := (t.note ("enter " ++ idText id), .ok ())
  exitGroup t := t.note "exit"

end Transcript
end FlowGraph.Script
