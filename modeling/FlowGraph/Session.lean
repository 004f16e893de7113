import FlowGraph.Script.Load

/-! Editing sessions: a document and its history, and the edits that can be made. -/
namespace FlowGraph

structure Session where
  document : Document
  history : History

/-- Why an edit is refused. -/
inductive Refusal where
  | edit (cause : EditError)
  | link (cause : LinkError)
  | script (cause : Script.ScriptError)
  | file (cause : FileError)
deriving DecidableEq

def Refusal.message : Refusal → String
  | edit cause => cause.message
  | link cause => cause.message
  | script cause => cause.message
  | file cause => cause.message

def Refusal.ofLoad : Script.LoadError → Refusal
  | .script cause => script cause
  | .file cause => file cause

inductive Edit where
  | add (node : Node Graph)
  | remove (id : NodeId)
  | connect (a b : Port)
  | disconnect (select : Link → Bool)
  | move (id : NodeId) (position : Position)
  | setField (id : NodeId) (name : String) (value : Value)
  | prune
  | openGroup (id : NodeId)
  | closeGroup
  | closeAll
  | setPorts (id : NodeId) (inputs outputs : List String)
  | reconcile
  | save
  | undo
  | redo
  | clearHistory
  | load (text : String)

/-- What an edit that was made tells. -/
inductive Answer where
  | id (id : NodeId)
  | node (node : Node Graph)
  | link (link : Link)
  | links (links : List Link)
  | count (n : Nat)
  | truth (b : Bool)
  | boundary (b : Boundary)
  | report (r : Script.LoadReport)

namespace Session

def start (d : Document) (capacity : Nat) : Session := ⟨d, .start d capacity⟩

def setDocument (s : Session) (document : Document) : Session := { s with document }

/-- Replaces the active graph. -/
def setActive (s : Session) (active : Graph) : Session :=
  s.setDocument (s.document.setActive active)

/-- A refused edit changes nothing. -/
def settle {ε α : Type} (s : Session) (refuse : ε → Refusal) (result : Except ε α)
    (accept : α → Session × Answer) : Session × Except Refusal Answer :=
  match result with
  | .ok a => ((accept a).1, .ok (accept a).2)
  | .error e => (s, .error (refuse e))

/-- A step in the history that there may be none for. -/
def travel (s : Session) (step : Except FileError (Option (Document × History))) :
    Session × Except Refusal Answer :=
  s.settle .file step fun
    | some (document, history) => (⟨document, history⟩, .truth true)
    | none => (s, .truth false)

def apply (catalog : Catalog) (s : Session) : Edit → Session × Except Refusal Answer
  | .add node => s.settle .edit (s.document.active.add node) fun g => (s.setActive g, .id node.id)
  | .remove id =>
    s.settle .edit (s.document.active.remove id) fun (node, g) => (s.setActive g, .node node)
  | .connect a b =>
    s.settle .link (s.document.active.connect a b) fun (link, g) => (s.setActive g, .link link)
  | .disconnect select =>
    let (links, g) := s.document.active.disconnect select
    (s.setActive g, .ok (.links links))
  | .move id position =>
    s.settle .edit (s.document.active.move id position) fun g => (s.setActive g, .truth true)
  | .setField id name value =>
    s.settle .edit (s.document.active.setField id name value) fun g => (s.setActive g, .truth true)
  | .prune =>
    (s.setActive s.document.active.prune, .ok (.count s.document.active.staleCount))
  | .openGroup id =>
    s.settle .edit (s.document.openGroup id) fun (b, d) => (s.setDocument d, .boundary b)
  | .closeGroup =>
    match s.document.closeGroup with
    | some d => (s.setDocument d, .ok (.truth true))
    | none => (s, .ok (.truth false))
  | .closeAll => (s.setDocument s.document.closeAll, .ok (.truth true))
  | .setPorts id inputs outputs =>
    s.settle .edit (s.document.setPorts id inputs outputs) fun (b, d) =>
      (s.setDocument d, .boundary b)
  | .reconcile =>
    let (b, d) := s.document.reconcile
    (s.setDocument d, .ok (.boundary b))
  | .save => ({ s with history := s.history.save s.document }, .ok (.truth true))
  | .undo => s.travel s.history.undo
  | .redo => s.travel s.history.redo
  | .clearHistory => ({ s with history := s.history.clear s.document }, .ok (.truth true))
  | .load text =>
    match Script.load catalog text s.document s.history with
    | (document, history, .ok report) => (⟨document, history⟩, .ok (.report report))
    | (document, history, .error e) => (⟨document, history⟩, .error (.ofLoad e))

/-- A session after edits, refused ones included. -/
def applyAll (catalog : Catalog) (s : Session) (edits : List Edit) : Session :=
  edits.foldl (fun s e => (s.apply catalog e).1) s

end Session
end FlowGraph
