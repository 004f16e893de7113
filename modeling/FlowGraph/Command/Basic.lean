import FlowGraph.Document.ProjectJson
import FlowGraph.Script.Load
import FlowGraph.Script.Printer
import FlowGraph.Source.Module

/-! The commands of the command line, over any store of files. -/
namespace FlowGraph

/-- Why a file cannot be read: it cannot be opened, or what it holds cannot be read. -/
inductive ReadError where
  | unopened (reason : String)
  | unread (reason : String)
deriving DecidableEq

def ReadError.reason : ReadError → String
  | unopened reason | unread reason => reason

/-- Files by their paths. A failed access gives its reason. -/
class Disk (m : Type → Type) where
  isThere : String → m Bool
  read : String → m (Except ReadError String)
  write : String → String → m (Except String Unit)

inductive Command where
  | generate (project : String) (output : Option String) (baseClass : String)
  | script (project : String) (output : Option String)
  | load (project script : String) (output : Option String)
  | check (script : String)
deriving DecidableEq

namespace Command

/-! ### Arguments -/

inductive Setting where
  | output
  | baseClass
deriving DecidableEq

/-- Arguments by kind: what stands alone, and the values of options. -/
structure Arguments where
  plain : List String
  output : Option String
  baseClass : Option String

namespace Arguments

def empty : Arguments := ⟨[], none, none⟩

def addPlain (a : Arguments) (arg : String) : Arguments := { a with plain := arg :: a.plain }

/-- Gives an option its value; an option is given once. -/
def set (a : Arguments) (value : String) : Setting → Option Arguments
  | .output => if a.output.isSome then none else some { a with output := some value }
  | .baseClass => if a.baseClass.isSome then none else some { a with baseClass := some value }

end Arguments

/-- Whether an argument is read as an option. A dash alone is not. -/
def isOption (arg : String) : Bool :=
  match arg.toList with
  | '-' :: _ :: _ => true
  | _ => false

/-- The value that is written behind an option in one argument. -/
def attached? (option : String) (arg : String) : Option String :=
  let front := option.toList
  if front.isPrefixOf arg.toList then some (String.ofList (arg.toList.drop front.length)) else none

/-- The ways to write an option and its value in one argument. -/
def attachments : List (String × Setting) :=
  [("--output=", .output), ("--base-class=", .baseClass), ("-o=", .output), ("-o", .output)]

/-- The option that an argument sets, and the value if it is in the same argument. -/
def setting? (arg : String) : Option (Setting × Option String) :=
  if arg = "-o" || arg = "--output" then some (.output, none)
  else if arg = "--base-class" then some (.baseClass, none)
  else attachments.findSome? fun (option, setting) =>
    (attached? option arg).map fun value => (setting, some value)

/-- Sorts arguments. An option takes the argument after it as its value unless it brings one, and
after two dashes there are no more options. -/
def arguments? : List String → Option Arguments
  | [] => some .empty
  | "--" :: rest => some { Arguments.empty with plain := rest }
  | [arg] =>
    match setting? arg with
    | some (setting, some value) => Arguments.empty.set value setting
    | some (_, none) => none
    | none => if isOption arg then none else some (Arguments.empty.addPlain arg)
  | arg :: next :: rest =>
    match setting? arg with
    | some (setting, some value) => (arguments? (next :: rest)).bind (·.set value setting)
    | some (setting, none) =>
      if isOption next then none else (arguments? rest).bind (·.set next setting)
    | none => if isOption arg then none else (arguments? (next :: rest)).map (·.addPlain arg)

/-- The command that arguments ask for: its word comes first. -/
def parse? : List String → Option Command
  | [] => none
  | word :: rest => do
    let a ← arguments? rest
    match word, a.plain, a.baseClass with
    | "generate", [project], baseClass =>
      some (generate project a.output (baseClass.getD "Behavior"))
    | "script", [project], none => some (script project a.output)
    | "load", [project, text], none => some (load project text a.output)
    | "check", [text], none => if a.output.isNone then some (check text) else none
    | _, _, _ => none

/-! ### Running -/

/-- What a command leaves behind. The message of a timed one is completed by the time it took. -/
structure Outcome where
  code : Nat
  out : String
  err : String
  timed : Bool
deriving DecidableEq

def Outcome.done (out err : String) : Outcome := ⟨0, out, err, false⟩

/-- Failure ends a command with a message. -/
def Outcome.failed (message : String) : Outcome := ⟨1, "", "\nError: " ++ message ++ "\n", false⟩

section Run

variable {m : Type → Type} [Monad m] [Disk m]

def readProject (path : String) : m (Except FileError Document) := do
  match ← Disk.read path with
  | .ok text => return (ProjectFile.parse text).bind ProjectFile.toDocument
  | .error (.unopened reason) =>
    return .error (.io ("Could not open file '" ++ path ++ "': " ++ reason))
  | .error (.unread reason) =>
    return .error (.io ("Could not read file '" ++ path ++ "': " ++ reason))

def openProject (path : String) : ExceptT String m Document := do
  match ← ExceptT.lift (readProject path) with
  | .ok d => return d
  | .error e => throw ("Failed to load project '" ++ path ++ "': " ++ e.message)

def readScript (path : String) : ExceptT String m String := do
  match ← ExceptT.lift (Disk.read path) with
  | .ok text => return text
  | .error e => throw ("Failed to read script '" ++ path ++ "': " ++ e.reason)

/-- Writes to a file, or else to the output. -/
def deliver (output : Option String) (text : String) : ExceptT String m String := do
  match output with
  | none => return text ++ "\n"
  | some path =>
    match ← ExceptT.lift (Disk.write path text) with
    | .ok _ => return ""
    | .error reason => throw ("Could not write '" ++ path ++ "': " ++ reason)

def generateText (generated : Module) : String :=
  "Generated '" ++ generated.className ++ "': " ++ Nat.repr generated.sections.length ++
    " section(s), " ++ Nat.repr generated.routines.length ++ " routine(s), " ++
    Nat.repr generated.properties.length ++ " property registration(s)"

def moduleOf (options : Module.Options) (d : Document) : ExceptT String m Module :=
  match Module.ofDocument .standard options d with
  | .ok generated => return generated
  | .error e => throw ("Generation failed: " ++ e.message)

def runGenerate (project : String) (output : Option String) (baseClass : String) :
    ExceptT String m Outcome := do
  let d ← openProject project
  let generated ← moduleOf { Module.Options.standard with baseClass } d
  let out ← deliver output generated.source
  return ⟨0, out, generateText generated, true⟩

def runScript (project : String) (output : Option String) : ExceptT String m Outcome := do
  let d ← openProject project
  let out ← deliver output (Script.render d.metadata d.root)
  return .done out ""

/-- Loads a script into a document with a history of its own. -/
def loadInto (d : Document) (text : String) :
    Document × Except Script.LoadError Script.LoadReport :=
  let (d, _, result) := Script.load .standard text d (.start d History.standardCapacity)
  (d, result)

/-- A document without a name. -/
def newDocument : Document := .blank (.ofName "")

def runLoad (project script : String) (output : Option String) (d : Document) :
    ExceptT String m Outcome := do
  let text ← readScript script
  match loadInto d text with
  | (_, .error e) => throw ("Script rejected, project unchanged: " ++ e.message)
  | (d, .ok report) =>
    let path := output.getD project
    match ← ExceptT.lift (Disk.write path (ProjectFile.ofDocument d).render) with
    | .error reason =>
      throw ("Failed to save project: " ++
        (FileError.io ("Could not create file '" ++ path ++ "': " ++ reason)).message)
    | .ok _ =>
      return .done "" ("Loaded " ++ Nat.repr report.stats.nodes ++ " node(s), " ++
        Nat.repr report.stats.groups ++ " group(s), " ++ Nat.repr report.stats.links ++
        " connection(s) into '" ++ path ++ "' (replaced " ++ Nat.repr report.replaced ++
        " node(s))\n")

def runCheck (script : String) : ExceptT String m Outcome := do
  let text ← readScript script
  match loadInto newDocument text with
  | (_, .error e) => throw e.message
  | (d, .ok report) =>
    let generated ← moduleOf .standard d
    return .done ("Script OK: module '" ++ generated.className ++ "'\n" ++
      "  Nodes:       " ++ Nat.repr report.stats.nodes ++ "\n" ++
      "  Groups:      " ++ Nat.repr report.stats.groups ++ "\n" ++
      "  Connections: " ++ Nat.repr report.stats.links ++ "\n" ++
      "  Routines:    " ++ Nat.repr generated.routines.length ++ "\n" ++
      "  Properties:  " ++ Nat.repr generated.properties.length ++ "\n") ""

def finished (action : ExceptT String m Outcome) : m Outcome := do
  match ← action.run with
  | .ok outcome => return outcome
  | .error message => return .failed message

/-- Runs a command. Loading into a project that is not there starts a new one, and says so first. -/
def run : Command → m Outcome
  | generate project output baseClass => finished (runGenerate project output baseClass)
  | script project output => finished (runScript project output)
  | check text => finished (runCheck text)
  | load project text output => do
    if ← Disk.isThere project then
      finished do runLoad project text output (← openProject project)
    else
      let notice := "Project '" ++ project ++ "' not found. Starting a new project.\n"
      let outcome ← finished (runLoad project text output newDocument)
      return { outcome with err := notice ++ outcome.err }

end Run
end Command
end FlowGraph
