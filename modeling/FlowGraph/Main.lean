import FlowGraph.Command.Basic

/-! The command line. -/
namespace FlowGraph

/-- The reason of a failed access in the words of the system. -/
def reason : IO.Error → String
  | .noFileOrDirectory _ _ _ => "No such file or directory (os error 2)"
  | .permissionDenied _ _ _ => "Permission denied (os error 13)"
  | .inappropriateType _ 20 _ => "Not a directory (os error 20)"
  | .inappropriateType _ 21 _ => "Is a directory (os error 21)"
  | e => toString e

def attempt {α : Type} (action : IO α) : IO (Except String α) := do
  try
    return .ok (← action)
  catch e => return .error (reason e)

instance : Disk IO where
  isThere name := do
    try
      let _ ← IO.FS.Handle.mk name .read
      return true
    catch
      | .noFileOrDirectory _ _ _ => return false
      | .inappropriateType _ _ _ => return false
      | _ => return true
  read name := do
    match ← attempt (IO.FS.Handle.mk name .read) with
    | .error reason => return .error (.unopened reason)
    | .ok file =>
      match ← attempt file.readToEnd with
      | .error reason => return .error (.unread reason)
      | .ok text => return .ok text
  write name text := attempt (IO.FS.writeFile name text)

def usage : String :=
  "usage: generate PROJECT [-o FILE] [--base-class NAME] | script PROJECT [-o FILE] | " ++
    "load PROJECT SCRIPT [-o FILE] | check SCRIPT\n"

end FlowGraph

def main (args : List String) : IO UInt32 := do
  let start ← IO.monoMsNow
  match FlowGraph.Command.parse? args with
  | none =>
    (← IO.getStderr).putStr FlowGraph.usage
    return 2
  | some command =>
    let outcome ← command.run
    (← IO.getStdout).putStr outcome.out
    (← IO.getStderr).putStr outcome.err
    if outcome.timed then
      let elapsed := (← IO.monoMsNow) - start
      (← IO.getStderr).putStr (" in " ++ Nat.repr elapsed ++ "ms\n")
    return UInt32.ofNat outcome.code
