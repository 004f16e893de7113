import FlowGraph.Json.Reader
import FlowGraph.NameMap

/-! Reading typed values out of JSON values. -/
namespace FlowGraph.Json

/-- Reads a value of type `α`; the first argument says how many containers may still be opened. -/
abbrev Decoder (α : Type) := Nat → Json → Option α

namespace Decoder

variable {α : Type}

def text : Decoder String
  | _, .string s => s
  | _, _ => none

def bool : Decoder Bool
  | _, .bool b => some b
  | _, _ => none

/-- A whole number below `limit`, written without a fraction or an exponent. -/
def nat (limit : Nat) : Decoder Nat
  | _, .number l => l.nat? limit
  | _, _ => none

def uint32 : Decoder UInt32 := fun room j => (nat UInt32.size room j).map UInt32.ofNat

def uint64 : Decoder UInt64 := fun room j => (nat UInt64.size room j).map UInt64.ofNat

def number : Decoder Number
  | _, .number l => l.number?
  | _, _ => none

def list (item : Decoder α) : Decoder (List α)
  | room + 1, .array items => items.mapM (item room)
  | _, _ => none

/-- An object as a map. Of the members of one name the last counts. -/
def nameMap (item : Decoder α) : Decoder (NameMap α)
  | room + 1, .object members => do
    let entries ← members.mapM fun (name, value) => do
      let name ← name
      let value ← item room value
      return (name, value)
    return .ofList entries
  | _, _ => none

/-- Absent and null are the same. -/
def nullable (item : Decoder α) : Decoder (Option α)
  | _, .null => some none
  | room, j => (item room j).map some

/-- The members of an object by name. Each of `names` occurs at most once; other names do not
matter. -/
def members? (names : List String) (members : List (Option String × Json)) :
    Option (List (Option Json)) := do
  let entries ← members.mapM fun (name, value) => name.map fun name => (name, value)
  names.mapM fun name =>
    match entries.filter (·.1 == name) with
    | [] => some none
    | [entry] => some (some entry.2)
    | _ => none

/-- The values of a record, in the order of `names`: the members of an object, or the items of an
array, which may be missing at the end. -/
def fields? (names : List String) : Json → Option (List (Option Json))
  | .object members => members? names members
  | .array items =>
    if items.length ≤ names.length then
      some (items.map some ++ List.replicate (names.length - items.length) none)
    else none
  | _ => none

/-- A record; `build` gets the values and the containers left to open inside it. -/
def record (names : List String) (build : Nat → List (Option Json) → Option α) : Decoder α
  | room + 1, j => (fields? names j).bind (build room)
  | 0, _ => none

/-- A value that has to be there. -/
def required (item : Decoder α) (room : Nat) (value : Option Json) : Option α :=
  value.bind (item room)

/-- A value that `fallback` replaces when it is not there. -/
def optional (fallback : α) (item : Decoder α) (room : Nat) : Option Json → Option α
  | none => some fallback
  | some j => item room j

end Decoder
end FlowGraph.Json
