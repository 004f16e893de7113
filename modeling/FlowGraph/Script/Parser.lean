import FlowGraph.Script.Lexer
import FlowGraph.Script.Statement
import FlowGraph.Text.Basic

/-! Scripts as statements. Every rule of the grammar takes at least one token, and a fault stands at
the first token that no rule can take. -/
namespace FlowGraph.Script

/-- The fault of finding another token than `what`. -/
def expected (what : String) : List Lexeme → Fault
  | [] => ⟨none, "expected " ++ what ++ ", found end of input"⟩
  | l :: _ => ⟨some l.start, "expected " ++ what ++ ", found " ++ l.token.describe⟩

/-- A rule of the grammar reads its value off the front of the tokens. -/
structure Rule (α : Type) where
  run : (ts : List Lexeme) → Except Fault (Parsed α ts)

namespace Rule

variable {α β : Type}

/-- One rule after the other. -/
def andThen (r : Rule α) (next : α → Rule β) : Rule β where
  run ts := do
    let p ← r.run ts
    let q ← (next p.value).run p.rest
    return p.after q

def map (f : α → β) (r : Rule α) : Rule β where
  run ts := (r.run ts).map (·.map f)

/-- Both rules, of which the second gives the value. -/
def before (r : Rule α) (next : Rule β) : Rule β := r.andThen fun _ => next

/-- Both rules, of which the first gives the value. -/
def ended (r : Rule α) (last : Rule β) : Rule α := r.andThen fun a => last.map fun _ => a

/-- One token, of which `f` makes the value. -/
def take (what : String) (f : Token → Option α) : Rule α where
  run
    | [] => .error (expected what [])
    | l :: ls =>
      match f l.token with
      | some a => .ok ⟨a, ls, Nat.lt_succ_self _⟩
      | none => .error (expected what (l :: ls))

/-- The token `t` itself. -/
def token (t : Token) (what : String) : Rule Unit :=
  take what fun u => if u = t then some () else none

/-- Reads `r` after the keyword `k`, if that stands at the front, and then goes on. -/
def optionally (k : Keyword) (r : Rule α) (next : Option α → Rule β) : Rule β where
  run
    | [] => (next none).run []
    | l :: ls =>
      if l.token = .keyword k then do
        let p ← (r.andThen fun a => next (some a)).run ls
        return p.widen (Nat.le_succ _)
      else (next none).run (l :: ls)

end Rule

open Rule

def semicolon : Rule Unit := token (.mark .semicolon) "';'"

def text (what : String) : Rule String := take what fun
  | .text s => some s
  | _ => none

def number (what : String) : Rule Number := take what fun
  | .number n => some n
  | _ => none

/-- A name is an identifier, or any text between quotes. -/
def name (what : String) : Rule String := take what fun
  | .text s => some s
  | .ident s => some s
  | _ => none

/-- The whole number below `limit` that a number stands for. Numbers of 2^64, the first that 64 bits
do not hold, are taken for the last that they do. -/
def indexOf (limit : Nat) (what : String) (n : Number) : Except String Nat :=
  if !n.isWhole || (n.negative && !n.isZero) || decide (UInt64.size < n.wholePart) then
    .error (what ++ " must be a non-negative integer")
  else
    let value := min n.wholePart (UInt64.size - 1)
    if value < limit then .ok value else .error (what ++ " is out of range")

def index (limit : Nat) (what : String) : Rule Nat where
  run ts := do
    let p ← (number what).run ts
    match indexOf limit what p.value with
    | .ok n => return p.map fun _ => n
    | .error message => throw ⟨ts.head?.map (·.start), message⟩

def nodeId (what : String) : Rule NodeId := (index UInt32.size what).map UInt32.ofNat

def endpoint : Rule Endpoint :=
  ((nodeId "node id").ended (token (.mark .colon) "':'")).andThen fun node =>
    (index UInt64.size "port index").map fun port => ⟨node, UInt64.ofNat port⟩

def pair : Rule (Number × Number) :=
  (((token (.mark .openParen) "'('").before (number "number")).ended
    (token (.mark .comma) "','")).andThen fun a =>
      ((number "number").ended (token (.mark .closeParen) "')'")).map fun b => (a, b)

/-- An optional position, then an optional size. -/
def placed {β : Type} (next : Placement → Rule β) : Rule β :=
  optionally .place pair fun at? =>
    optionally .size pair fun size? =>
      next ⟨at?.map fun (x, y) => ⟨x, y⟩, size?.map fun (w, h) => ⟨w, h⟩⟩

/-- Further items of a list between brackets, each after a comma, and the closing bracket. -/
def moreItems {α : Type} (item : Rule α) (ts : List Lexeme) : Except Fault (Parsed (List α) ts) :=
  match ts with
  | [] => .error (expected "',' or ']'" [])
  | l :: ls =>
    if l.token = .mark .closeBracket then .ok ⟨[], ls, Nat.lt_succ_self _⟩
    else do
      let p ← ((token (.mark .comma) "',' or ']'").andThen fun _ => item).run (l :: ls)
      let q ← moreItems item p.rest
      return (p.after q).map (p.value :: ·)
termination_by ts.length
decreasing_by exact p.shorter

/-- The items of a list after its opening bracket. -/
def items {α : Type} (item : Rule α) : Rule (List α) where
  run
    | [] => do
      let p ← item.run []
      return p.map fun a => [a]
    | l :: ls =>
      if l.token = .mark .closeBracket then .ok ⟨[], ls, Nat.lt_succ_self _⟩
      else do
        let p ← item.run (l :: ls)
        let q ← moreItems item p.rest
        return (p.after q).map (p.value :: ·)

def labels : Rule (List String) :=
  (token (.mark .openBracket) "'['").before (items (text "port label"))

/-- The value of a field. -/
def fieldValue : Rule Value where
  run
    | [] => .error (expected "a field value" [])
    | l :: ls =>
      match l.token with
      | .number n => .ok ⟨.number n, ls, Nat.lt_succ_self _⟩
      | .text s => .ok ⟨.text s, ls, Nat.lt_succ_self _⟩
      | .bool b => .ok ⟨.bool b, ls, Nat.lt_succ_self _⟩
      | .mark .openBracket => do
        let p ← ((items (number "number")).map Value.vector).run ls
        return p.widen (Nat.le_succ _)
      | _ => .error (expected "a field value" (l :: ls))

def field : Rule (String × Value) :=
  ((name "field name").ended (token (.mark .equals) "'='")).andThen fun name =>
    (fieldValue.ended semicolon).map fun value => (name, value)

/-- Fields up to a closing brace; a later field of a name replaces an earlier one. -/
def fieldsFrom (fields : Fields) (ts : List Lexeme) : Except Fault (Parsed Fields ts) :=
  match ts with
  | [] => .error (expected "field name" [])
  | l :: ls =>
    if l.token = .mark .closeBrace then .ok ⟨fields, ls, Nat.lt_succ_self _⟩
    else do
      let p ← field.run (l :: ls)
      let q ← fieldsFrom (fields.insert p.value.1 p.value.2) p.rest
      return p.after q
termination_by ts.length
decreasing_by exact p.shorter

/-- A semicolon, or fields between braces. -/
def fieldBlock : Rule Fields where
  run
    | [] => .error (expected "';' or '\x7b'" [])
    | l :: ls =>
      if l.token = .mark .semicolon then .ok ⟨.empty, ls, Nat.lt_succ_self _⟩
      else if l.token = .mark .openBrace then do
        let p ← fieldsFrom .empty ls
        return p.widen (Nat.le_succ _)
      else .error (expected "';' or '\x7b'" (l :: ls))

/-! ### What follows the first keyword of a statement -/

def nodeDecl : Rule NodeDecl :=
  (nodeId "node id").andThen fun id =>
    (text "node type").andThen fun type =>
      placed fun placement => fieldBlock.map fun fields => ⟨id, type, placement, fields⟩

/-- A group up to its opening brace. -/
def groupHead : Rule GroupDecl :=
  (nodeId "group id").andThen fun id =>
    (text "group name").andThen fun name =>
      placed fun placement =>
        ((token (.keyword .inputs) "'inputs'").before labels).andThen fun inputs =>
          (((token (.keyword .outputs) "'outputs'").before labels).ended
            (token (.mark .openBrace) "'\x7b'")).map fun outputs =>
              ⟨id, name, placement, inputs, outputs, .empty⟩

def textStatement (what : String) : Rule String := (text what).ended semicolon

def truth : Rule Bool := take "true or false" fun
  | .bool b => some b
  | _ => none

def flagStatement : Rule (String × Bool) :=
  ((name "flag name").ended (token (.mark .equals) "'='")).andThen fun name =>
    (truth.ended semicolon).map fun value => (name, value)

def connectStatement : Rule Link :=
  (endpoint.ended (token (.mark .arrow) "'->'")).andThen fun source =>
    (endpoint.ended semicolon).map fun target => ⟨source, target⟩

/-- The rule for a statement other than a group, by its first keyword. -/
def simpleStatement (line : Nat) : Token → Option (Rule Statement)
  | .keyword .title => some ((textStatement "module name").map (.title line))
  | .keyword .space => some ((textStatement "namespace").map (.space line))
  | .keyword .description => some ((textStatement "description").map (.description line))
  | .keyword .flag => some (flagStatement.map fun (name, value) => .flag line name value)
  | .keyword .node => some (nodeDecl.map (.node line))
  | .keyword .connect => some (connectStatement.map (.connect line))
  | _ => none

/-- Whether a token starts a field. -/
def startsField : Token → Bool
  | .ident _ | .text _ => true
  | _ => false

mutual

def statement (ts : List Lexeme) : Except Fault (Parsed Statement ts) :=
  match ts with
  | [] => .error (expected "a statement" [])
  | l :: ls =>
    if l.token = .keyword .group then do
      let head ← groupHead.run ls
      let body ← groupBody head.value [] head.rest
      return ⟨.group l.line body.value.1 body.value.2, body.rest,
        Nat.lt_succ_of_lt (Nat.lt_trans body.shorter head.shorter)⟩
    else
      match simpleStatement l.line l.token with
      | some rule => do
        let p ← rule.run ls
        return p.widen (Nat.le_succ _)
      | none => .error (expected "a statement" (l :: ls))
termination_by 2 * ts.length
decreasing_by have := head.shorter; simp only [List.length_cons]; omega

/-- Fields and statements up to the closing brace of a group; the statements read so far are given
in reverse. -/
def groupBody (decl : GroupDecl) (done : List Statement) (ts : List Lexeme) :
    Except Fault (Parsed (GroupDecl × List Statement) ts) :=
  match ts with
  | [] => .error (expected "'\x7d'" [])
  | l :: ls =>
    if l.token = .mark .closeBrace then .ok ⟨(decl, done.reverse), ls, Nat.lt_succ_self _⟩
    else if startsField l.token then do
      let p ← field.run (l :: ls)
      let q ← groupBody { decl with fields := decl.fields.insert p.value.1 p.value.2 } done p.rest
      return p.after q
    else do
      let p ← statement (l :: ls)
      let q ← groupBody decl (p.value :: done) p.rest
      return p.after q
termination_by 2 * ts.length + 1
decreasing_by
  · have := p.shorter; omega
  · omega
  · have := p.shorter; omega

end

/-- The statements of a whole script. -/
def statements (ts : List Lexeme) : Except Fault (List Statement) :=
  match ts with
  | [] => .ok []
  | l :: ls => do
    let p ← statement (l :: ls)
    let more ← statements p.rest
    return p.value :: more
termination_by ts.length
decreasing_by exact p.shorter

/-- A fault of a script as an error, with its line and column. -/
def Fault.error (source : String) (fault : Fault) : ScriptError :=
  let place := Text.position source.toList (fault.offset.getD source.utf8ByteSize)
  .malformed place.line place.column fault.message

/-- Reads the text of a script. -/
def parse (source : String) : Except ScriptError (List Statement) :=
  ((lexemes source).bind statements).mapError (Fault.error source)

end FlowGraph.Script
