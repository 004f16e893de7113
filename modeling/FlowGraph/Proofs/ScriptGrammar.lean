import FlowGraph.Script.Parser
import FlowGraph.Proofs.NameMap
import FlowGraph.Proofs.ScriptTokens

/-! The grammar of scripts, as tokens. Every statement has its tokens, and the parser reads them as
the statement. -/
namespace FlowGraph

/-- Whether numbers hold the ports of a link exactly. Scripts give ports as numbers, and these round
from `2 ^ 53` on; only a node with more ports than that has such a port. -/
def Link.IsExact (l : Link) : Prop := l.source.port.toNat < 2 ^ 53 ∧ l.target.port.toNat < 2 ^ 53

namespace Script

namespace Rule

variable {α β : Type}

/-- Lexemes with the tokens are read as the value, and what follows them is left. -/
def Accepts (r : Rule α) (ts : List Token) (a : α) : Prop :=
  ∀ ls rest, ls.map (·.token) = ts → ∃ short, r.run (ls ++ rest) = .ok ⟨a, rest, short⟩

theorem Accepts.andThen {r : Rule α} {next : α → Rule β} {ts us : List Token} {a : α} {b : β}
    (hr : r.Accepts ts a) (hnext : (next a).Accepts us b) :
    (r.andThen next).Accepts (ts ++ us) b := by
  intro ls rest hls
  obtain ⟨ls₁, ls₂, rfl, h₁, h₂⟩ := List.map_eq_append_iff.1 hls
  obtain ⟨short, hp⟩ := hr ls₁ (ls₂ ++ rest) h₁
  obtain ⟨short', hq⟩ := hnext ls₂ rest h₂
  rw [List.append_assoc]
  refine ⟨Nat.lt_trans short' short, ?_⟩
  simp only [Rule.andThen, hp, bind, Except.bind, hq]
  rfl

theorem Accepts.map {r : Rule α} {ts : List Token} {a : α} (hr : r.Accepts ts a) (f : α → β) :
    (r.map f).Accepts ts (f a) := by
  intro ls rest hls
  obtain ⟨short, hp⟩ := hr ls rest hls
  exact ⟨short, by simp [Rule.map, hp, Except.map, Parsed.map]⟩

theorem Accepts.before {r : Rule α} {next : Rule β} {ts us : List Token} {a : α} {b : β}
    (hr : r.Accepts ts a) (hnext : next.Accepts us b) : (r.before next).Accepts (ts ++ us) b :=
  hr.andThen hnext

theorem Accepts.ended {r : Rule α} {last : Rule β} {ts us : List Token} {a : α} {b : β}
    (hr : r.Accepts ts a) (hlast : last.Accepts us b) : (r.ended last).Accepts (ts ++ us) a :=
  hr.andThen (hlast.map fun _ => a)

/-- The rule at the first of its lexemes, where recursive rules look ahead. -/
theorem Accepts.exists_cons {r : Rule α} {t : Token} {ts : List Token} {a : α}
    (hr : r.Accepts (t :: ts) a) {ls : List Lexeme} (hls : ls.map (·.token) = t :: ts)
    (rest : List Lexeme) :
    ∃ l tail, ls = l :: tail ∧ l.token = t ∧
      ∃ short, r.run (l :: (tail ++ rest)) = .ok ⟨a, rest, short⟩ := by
  have hp := hr ls rest hls
  obtain ⟨l, tail, rfl, hl, -⟩ := List.map_eq_cons_iff.1 hls
  exact ⟨l, tail, rfl, hl, hp⟩

theorem accepts_take {what : String} {f : Token → Option α} {t : Token} {a : α} (h : f t = some a) :
    (take what f).Accepts [t] a := by
  intro ls rest hls
  obtain ⟨l, rfl, rfl⟩ := List.map_eq_singleton_iff.1 hls
  exact ⟨Nat.lt_succ_self _, by simp [take, h]⟩

theorem accepts_token (t : Token) (what : String) : (token t what).Accepts [t] () :=
  accepts_take (if_pos rfl)

theorem accepts_optionally_some {k : Keyword} {r : Rule α} {next : Option α → Rule β}
    {ts us : List Token} {a : α} {b : β} (hr : r.Accepts ts a)
    (hnext : (next (some a)).Accepts us b) :
    (optionally k r next).Accepts (.keyword k :: (ts ++ us)) b := by
  intro ls rest hls
  obtain ⟨l, ls, rfl, hl, htail⟩ := List.map_eq_cons_iff.1 hls
  have hboth : (r.andThen fun a => next (some a)).Accepts (ts ++ us) b := hr.andThen hnext
  obtain ⟨short, hp⟩ := hboth ls rest htail
  refine ⟨Nat.lt_succ_of_lt short, ?_⟩
  simp only [optionally, List.cons_append, hl, if_true, hp]
  rfl

theorem accepts_optionally_none {k : Keyword} {r : Rule α} {next : Option α → Rule β} {t : Token}
    {ts : List Token} {b : β} (hnext : (next none).Accepts (t :: ts) b) (ht : t ≠ .keyword k) :
    (optionally k r next).Accepts (t :: ts) b := by
  intro ls rest hls
  obtain ⟨short, hp⟩ := hnext ls rest hls
  obtain ⟨l, ls, rfl, hl, -⟩ := List.map_eq_cons_iff.1 hls
  refine ⟨short, ?_⟩
  rw [← hp]
  simp only [optionally, List.cons_append, hl, if_neg ht]

end Rule

open Rule

/-! ### Small rules -/

theorem accepts_text (what s : String) : (text what).Accepts [.text s] s := accepts_take rfl

theorem accepts_number (what : String) (n : Number) : (number what).Accepts [.number n] n :=
  accepts_take rfl

theorem accepts_name (what s : String) : (name what).Accepts [nameToken s] s := by
  cases h : isPlainName s <;> exact accepts_take (by simp [nameToken, h])

theorem indexOf_ofNat {n limit : Nat} (hlimit : n < limit) (hexact : n < 2 ^ 53) (what : String) :
    indexOf limit what (.ofNat n) = .ok n := by
  obtain ⟨hwhole, hpart, hnegative⟩ := Number.isWhole_ofNat hexact
  have hsize : n < UInt64.size := Nat.lt_trans hexact (by decide)
  have hmin : min n (UInt64.size - 1) = n := Nat.min_eq_left (by omega)
  have hgood : (!(Number.ofNat n).isWhole || (Number.ofNat n).negative &&
      !(Number.ofNat n).isZero || decide (UInt64.size < (Number.ofNat n).wholePart)) = false := by
    rw [hwhole, hpart, hnegative, decide_eq_false (Nat.lt_asymm hsize)]
    rfl
  rw [indexOf, hgood, if_neg Bool.false_ne_true]
  simp only [hpart, hmin, if_pos hlimit]

/-- The number for an index is read as the index. Up to `2 ^ 53` this holds of all indices, beyond
it of those that numbers hold exactly. -/
def IsIndex (n : Nat) : Prop := ∀ what, indexOf UInt64.size what (.ofNat n) = .ok n

theorem isIndex_of_lt {n : Nat} (h : n < 2 ^ 53) : IsIndex n :=
  indexOf_ofNat (Nat.lt_trans h (by decide)) h

theorem accepts_index {x : Number} {n limit : Nat} {what : String}
    (h : indexOf limit what x = .ok n) : (index limit what).Accepts [.number x] n := by
  intro ls rest hls
  obtain ⟨short, hp⟩ := accepts_number what x ls rest hls
  refine ⟨short, ?_⟩
  simp only [index, hp, bind, Except.bind, h]
  rfl

theorem accepts_nodeId (what : String) (id : NodeId) :
    (nodeId what).Accepts [.number (.ofNat id.toNat)] id := by
  have hid : id.toNat < UInt32.size := id.toNat_lt
  have hindex := indexOf_ofNat hid (Nat.lt_trans hid (by decide)) what
  have h := (accepts_index hindex).map UInt32.ofNat
  rwa [UInt32.ofNat_toNat] at h

/-! ### Links and places -/

def indexToken (n : Nat) : Token := .number (.ofNat n)

def endpointTokens (e : Endpoint) : List Token :=
  [indexToken e.node.toNat, .mark .colon, indexToken e.port.toNat]

theorem accepts_endpoint {e : Endpoint} (hport : IsIndex e.port.toNat) :
    endpoint.Accepts (endpointTokens e) e := by
  have hport :=
    (accepts_index (hport "port index")).map fun port => (⟨e.node, UInt64.ofNat port⟩ : Endpoint)
  rw [UInt64.ofNat_toNat] at hport
  exact ((accepts_nodeId "node id" e.node).ended (accepts_token _ _)).andThen hport

def linkTokens (l : Link) : List Token :=
  endpointTokens l.source ++ .mark .arrow :: (endpointTokens l.target ++ [.mark .semicolon])

structure ReadablePorts (l : Link) : Prop where
  source : IsIndex l.source.port.toNat
  target : IsIndex l.target.port.toNat

theorem readablePorts_of_isExact {l : Link} (h : l.IsExact) : ReadablePorts l :=
  ⟨isIndex_of_lt h.1, isIndex_of_lt h.2⟩

theorem accepts_connectStatement {l : Link} (hl : ReadablePorts l) :
    connectStatement.Accepts (linkTokens l) l := by
  have hsource := (accepts_endpoint hl.source).ended (accepts_token (.mark .arrow) "'->'")
  have htarget := ((accepts_endpoint hl.target).ended (accepts_token (.mark .semicolon) "';'")).map
    fun target => (⟨l.source, target⟩ : Link)
  have h : connectStatement.Accepts _ l := hsource.andThen htarget
  rwa [List.append_assoc] at h

def pairTokens (a b : Number) : List Token :=
  [.mark .openParen, .number a, .mark .comma, .number b, .mark .closeParen]

theorem accepts_pair (a b : Number) : pair.Accepts (pairTokens a b) (a, b) := by
  have hfirst := ((accepts_token (.mark .openParen) "'('").before (accepts_number "number" a)).ended
    (accepts_token (.mark .comma) "','")
  have hsecond := (accepts_number "number" b).ended (accepts_token (.mark .closeParen) "')'")
  exact hfirst.andThen (hsecond.map fun b => (a, b))

def positionTokens : Option Position → List Token
  | some p => .keyword .place :: pairTokens p.x p.y
  | none => []

def sizeTokens : Option Size → List Token
  | some s => .keyword .size :: pairTokens s.width s.height
  | none => []

def placementTokens (p : Placement) : List Token := positionTokens p.position ++ sizeTokens p.size

/-- A placement and what follows it, which starts with neither of its keywords. -/
theorem accepts_placed {β : Type} {next : Placement → Rule β} {p : Placement} {t : Token}
    {ts : List Token} {b : β} (hnext : (next p).Accepts (t :: ts) b) (hplace : t ≠ .keyword .place)
    (hsize : t ≠ .keyword .size) : (placed next).Accepts (placementTokens p ++ t :: ts) b := by
  obtain ⟨position, size⟩ := p
  have hrest : (optionally .size pair fun size? =>
      next ⟨position, size?.map fun s => ⟨s.1, s.2⟩⟩).Accepts (sizeTokens size ++ t :: ts) b := by
    cases size with
    | none => exact accepts_optionally_none hnext hsize
    | some s => exact accepts_optionally_some (accepts_pair s.width s.height) hnext
  cases position with
  | none =>
    cases size with
    | none => exact accepts_optionally_none hrest hplace
    | some s => exact accepts_optionally_none hrest (by decide)
  | some p =>
    rw [placementTokens, List.append_assoc]
    exact accepts_optionally_some (accepts_pair p.x p.y) hrest

/-! ### Lists -/

section Lists

variable {α : Type} {item : Rule α} {tokenOf : α → Token}

theorem moreItems_eq (hitem : ∀ a, item.Accepts [tokenOf a] a) (xs : List α) {ls : List Lexeme}
    (rest : List Lexeme) (hls : ls.map (·.token) =
      (xs.map tokenOf).flatMap (fun t => [.mark .comma, t]) ++ [.mark .closeBracket]) :
    ∃ short, moreItems item (ls ++ rest) = .ok ⟨xs, rest, short⟩ := by
  induction xs generalizing ls with
  | nil =>
    obtain ⟨l, rfl, hl⟩ := List.map_eq_singleton_iff.1 hls
    rw [List.singleton_append, moreItems]
    exact ⟨Nat.lt_succ_self _, by simp [hl]⟩
  | cons x xs ih =>
    have hsplit : ls.map (·.token) = [.mark .comma, tokenOf x] ++
        ((xs.map tokenOf).flatMap (fun t => [.mark .comma, t]) ++ [.mark .closeBracket]) := hls
    obtain ⟨ls₁, ls₂, rfl, h₁, h₂⟩ := List.map_eq_append_iff.1 hsplit
    obtain ⟨short', hmore⟩ := ih h₂
    have hfirst : ((token (.mark .comma) "',' or ']'").andThen fun _ => item).Accepts
        [.mark .comma, tokenOf x] x := (accepts_token _ _).andThen (hitem x)
    obtain ⟨l, ls, rfl, hl, short, hp⟩ := hfirst.exists_cons h₁ (ls₂ ++ rest)
    rw [List.append_assoc, List.cons_append, moreItems]
    refine ⟨Nat.lt_trans short' short, ?_⟩
    simp [hl, hp, hmore, bind, Except.bind, pure, Except.pure, Parsed.after,
      Parsed.widen, Parsed.map]

theorem accepts_items (hitem : ∀ a, item.Accepts [tokenOf a] a)
    (hclose : ∀ a, tokenOf a ≠ .mark .closeBracket) (xs : List α) :
    (items item).Accepts (itemTokens (xs.map tokenOf) ++ [.mark .closeBracket]) xs := by
  intro ls rest hls
  cases xs with
  | nil =>
    obtain ⟨l, rfl, hl⟩ := List.map_eq_singleton_iff.1 hls
    exact ⟨Nat.lt_succ_self _, by simp [items, hl]⟩
  | cons x xs =>
    have hsplit : ls.map (·.token) = [tokenOf x] ++
        ((xs.map tokenOf).flatMap (fun t => [.mark .comma, t]) ++ [.mark .closeBracket]) := hls
    obtain ⟨ls₁, ls₂, rfl, h₁, h₂⟩ := List.map_eq_append_iff.1 hsplit
    obtain ⟨short', hmore⟩ := moreItems_eq hitem xs rest h₂
    obtain ⟨l, ls, rfl, hl, short, hp⟩ := (hitem x).exists_cons h₁ (ls₂ ++ rest)
    have hne : l.token ≠ .mark .closeBracket := hl ▸ hclose x
    rw [List.append_assoc, List.cons_append]
    refine ⟨Nat.lt_trans short' short, ?_⟩
    simp [items, hne, hp, hmore, bind, Except.bind, pure, Except.pure, Parsed.after, Parsed.widen,
      Parsed.map]

end Lists

def labelsTokens (labels : List String) : List Token := listTokens (labels.map .text)

theorem accepts_labels (xs : List String) : labels.Accepts (labelsTokens xs) xs :=
  (accepts_token (.mark .openBracket) "'['").before
    (accepts_items (fun s => accepts_text "port label" s) (fun _ => by simp) xs)

/-! ### Fields -/

def valueTokens : Value → List Token
  | .number n => [.number n]
  | .bool b => [.bool b]
  | .text s => [.text s]
  | .vector ns => listTokens (ns.map .number)

theorem accepts_fieldValue (v : Value) : fieldValue.Accepts (valueTokens v) v := by
  intro ls rest hls
  cases v with
  | number | bool | text =>
    obtain ⟨l, rfl, hl⟩ := List.map_eq_singleton_iff.1 hls
    exact ⟨Nat.lt_succ_self _, by simp [fieldValue, hl]⟩
  | vector ns =>
    obtain ⟨l, ls, rfl, hl, htail⟩ := List.map_eq_cons_iff.1 hls
    have hitems :=
      (accepts_items (fun n => accepts_number "number" n) (fun _ => by simp) ns).map Value.vector
    obtain ⟨short, hp⟩ := hitems ls rest htail
    refine ⟨Nat.lt_succ_of_lt short, ?_⟩
    simp only [fieldValue, List.cons_append, hl, hp, bind, Except.bind]
    rfl

def fieldTokens (entry : String × Value) : List Token :=
  nameToken entry.1 :: .mark .equals :: (valueTokens entry.2 ++ [.mark .semicolon])

theorem accepts_field (entry : String × Value) : field.Accepts (fieldTokens entry) entry := by
  have hname := (accepts_name "field name" entry.1).ended (accepts_token (.mark .equals) "'='")
  have hvalue := ((accepts_fieldValue entry.2).ended (accepts_token (.mark .semicolon) "';'")).map
    fun value => (entry.1, value)
  exact hname.andThen hvalue

theorem startsField_nameToken (s : String) : startsField (nameToken s) = true := by
  cases h : isPlainName s <;> simp [nameToken, h, startsField]

theorem ne_closeBrace_of_startsField {t : Token} (h : startsField t = true) :
    t ≠ .mark .closeBrace := by
  rintro rfl
  cases h

theorem fieldsFrom_eq (entries : List (String × Value)) (fields : Fields) {ls : List Lexeme}
    (rest : List Lexeme)
    (hls : ls.map (·.token) = entries.flatMap fieldTokens ++ [.mark .closeBrace]) :
    ∃ short, fieldsFrom fields (ls ++ rest) = .ok ⟨fields.insertAll entries, rest, short⟩ := by
  induction entries generalizing fields ls with
  | nil =>
    obtain ⟨l, rfl, hl⟩ := List.map_eq_singleton_iff.1 hls
    rw [List.singleton_append, fieldsFrom]
    exact ⟨Nat.lt_succ_self _, by simp [hl, NameMap.insertAll]⟩
  | cons entry entries ih =>
    rw [List.flatMap_cons, List.append_assoc] at hls
    obtain ⟨ls₁, ls₂, rfl, h₁, h₂⟩ := List.map_eq_append_iff.1 hls
    obtain ⟨short', hmore⟩ := ih (fields.insert entry.1 entry.2) h₂
    obtain ⟨l, ls, rfl, hl, short, hp⟩ := (accepts_field entry).exists_cons h₁ (ls₂ ++ rest)
    have hne : l.token ≠ .mark .closeBrace :=
      ne_closeBrace_of_startsField (hl ▸ startsField_nameToken entry.1)
    rw [List.append_assoc, List.cons_append, fieldsFrom]
    refine ⟨Nat.lt_trans short' short, ?_⟩
    simp [hne, hp, hmore, bind, Except.bind, pure, Except.pure, Parsed.after, Parsed.widen,
      NameMap.insertAll]

def blockTokens (fields : Fields) : List Token :=
  if fields.entries.isEmpty then [.mark .semicolon]
  else .mark .openBrace :: (fields.entries.flatMap fieldTokens ++ [.mark .closeBrace])

theorem accepts_fieldBlock (fields : Fields) : fieldBlock.Accepts (blockTokens fields) fields := by
  intro ls rest hls
  unfold blockTokens at hls
  split at hls
  · next hempty =>
    obtain ⟨l, rfl, hl⟩ := List.map_eq_singleton_iff.1 hls
    have hfields : fields = .empty := by
      rw [← NameMap.ofList_entries fields, List.isEmpty_iff.1 hempty]
      rfl
    exact ⟨Nat.lt_succ_self _, by simp [fieldBlock, hl, hfields]⟩
  · obtain ⟨l, ls, rfl, hl, htail⟩ := List.map_eq_cons_iff.1 hls
    obtain ⟨short, hp⟩ := fieldsFrom_eq fields.entries .empty rest htail
    have hfields : NameMap.empty.insertAll fields.entries = fields := NameMap.ofList_entries fields
    rw [hfields] at hp
    refine ⟨Nat.lt_succ_of_lt short, ?_⟩
    simp [fieldBlock, hl, hp, bind, Except.bind, pure, Except.pure, Parsed.widen]

/-! ### Declarations -/

def NodeDecl.tokens (d : NodeDecl) : List Token :=
  indexToken d.id.toNat :: .text d.type :: (placementTokens d.placement ++ blockTokens d.fields)

theorem accepts_nodeDecl (d : NodeDecl) : nodeDecl.Accepts d.tokens d := by
  have hblock := (accepts_fieldBlock d.fields).map fun fields =>
    (⟨d.id, d.type, d.placement, fields⟩ : NodeDecl)
  have hplaced : ∃ t ts, blockTokens d.fields = t :: ts ∧ t ≠ .keyword .place ∧
      t ≠ .keyword .size := by
    unfold blockTokens
    split
    · exact ⟨_, _, rfl, by simp, by simp⟩
    · exact ⟨_, _, rfl, by simp, by simp⟩
  obtain ⟨t, ts, hts, hplace, hsize⟩ := hplaced
  rw [NodeDecl.tokens, hts]
  rw [hts] at hblock
  exact (accepts_nodeId "node id" d.id).andThen
    ((accepts_text "node type" d.type).andThen (accepts_placed hblock hplace hsize))

def GroupDecl.headTokens (d : GroupDecl) : List Token :=
  indexToken d.id.toNat :: .text d.name :: (placementTokens d.placement ++
    .keyword .inputs :: (labelsTokens d.inputs ++
      .keyword .outputs :: (labelsTokens d.outputs ++ [.mark .openBrace])))

theorem accepts_groupHead (d : GroupDecl) :
    groupHead.Accepts d.headTokens { d with fields := .empty } := by
  have hinputs := (accepts_token (.keyword .inputs) "'inputs'").before (accepts_labels d.inputs)
  have houtputs :=
    ((accepts_token (.keyword .outputs) "'outputs'").before (accepts_labels d.outputs)).ended
    (accepts_token (.mark .openBrace) "'\x7b'")
  refine (accepts_nodeId "group id" d.id).andThen
    ((accepts_text "group name" d.name).andThen (accepts_placed ?_ (by simp) (by simp)))
  exact hinputs.andThen (houtputs.map _)

theorem accepts_textStatement (what s : String) :
    (textStatement what).Accepts [.text s, .mark .semicolon] s :=
  (accepts_text what s).ended (accepts_token _ _)

theorem accepts_truth (b : Bool) : truth.Accepts [.bool b] b := accepts_take rfl

theorem accepts_flagStatement (name : String) (value : Bool) : flagStatement.Accepts
    [nameToken name, .mark .equals, .bool value, .mark .semicolon] (name, value) :=
  ((accepts_name "flag name" name).ended (accepts_token _ _)).andThen
    (((accepts_truth value).ended (accepts_token _ _)).map fun value => (name, value))

/-! ### Statements -/

def Statement.body : Statement → List Statement
  | .group _ _ body => body
  | _ => []

section Fold

variable {α : Type}

mutual

def Statement.fold (f : Statement → List α → α) : Statement → α
  | .group line decl body => f (.group line decl body) (Statement.foldAll f body)
  | s => f s []

def Statement.foldAll (f : Statement → List α → α) : List Statement → List α
  | [] => []
  | s :: rest => s.fold f :: Statement.foldAll f rest

end

theorem Statement.foldAll_eq (f : Statement → List α → α) (script : List Statement) :
    Statement.foldAll f script = script.map (Statement.fold f) := by
  induction script with
  | nil => rfl
  | cons s rest ih => rw [Statement.foldAll, ih, List.map_cons]

theorem Statement.fold_eq (f : Statement → List α → α) (s : Statement) :
    s.fold f = f s (s.body.map (Statement.fold f)) := by
  cases s <;> simp [Statement.fold, Statement.body, Statement.foldAll_eq]

end Fold

theorem Statement.sizeOf_lt_of_mem_body {s t : Statement} (ht : t ∈ s.body) :
    sizeOf t < sizeOf s := by
  cases s with
  | group line decl body =>
    have hlt : sizeOf t < sizeOf body := List.sizeOf_lt_of_mem ht
    simp only [Statement.group.sizeOf_spec]
    omega
  | title | space | description | flag | node | connect => cases ht

/-- Induction over the statements in groups. -/
theorem Statement.nestedInduction {P : Statement → Prop} (step : ∀ s, (∀ t ∈ s.body, P t) → P s)
    (s : Statement) : P s :=
  step s fun t _ => Statement.nestedInduction step t
termination_by sizeOf s
decreasing_by exact Statement.sizeOf_lt_of_mem_body ‹_›

def Statement.tokens : Statement → List Token := Statement.fold fun s inside =>
  match s with
  | .title _ name => [.keyword .title, .text name, .mark .semicolon]
  | .space _ name => [.keyword .space, .text name, .mark .semicolon]
  | .description _ text => [.keyword .description, .text text, .mark .semicolon]
  | .flag _ name value =>
    [.keyword .flag, nameToken name, .mark .equals, .bool value, .mark .semicolon]
  | .node _ decl => .keyword .node :: decl.tokens
  | .group _ decl _ => .keyword .group :: (decl.headTokens ++
      (decl.fields.entries.flatMap fieldTokens ++ (inside.flatten ++ [.mark .closeBrace])))
  | .connect _ link => .keyword .connect :: linkTokens link

/-- The statement without the lines that it and the statements in it stand on. -/
def Statement.bare : Statement → Statement := Statement.fold fun s inside =>
  match s with
  | .title _ name => .title 0 name
  | .space _ name => .space 0 name
  | .description _ text => .description 0 text
  | .flag _ name value => .flag 0 name value
  | .node _ decl => .node 0 decl
  | .group _ decl _ => .group 0 decl inside
  | .connect _ link => .connect 0 link

theorem Statement.tokens_group (line : Nat) (decl : GroupDecl) (body : List Statement) :
    (Statement.group line decl body).tokens = .keyword .group :: (decl.headTokens ++
      (decl.fields.entries.flatMap fieldTokens ++
        (body.flatMap Statement.tokens ++ [.mark .closeBrace]))) := by
  rw [Statement.tokens, Statement.fold_eq, List.flatMap_def]
  rfl

theorem Statement.bare_group (line : Nat) (decl : GroupDecl) (body : List Statement) :
    (Statement.group line decl body).bare = .group 0 decl (body.map Statement.bare) := by
  rw [Statement.bare, Statement.fold_eq]
  rfl

inductive Statement.IsReadable : Statement → Prop
  | intro {s : Statement} (here : ∀ line link, s = .connect line link → ReadablePorts link)
      (inside : ∀ t ∈ s.body, Statement.IsReadable t) : Statement.IsReadable s

theorem Statement.isReadable_of_plain {s : Statement} (hbody : s.body = [])
    (hne : ∀ line link, s ≠ .connect line link) : s.IsReadable :=
  .intro (fun line link h => absurd h (hne line link)) (by simp [hbody])

/-- Lexemes with the tokens of the statement are read as the statement, on whatever lines they
stand. -/
def Statement.IsRead (s : Statement) : Prop := ∀ ls rest, ls.map (·.token) = s.tokens →
  ∃ t short, statement (ls ++ rest) = .ok ⟨t, rest, short⟩ ∧ t.bare = s.bare

theorem simpleStatement_isRead {s : Statement} {first : Token} {ts : List Token}
    (htokens : s.tokens = first :: ts) {rule : Nat → Rule Statement} {parsed : Nat → Statement}
    (hrule : ∀ line, simpleStatement line first = some (rule line))
    (hgroup : first ≠ .keyword .group) (haccepts : ∀ line, (rule line).Accepts ts (parsed line))
    (hbare : ∀ line, (parsed line).bare = s.bare) : s.IsRead := by
  intro ls rest hls
  rw [htokens] at hls
  obtain ⟨l, ls, rfl, hl, htail⟩ := List.map_eq_cons_iff.1 hls
  obtain ⟨short, hp⟩ := haccepts l.line ls rest htail
  rw [List.cons_append, statement]
  refine ⟨parsed l.line, Nat.lt_succ_of_lt short, ?_, hbare _⟩
  simp [hl, hgroup, hrule, hp, bind, Except.bind, pure, Except.pure, Parsed.widen]

theorem Statement.exists_tokens_cons (s : Statement) : ∃ k ts, s.tokens = .keyword k :: ts := by
  rw [Statement.tokens, Statement.fold_eq]
  cases s <;> exact ⟨_, _, rfl⟩

theorem Statement.IsRead.exists_cons {s : Statement} (hs : s.IsRead) {ls : List Lexeme}
    (hls : ls.map (·.token) = s.tokens) (rest : List Lexeme) :
    ∃ l tail k, ls = l :: tail ∧ l.token = .keyword k ∧ ∃ t short,
      statement (l :: (tail ++ rest)) = .ok ⟨t, rest, short⟩ ∧ t.bare = s.bare := by
  have hp := hs ls rest hls
  obtain ⟨k, ts, htokens⟩ := s.exists_tokens_cons
  rw [htokens] at hls
  obtain ⟨l, tail, rfl, hl, -⟩ := List.map_eq_cons_iff.1 hls
  exact ⟨l, tail, k, rfl, hl, hp⟩

/-- What is left of a group's body once its fields are read. -/
theorem groupBody_statements {body : List Statement} (hbody : ∀ s ∈ body, s.IsRead)
    (decl : GroupDecl) (done : List Statement) {ls : List Lexeme} (rest : List Lexeme)
    (hls : ls.map (·.token) = body.flatMap Statement.tokens ++ [.mark .closeBrace]) :
    ∃ read short, groupBody decl done (ls ++ rest) =
      .ok ⟨(decl, done.reverse ++ read), rest, short⟩ ∧
      read.map Statement.bare = body.map Statement.bare := by
  induction body generalizing done ls with
  | nil =>
    obtain ⟨l, rfl, hl⟩ := List.map_eq_singleton_iff.1 hls
    rw [List.singleton_append, groupBody]
    exact ⟨[], Nat.lt_succ_self _, by simp [hl], rfl⟩
  | cons s body ih =>
    rw [List.flatMap_cons, List.append_assoc] at hls
    obtain ⟨ls₁, ls₂, rfl, h₁, h₂⟩ := List.map_eq_append_iff.1 hls
    obtain ⟨l, ls, k, rfl, hl, t, short, hp, hbare⟩ :=
      (hbody s List.mem_cons_self).exists_cons h₁ (ls₂ ++ rest)
    obtain ⟨read, short', hmore, hread⟩ := ih (fun t ht => hbody t (.tail _ ht)) (t :: done) h₂
    rw [List.append_assoc, List.cons_append, groupBody]
    refine ⟨t :: read, Nat.lt_trans short' short, ?_, by simp [hbare, hread]⟩
    simp [hl, startsField, hp, hmore, bind, Except.bind, pure, Except.pure, Parsed.after,
      Parsed.widen]

theorem groupBody_eq {body : List Statement} (hbody : ∀ s ∈ body, s.IsRead)
    (entries : List (String × Value)) (decl : GroupDecl) {ls : List Lexeme} (rest : List Lexeme)
    (hls : ls.map (·.token) =
      entries.flatMap fieldTokens ++ (body.flatMap Statement.tokens ++ [.mark .closeBrace])) :
    ∃ read short, groupBody decl [] (ls ++ rest) =
        .ok ⟨({ decl with fields := decl.fields.insertAll entries }, read), rest, short⟩ ∧
      read.map Statement.bare = body.map Statement.bare := by
  induction entries generalizing decl ls with
  | nil => exact groupBody_statements hbody decl [] rest hls
  | cons entry entries ih =>
    rw [List.flatMap_cons, List.append_assoc] at hls
    obtain ⟨ls₁, ls₂, rfl, h₁, h₂⟩ := List.map_eq_append_iff.1 hls
    obtain ⟨l, ls, rfl, hl, short, hp⟩ := (accepts_field entry).exists_cons h₁ (ls₂ ++ rest)
    have hstart : startsField l.token = true := hl ▸ startsField_nameToken entry.1
    have hne := ne_closeBrace_of_startsField hstart
    obtain ⟨read, short', hmore, hread⟩ :=
      ih { decl with fields := decl.fields.insert entry.1 entry.2 } h₂
    rw [List.append_assoc, List.cons_append, groupBody]
    refine ⟨read, Nat.lt_trans short' short, ?_, hread⟩
    simp [hne, hstart, hp, hmore, bind, Except.bind, pure, Except.pure, Parsed.after, Parsed.widen,
      NameMap.insertAll]

theorem Statement.isRead_group (line : Nat) (decl : GroupDecl) {body : List Statement}
    (hbody : ∀ s ∈ body, s.IsRead) : (Statement.group line decl body).IsRead := by
  intro ls rest hls
  rw [Statement.tokens_group] at hls
  obtain ⟨l, ls, rfl, hl, htail⟩ := List.map_eq_cons_iff.1 hls
  obtain ⟨ls₁, ls₂, rfl, h₁, h₂⟩ := List.map_eq_append_iff.1 htail
  obtain ⟨short, hhead⟩ := accepts_groupHead decl ls₁ (ls₂ ++ rest) h₁
  obtain ⟨read, short', hmore, hread⟩ :=
    groupBody_eq hbody decl.fields.entries { decl with fields := .empty } rest h₂
  have hfields : NameMap.empty.insertAll decl.fields.entries = decl.fields :=
    NameMap.ofList_entries decl.fields
  rw [hfields] at hmore
  rw [List.cons_append, List.append_assoc, statement]
  refine ⟨.group l.line decl read, Nat.lt_succ_of_lt (Nat.lt_trans short' short), ?_, ?_⟩
  · simp [hl, hhead, hmore, bind, Except.bind, pure, Except.pure]
  · rw [Statement.bare_group, Statement.bare_group, hread]

/-- The tokens of a statement are read as the statement. -/
theorem Statement.IsReadable.isRead {s : Statement} (h : s.IsReadable) : s.IsRead := by
  induction h with
  | @intro s here inside ih =>
    cases s with
    | title line name =>
      exact simpleStatement_isRead rfl (fun _ => rfl) (by simp)
        (fun line => (accepts_textStatement _ name).map (Statement.title line)) fun _ => rfl
    | space line name =>
      exact simpleStatement_isRead rfl (fun _ => rfl) (by simp)
        (fun line => (accepts_textStatement _ name).map (Statement.space line)) fun _ => rfl
    | description line text =>
      exact simpleStatement_isRead rfl (fun _ => rfl) (by simp)
        (fun line => (accepts_textStatement _ text).map (Statement.description line)) fun _ => rfl
    | flag line name value =>
      have hflag : ∀ line,
          (flagStatement.map fun entry => Statement.flag line entry.1 entry.2).Accepts
          [nameToken name, .mark .equals, .bool value, .mark .semicolon] (.flag line name value) :=
        fun line => (accepts_flagStatement name value).map _
      exact simpleStatement_isRead rfl (fun _ => rfl) (by simp) hflag fun _ => rfl
    | node line decl =>
      exact simpleStatement_isRead rfl (fun _ => rfl) (by simp)
        (fun line => (accepts_nodeDecl decl).map (Statement.node line)) fun _ => rfl
    | connect line link =>
      exact simpleStatement_isRead rfl (fun _ => rfl) (by simp)
        (fun line => (accepts_connectStatement (here _ link rfl)).map (Statement.connect line))
        fun _ => rfl
    | group line decl body => exact Statement.isRead_group line decl ih

/-- The tokens of a script are read as its statements. -/
theorem statements_eq {script : List Statement} (h : ∀ s ∈ script, s.IsReadable) {ls : List Lexeme}
    (hls : ls.map (·.token) = script.flatMap Statement.tokens) :
    ∃ read, statements ls = .ok read ∧ read.map Statement.bare = script.map Statement.bare := by
  induction script generalizing ls with
  | nil =>
    rw [List.map_eq_nil_iff.1 hls, statements]
    exact ⟨[], rfl, rfl⟩
  | cons s script ih =>
    obtain ⟨ls₁, ls₂, rfl, h₁, h₂⟩ := List.map_eq_append_iff.1 hls
    obtain ⟨l, ls, k, rfl, hl, t, short, hp, hbare⟩ :=
      (h s List.mem_cons_self).isRead.exists_cons h₁ ls₂
    obtain ⟨read, hmore, hread⟩ := ih (fun t ht => h t (.tail _ ht)) h₂
    rw [List.cons_append, statements]
    exact ⟨t :: read,
      by simp [hp, hmore, bind, Except.bind, pure, Except.pure], by simp [hbare, hread]⟩

end Script
end FlowGraph
