import Mathlib.Data.Finset.Card
import Mathlib.Logic.Relation
import FlowGraph.Proofs.CheckedGeneration

/-! Data graphs unfolded into trees. A connection from a pure node that is on the path from the root
already counts as no connection, so that the tree is finite whatever the links are. The expression
for an output is the text of its tree, and so is what a walk gives that puts ids into a set on its
way in and takes them out on its way back. Without cycles the tree is the plain unfolding, for which
no path is needed. -/
namespace FlowGraph

/-! ### Trees -/

structure Outlet where
  node : Node Graph
  label : String

def Graph.outlet? (g : Graph) (output : Endpoint) : Option Outlet :=
  (g.find? output.node).bind fun node => node.outputs[output.port.toNat]?.map
    fun label => ⟨node, label⟩

theorem Graph.mem_ids_of_outlet? {g : Graph} {output : Endpoint} {o : Outlet}
    (h : g.outlet? output = some o) : output.node ∈ g.ids := by
  obtain ⟨node, hfind, -⟩ := Option.bind_eq_some_iff.1 h
  obtain ⟨hmem, hid⟩ := find?_mem hfind
  exact hid ▸ List.mem_map_of_mem hmem

/-- The text for the value at an output of a pure node, where `base` is the text for the node. -/
def Outlet.reach (o : Outlet) (template : Template) (base : String) : String :=
  if 1 < o.node.dataOutputs then (template.access o.node base o.label).getD (memberOf base o.label)
  else base

/-- A data graph as it is seen from one of its outputs, or from an input that nothing is connected
to. -/
inductive DataTree where
  | unconnected
  /-- The value of a flow node. -/
  | result (o : Outlet)
  | pure (o : Outlet) (inputs : List DataTree)

namespace DataTree

section Fold

variable {α : Type} (unconnected : α) (result : Outlet → α) (pure : Outlet → List α → α)

mutual

def fold : DataTree → α
  | .unconnected => unconnected
  | .result o => result o
  | .pure o inputs => pure o (foldAll inputs)

def foldAll : List DataTree → List α
  | [] => []
  | t :: ts => fold t :: foldAll ts

end

theorem fold_pure (o : Outlet) (inputs : List DataTree) :
    fold unconnected result pure (.pure o inputs) =
      pure o (inputs.map (fold unconnected result pure)) := by
  have hall : ∀ ts, foldAll unconnected result pure ts = ts.map (fold unconnected result pure) :=
    fun ts => by
    induction ts with
    | nil => simp [foldAll]
    | cons t ts ih => simp [foldAll, ih]
  rw [fold, hall]

end Fold

def text (s : Scope) : DataTree → Option String :=
  fold none (fun o => (s.catalog.find? o.node.type).bind fun template => Checked.access s template
    o.node o.label)
    fun o texts => (s.catalog.find? o.node.type).map fun template =>
      o.reach template (template.emit o.node ⟨texts, [], s.varName o.node.id⟩)

@[simp] theorem text_unconnected (s : Scope) : unconnected.text s = none := rfl

theorem text_result {s : Scope} {o : Outlet} {template : Template}
    (h : s.catalog.find? o.node.type = some template) :
    (result o).text s = Checked.access s template o.node o.label := by
  simp [text, fold, h]

theorem text_pure {s : Scope} {o : Outlet} {template : Template}
    (h : s.catalog.find? o.node.type = some template) (inputs : List DataTree) :
    (pure o inputs).text s =
      some (o.reach template
        (template.emit o.node ⟨inputs.map (text s), [], s.varName o.node.id⟩)) := by
  rw [text, fold_pure, h]
  rfl

end DataTree

namespace Scope

def isPure (s : Scope) (node : Node Graph) : Bool := (s.catalog.find? node.type).any Template.isPure

theorem isPure_eq {s : Scope} {node : Node Graph} {template : Template}
    (h : s.catalog.find? node.type = some template) : s.isPure node = template.isPure := by
  simp [isPure, h]

def trees (s : Scope) (node : Node Graph) (below : Endpoint → DataTree) : List DataTree :=
  node.inputs.zipIdx.map fun e =>
    if Label.isFlow e.1 then .unconnected
    else ((s.graph.incoming? node.id e.2).map fun link => below link.source).getD .unconnected

def layer (s : Scope) (below : Endpoint → DataTree) (output : Endpoint) : DataTree :=
  ((s.graph.outlet? output).map fun o =>
    if s.isPure o.node then DataTree.pure o (s.trees o.node below) else .result o).getD .unconnected

def outside (s : Scope) (path : Finset NodeId) : Finset NodeId := s.graph.ids.toFinset \ path

theorem card_outside_insert_lt {s : Scope} {path : Finset NodeId} {id : NodeId}
    (hid : id ∈ s.graph.ids) (hpath : id ∉ path) :
    (s.outside (insert id path)).card < (s.outside path).card := by
  refine Finset.card_lt_card (Finset.ssubset_iff_of_subset ?_ |>.2 ⟨id, ?_, ?_⟩)
  · exact Finset.sdiff_subset_sdiff (Finset.Subset.refl _) (Finset.subset_insert _ _)
  · simp [outside, hid, hpath]
  · simp [outside]

/-- The data graph seen from an output, where the pure nodes on the way from the root are in
`path`. -/
def unfold (s : Scope) (path : Finset NodeId) (output : Endpoint) : DataTree :=
  match _h : s.graph.outlet? output with
  | none => .unconnected
  | some o =>
    if s.isPure o.node then
      if _hpath : output.node ∈ path then .unconnected
      else .pure o (s.trees o.node fun source => s.unfold (insert output.node path) source)
    else .result o
termination_by (s.outside path).card
decreasing_by exact card_outside_insert_lt (Graph.mem_ids_of_outlet? _h) _hpath

/-! ### Resolution with a set -/

/-- A value, and the set of ids that a call leaves when it has been given another one. -/
structure Resolved (α : Type) (given : Finset NodeId) where
  value : α
  resolving : Finset NodeId
  subset : given ⊆ resolving

def Resolved.keep {α : Type} (given : Finset NodeId) (value : α) : Resolved α given :=
  ⟨value, given, Finset.Subset.refl _⟩

theorem Resolved.subset_erase {α : Type} {given : Finset NodeId} {id : NodeId} (h : id ∉ given)
    (r : Resolved α (insert id given)) : given ⊆ r.resolving.erase id := fun _ hother =>
  Finset.mem_erase.2 ⟨fun heq => h (heq ▸ hother), r.subset (Finset.mem_insert_of_mem hother)⟩

mutual

/-- The expression for an output, with the pure nodes that are being resolved in a set: an id is put
in before the inputs of its node are resolved, and taken out behind them. -/
def resolve (s : Scope) (resolving : Finset NodeId) (output : Endpoint) :
    Except UnknownType (Resolved (Option String) resolving) :=
  match _h : s.graph.outlet? output with
  | none => .ok (.keep resolving none)
  | some o => do
    let template ← s.catalog.require o.node
    if template.isPure then
      if hnew : output.node ∈ resolving then return .keep resolving none
      else
        let inputs ← s.resolveInputs o.node (insert output.node resolving) o.node.inputs.zipIdx
        let base := template.emit o.node ⟨inputs.value, [], s.varName o.node.id⟩
        return ⟨some (o.reach template base), inputs.resolving.erase output.node,
          inputs.subset_erase hnew⟩
    else return .keep resolving (Checked.access s template o.node o.label)
termination_by ((s.outside resolving).card, 0)
decreasing_by exact Prod.Lex.left _ _ (card_outside_insert_lt (Graph.mem_ids_of_outlet? _h) hnew)

/-- The expressions for inputs of a node, one after the other: each gets the set that the one before
it leaves. -/
def resolveInputs (s : Scope) (node : Node Graph) (resolving : Finset NodeId) :
    List (String × Nat) → Except UnknownType (Resolved (List (Option String)) resolving)
  | [] => .ok (.keep resolving [])
  | e :: es => do
    let first : Resolved (Option String) resolving ←
        (if Label.isFlow e.1 then .ok (.keep resolving none)
      else ((s.graph.incoming? node.id e.2).map fun link => s.resolve resolving link.source).getD
        (.ok (.keep resolving none)))
    let more ← s.resolveInputs node first.resolving es
    return ⟨first.value :: more.value, more.resolving, Finset.Subset.trans first.subset more.subset⟩
termination_by es => ((s.outside resolving).card, es.length + 1)
decreasing_by
  · exact Prod.Lex.right _ (Nat.succ_pos _)
  · rcases Nat.lt_or_eq_of_le
      (Finset.card_le_card (Finset.sdiff_subset_sdiff (Finset.Subset.refl _) first.subset)) with
      hlt | heq
    · exact Prod.Lex.left _ _ hlt
    · rw [outside, heq]
      exact Prod.Lex.right _ (Nat.lt_succ_self _)

end

section Outlet

variable {s : Scope} {output : Endpoint} {o : Outlet} {template : Template}

theorem outlet?_eq_some_iff {g : Graph} :
    g.outlet? output = some o ↔ g.find? output.node = some o.node ∧
      o.node.outputs[output.port.toNat]? = some o.label := by
  cases o with
  | mk node label =>
    simp only [Graph.outlet?, Option.bind_eq_some_iff, Option.map_eq_some_iff, Outlet.mk.injEq]
    constructor
    · rintro ⟨n, hfind, l, hlabel, rfl, rfl⟩
      exact ⟨hfind, hlabel⟩
    · rintro ⟨hfind, hlabel⟩
      exact ⟨node, hfind, label, hlabel, rfl, rfl⟩

theorem unfold_of_none (h : s.graph.outlet? output = none) (path : Finset NodeId) :
    s.unfold path output = .unconnected := by
  rw [unfold]
  split
  · rfl
  · simp_all

theorem unfold_of_some (h : s.graph.outlet? output = some o) (path : Finset NodeId) :
    s.unfold path output =
      if s.isPure o.node then
        if output.node ∈ path then .unconnected
        else .pure o (s.trees o.node (s.unfold (insert output.node path)))
      else .result o := by
  rw [unfold]
  split
  · simp_all
  · simp_all

theorem resolve_of_none (h : s.graph.outlet? output = none) (resolving : Finset NodeId) :
    s.resolve resolving output = .ok (.keep resolving none) := by
  rw [resolve]
  split
  · rfl
  · simp_all

theorem resolve_of_unknown (h : s.graph.outlet? output = some o) {e : UnknownType}
    (htemplate : s.catalog.require o.node = .error e) (resolving : Finset NodeId) :
    s.resolve resolving output = .error e := by
  rw [resolve]
  split <;> simp_all [bind, Except.bind]

theorem resolve_of_flow (h : s.graph.outlet? output = some o)
    (htemplate : s.catalog.require o.node = .ok template) (hpure : template.isPure = false)
    (resolving : Finset NodeId) :
    s.resolve resolving output =
      .ok (.keep resolving (Checked.access s template o.node o.label)) := by
  rw [resolve]
  split <;> simp_all [bind, Except.bind, Pure.pure, Except.pure]

theorem resolve_of_mem (h : s.graph.outlet? output = some o)
    (htemplate : s.catalog.require o.node = .ok template) (hpure : template.isPure = true)
    {resolving : Finset NodeId} (hmem : output.node ∈ resolving) :
    s.resolve resolving output = .ok (.keep resolving none) := by
  rw [resolve]
  split <;> simp_all [bind, Except.bind, Pure.pure, Except.pure]

/-- An id that is taken out behind inputs that keep the set leaves it as it was. -/
theorem resolve_of_pure (h : s.graph.outlet? output = some o)
    (htemplate : s.catalog.require o.node = .ok template) (hpure : template.isPure = true)
    {resolving : Finset NodeId} (hnew : output.node ∉ resolving)
    {inputs : Except UnknownType (List (Option String))}
    (hinputs : s.resolveInputs o.node (insert output.node resolving) o.node.inputs.zipIdx =
      inputs.map (.keep (insert output.node resolving))) :
    s.resolve resolving output = inputs.map fun values =>
      .keep resolving
        (some (o.reach template (template.emit o.node ⟨values, [], s.varName o.node.id⟩))) := by
  rw [resolve]
  split
  · simp_all
  · next o' ho' =>
    obtain rfl := Option.some.inj (h.symm.trans ho')
    cases inputs <;>
      simp [htemplate, hpure, hnew, hinputs, bind, Except.bind, Except.map, Pure.pure, Except.pure,
        Resolved.keep]

end Outlet

/-! ### The set is kept -/

section Inputs

variable {s : Scope} {node : Node Graph} {resolving : Finset NodeId}
  {value : Endpoint → Except UnknownType (Option String)}

/-- Where every output keeps the set, the inputs of a node do, and none of them depends on the
others. -/
theorem resolveInputs_eq
    (h : ∀ output, s.resolve resolving output = (value output).map (.keep resolving)) :
    s.resolveInputs node resolving node.inputs.zipIdx = (Checked.inputs s node value).map
      (.keep resolving) := by
  rw [Checked.inputs]
  induction node.inputs.zipIdx with
  | nil =>
    rw [resolveInputs]
    rfl
  | cons e es ih =>
    have hfirst : (if Label.isFlow e.1 then .ok (.keep resolving none)
        else ((s.graph.incoming? node.id e.2).map fun link => s.resolve resolving link.source).getD
          (.ok (.keep resolving none))) =
        (if Label.isFlow e.1 then .ok none
          else ((s.graph.incoming? node.id e.2).map fun link => value link.source).getD
            (.ok none)).map
            (Resolved.keep resolving) := by
      by_cases hflow : Label.isFlow e.1
      · simp [hflow, Except.map]
      · cases hlink : s.graph.incoming? node.id e.2 <;> simp [hflow, h, Except.map]
    rw [resolveInputs, hfirst, List.mapM_cons]
    generalize (if Label.isFlow e.1 then .ok none else
      ((s.graph.incoming? node.id e.2).map fun link => value link.source).getD (.ok none)) = first
    cases first with
    | error e => rfl
    | ok v =>
      simp only [Except.map, bind, Except.bind, Resolved.keep] at ih ⊢
      rw [ih]
      generalize List.mapM (m := Except UnknownType) _ es = more
      cases more <;> rfl

end Inputs

/-- How an expression that asks for templates comes about, by what its output is. -/
theorem checkedExpression_of_some {s : Scope} {output : Endpoint} {o : Outlet}
    (h : s.graph.outlet? output = some o) (left : List NodeId) :
    Checked.expression s left output = (s.catalog.require o.node).bind fun template =>
      if template.isPure then
        if output.node ∈ left then
          (Checked.inputs s o.node (Checked.expression s (left.erase output.node))).map
            fun values =>
              some (o.reach template (template.emit o.node ⟨values, [], s.varName o.node.id⟩))
        else .ok none
      else .ok (Checked.access s template o.node o.label) := by
  obtain ⟨hfind, hlabel⟩ := outlet?_eq_some_iff.1 h
  rw [Checked.expression]
  simp only [hfind, hlabel, bind]
  congr 1
  funext template
  by_cases hpure : template.isPure
  · by_cases hleft : output.node ∈ left
    · simp only [hpure, hleft, if_true, dite_true]
      generalize Checked.inputs s o.node (Checked.expression s (left.erase output.node)) = inputs
      by_cases hmany : 1 < o.node.dataOutputs <;> cases inputs <;>
        simp [Outlet.reach, hmany] <;> rfl
    · simp only [hpure, hleft, if_true, dite_false]
      rfl
  · simp only [hpure]
    rfl

theorem checkedExpression_of_none {s : Scope} {output : Endpoint}
    (h : s.graph.outlet? output = none) (left : List NodeId) :
    Checked.expression s left output = .ok none := by
  rw [Checked.expression]
  rw [Graph.outlet?] at h
  cases hfind : s.graph.find? output.node with
  | none => rfl
  | some node => cases hlabel : node.outputs[output.port.toNat]? <;> simp_all

/-- A walk that threads a set gives what one gives that passes on the ids outside the set, and
leaves the set as it was; where one fails, so does the other. -/
theorem resolve_eq_checkedExpression {s : Scope} {resolving : Finset NodeId} {left : List NodeId}
    (hnodup : left.Nodup) (hleft : ∀ id, id ∈ left ↔ id ∈ s.graph.ids ∧ id ∉ resolving)
    (output : Endpoint) :
    s.resolve resolving output = (Checked.expression s left output).map (.keep resolving) := by
  induction hcard : (s.outside resolving).card using Nat.strongRecOn generalizing resolving
    left output with
  | ind _ ih =>
    cases houtlet : s.graph.outlet? output with
    | none =>
      rw [resolve_of_none houtlet, checkedExpression_of_none houtlet]
      rfl
    | some o =>
      have hid := Graph.mem_ids_of_outlet? houtlet
      rw [checkedExpression_of_some houtlet]
      cases hrequire : s.catalog.require o.node with
      | error e =>
        rw [resolve_of_unknown houtlet hrequire]
        rfl
      | ok template =>
        simp only [Except.bind]
        cases hpure : template.isPure with
        | false =>
          rw [resolve_of_flow houtlet hrequire hpure]
          rfl
        | true =>
          by_cases hmem : output.node ∈ resolving
          · have hnot : output.node ∉ left := fun h => ((hleft _).1 h).2 hmem
            rw [resolve_of_mem houtlet hrequire hpure hmem]
            simp [hnot, Except.map]
          · have hmem' : output.node ∈ left := (hleft _).2 ⟨hid, hmem⟩
            have hinside :=
              ih _ (hcard ▸ card_outside_insert_lt hid hmem) (hnodup.erase output.node)
              (fun id => by rw [hnodup.mem_erase_iff, hleft, Finset.mem_insert]; tauto)
            rw [resolve_of_pure houtlet hrequire hpure hmem
              (resolveInputs_eq fun source => hinside source rfl)]
            simp only [if_true, hmem']
            generalize Checked.inputs s o.node
              (Checked.expression s (left.erase output.node)) = inputs
            cases inputs <;> rfl

theorem resolving_eq_of_resolve {s : Scope} {resolving : Finset NodeId} {output : Endpoint}
    {r : Resolved (Option String) resolving} (h : s.resolve resolving output = .ok r) :
    r.resolving = resolving := by
  rw [resolve_eq_checkedExpression (s.graph.ids.nodup_dedup.filter (· ∉ resolving)) (by simp)] at h
  cases hvalue : Checked.expression s (s.graph.ids.dedup.filter (· ∉ resolving)) output with
  | error e =>
    rw [hvalue] at h
    cases h
  | ok value =>
    rw [hvalue] at h
    cases h
    rfl

/-! ### Texts of trees -/

theorem map_text_trees (s : Scope) (node : Node Graph) (below : Endpoint → DataTree) :
    (s.trees node below).map (DataTree.text s) = s.inputs node
    fun source => (below source).text s := by
  simp only [trees, inputs, List.map_map]
  congr 1
  funext e
  by_cases hflow : Label.isFlow e.1
  · simp [hflow]
  · cases hlink : s.graph.incoming? node.id e.2 <;> simp [hflow, hlink]

theorem resolve_eq_text {s : Scope} (hs : s.catalog.Covers s.graph) (resolving : Finset NodeId)
    (output : Endpoint) :
    s.resolve resolving output = .ok (.keep resolving ((s.unfold resolving output).text s)) := by
  induction hcard : (s.outside resolving).card using Nat.strongRecOn
    generalizing resolving output with
  | ind _ ih =>
    cases houtlet : s.graph.outlet? output with
    | none => rw [resolve_of_none houtlet, unfold_of_none houtlet, DataTree.text_unconnected]
    | some o =>
      obtain ⟨template, htemplate⟩ :=
        hs o.node (Graph.find?_mem (outlet?_eq_some_iff.1 houtlet).1).1
      have hrequire := Catalog.require_eq_ok htemplate
      rw [unfold_of_some houtlet, isPure_eq htemplate]
      cases hpure : template.isPure with
      | false =>
        rw [resolve_of_flow houtlet hrequire hpure]
        simp [DataTree.text_result htemplate]
      | true =>
        by_cases hmem : output.node ∈ resolving
        · rw [resolve_of_mem houtlet hrequire hpure hmem]
          simp [hmem]
        · have hid := Graph.mem_ids_of_outlet? houtlet
          have hinside := fun source => ih _ (hcard ▸ card_outside_insert_lt hid hmem)
            (insert output.node resolving)
            source rfl
          have hinputs := @resolveInputs_eq s o.node _ (fun source => .ok _) hinside
          rw [Checked.inputs_eq s o.node fun _ => rfl] at hinputs
          rw [resolve_of_pure houtlet hrequire hpure hmem hinputs]
          simp [hmem, DataTree.text_pure htemplate, map_text_trees, Except.map]

theorem expression_eq_text {s : Scope} (hs : s.catalog.Covers s.graph) (hids : s.graph.ids.Nodup)
    (output : Endpoint) : s.expression s.graph.ids output = (s.unfold ∅ output).text s := by
  have hresolve := resolve_eq_text hs ∅ output
  rw [resolve_eq_checkedExpression hids (by simp), Checked.expression_eq hs] at hresolve
  exact congrArg Resolved.value (Except.ok.inj hresolve)

/-! ### Without cycles -/

def Feeds (s : Scope) (a b : NodeId) : Prop :=
  ∃ node label index link, s.graph.find? b = some node ∧ s.isPure node = true ∧
    (label, index) ∈ node.inputs.zipIdx ∧
    Label.isFlow label = false ∧ s.graph.incoming? b index = some link ∧ link.source.node = a ∧
    (s.graph.outlet? link.source).isSome

/-- No node of a set is connected to an output, through whichever pure nodes. -/
def Clear (s : Scope) (path : Finset NodeId) (output : Endpoint) : Prop :=
  ∀ id ∈ path, (s.graph.outlet? output).isSome → ¬Relation.ReflTransGen s.Feeds id output.node

theorem Clear.unfold_eq {s : Scope} {path : Finset NodeId} {output : Endpoint}
    (h : s.Clear path output) :
    s.unfold path output = s.layer (s.unfold (insert output.node path)) output := by
  cases houtlet : s.graph.outlet? output with
  | none => simp [unfold_of_none houtlet, layer, houtlet]
  | some o =>
    have hpath : output.node ∉ path := fun hmem => h _ hmem (by simp [houtlet]) .refl
    simp [unfold_of_some houtlet, layer, houtlet, hpath]

/-- A step of the plain unfolding asks for trees of outputs that are connected to the node. -/
theorem layer_congr {s : Scope} {below below' : Endpoint → DataTree} {output : Endpoint}
    (h : ∀ source, ((s.graph.outlet? source).isSome → s.Feeds source.node output.node) →
      below source = below' source) :
    s.layer below output = s.layer below' output := by
  cases houtlet : s.graph.outlet? output with
  | none => simp [layer, houtlet]
  | some o =>
    cases hpure : s.isPure o.node with
    | false => simp [layer, houtlet, hpure]
    | true =>
      obtain ⟨hfind, -⟩ := outlet?_eq_some_iff.1 houtlet
      have htrees : s.trees o.node below = s.trees o.node below' := by
        refine List.map_congr_left fun e he => ?_
        by_cases hflow : Label.isFlow e.1
        · simp [hflow]
        · cases hlink : s.graph.incoming? o.node.id e.2 with
          | none => simp
          | some link =>
            rw [(Graph.find?_mem hfind).2] at hlink
            simp [hflow, h link.source fun hsome =>
              ⟨o.node, e.1, e.2, link, hfind, hpure, he, by simpa using hflow, hlink, rfl, hsome⟩]
      simp [layer, houtlet, hpure, htrees]

section Acyclic

variable {s : Scope} (hacyclic : ∀ id, ¬Relation.TransGen s.Feeds id id)
include hacyclic

theorem Clear.insert {path : Finset NodeId} {output source : Endpoint} (h : s.Clear path output)
    (houtput : (s.graph.outlet? output).isSome)
    (hfeeds : (s.graph.outlet? source).isSome → s.Feeds source.node output.node) :
    s.Clear (insert output.node path) source := by
  intro id hid hsource hreach
  rcases Finset.mem_insert.1 hid with rfl | hid
  · exact hacyclic _ (Relation.TransGen.tail' hreach (hfeeds hsource))
  · exact h id hid houtput (hreach.tail (hfeeds hsource))

/-- Along clear paths every unfolding gives the same trees, with whatever it knows of the path. -/
theorem unfold_eq_of_clear (other : Finset NodeId → Endpoint → DataTree)
    (hother : ∀ path output, s.Clear path output →
      other path output = s.layer (other (Insert.insert output.node path)) output)
    {path path' : Finset NodeId} {output : Endpoint} (h : s.Clear path output)
    (h' : s.Clear path' output) : s.unfold path output = other path' output := by
  induction hcard : (s.outside path).card using Nat.strongRecOn generalizing path path' output with
  | ind _ ih =>
    rw [h.unfold_eq, hother path' output h']
    cases houtlet : s.graph.outlet? output with
    | none => simp [layer, houtlet]
    | some o =>
      have hsome : (s.graph.outlet? output).isSome := by simp [houtlet]
      have hpath : output.node ∉ path := fun hmem => h _ hmem hsome .refl
      refine layer_congr fun source hfeeds => ?_
      exact ih _ (hcard ▸ card_outside_insert_lt (Graph.mem_ids_of_outlet? houtlet) hpath)
        (h.insert hacyclic hsome hfeeds) (h'.insert hacyclic hsome hfeeds) rfl

theorem plain_iff (u : Endpoint → DataTree) :
    (∀ output, u output = s.layer u output) ↔ u = s.unfold ∅ := by
  have hempty : ∀ output, s.Clear ∅ output := fun _ id hid => absurd hid (Finset.notMem_empty id)
  constructor
  · intro hu
    funext output
    exact (unfold_eq_of_clear hacyclic (fun _ => u) (fun _ output _ => hu output) (hempty output)
      (hempty output)).symm
  · rintro rfl output
    rw [(hempty output).unfold_eq]
    cases houtlet : s.graph.outlet? output with
    | none => simp [layer, houtlet]
    | some o =>
      refine layer_congr fun source hfeeds => ?_
      have hclear := (hempty output).insert hacyclic (by simp [houtlet]) hfeeds
      exact unfold_eq_of_clear hacyclic s.unfold (fun _ _ h => h.unfold_eq) hclear (hempty source)

end Acyclic

/-- The expression for an output is the text of the data graph unfolded from it, as is what a walk
with a set gives, whichever ids it starts with; a walk that ends leaves the set as it was, also
where types have no templates. Without cycles the tree is the one plain unfolding. -/
theorem resolve_unfolds {s : Scope} (hs : s.catalog.Covers s.graph) (hids : s.graph.ids.Nodup)
    (output : Endpoint) :
    s.expression s.graph.ids output = (s.unfold ∅ output).text s ∧
    (∀ resolving, s.resolve resolving output =
      .ok (.keep resolving ((s.unfold resolving output).text s))) ∧
    (∀ (s' : Scope) (resolving : Finset NodeId) (output' : Endpoint)
      (r : Resolved (Option String) resolving),
      s'.resolve resolving output' = .ok r → r.resolving = resolving) ∧
    ((∀ id, ¬Relation.TransGen s.Feeds id id) →
      ∀ u : Endpoint → DataTree, (∀ output, u output = s.layer u output) ↔ u = s.unfold ∅) :=
  ⟨expression_eq_text hs hids output, fun resolving => resolve_eq_text hs resolving output,
    fun _ _ _ _ h => resolving_eq_of_resolve h, plain_iff⟩

/-- A cycle through three nodes, two of which use one number, and a comparison with a node that is
not there. -/
def tangle : Graph :=
  ⟨[{ (.ofType 1 "number" [] ["value"] : Node Graph) with
    fields := .ofList [("value", .number (.ofNat 5))] }, .ofType 2 "add" ["a", "b"] ["result"],
    .ofType 3 "not" ["value"] ["result"],
    .ofType 4 "subtract" ["a", "b"] ["result"], .ofType 5 "equal" ["a", "b"] ["result"]],
    [⟨⟨1, 0⟩, ⟨2, 0⟩⟩, ⟨⟨4, 0⟩, ⟨2, 1⟩⟩, ⟨⟨2, 0⟩, ⟨3, 0⟩⟩, ⟨⟨3, 0⟩, ⟨4, 0⟩⟩, ⟨⟨1, 0⟩, ⟨4, 1⟩⟩,
      ⟨⟨9, 0⟩, ⟨5, 0⟩⟩, ⟨⟨4, 0⟩, ⟨5, 1⟩⟩]⟩

def untangled : Graph := ⟨tangle.nodes, tangle.links.filter fun l => l.source.node < l.target.node⟩

theorem covers_tangle : Catalog.standard.Covers tangle := by
  have hall : (tangle.nodes.all fun n => Catalog.standard.contains n.type) = true := by
    decide +kernel
  exact fun n hn => Catalog.contains_iff.1 (List.all_eq_true.1 hall n hn)

theorem acyclic_untangled (id : NodeId) :
    ¬Relation.TransGen (Feeds ⟨.standard, untangled, ""⟩) id id := by
  have hlt : ∀ {a b}, Relation.TransGen (Feeds ⟨.standard, untangled, ""⟩) a b → a < b := by
    have hone : ∀ {a b}, Feeds ⟨.standard, untangled, ""⟩ a b → a < b := by
      rintro a b ⟨node, label, index, link, -, -, -, -, hlink, rfl, -⟩
      have htarget := List.find?_some hlink
      simp only [Bool.and_eq_true, beq_iff_eq] at htarget
      have hmem := (List.mem_filter.1 (List.mem_of_find?_eq_some hlink)).2
      rwa [htarget.1, decide_eq_true_eq] at hmem
    intro a b h
    induction h with
    | single h => exact hone h
    | tail _ h ih => exact UInt32.lt_trans ih (hone h)
  exact fun h => UInt32.lt_irrefl id (hlt h)

theorem resolve_unfolds_tangle :
    (unfold ⟨.standard, tangle, ""⟩ ∅ ⟨5, 0⟩).text ⟨.standard, tangle, ""⟩ =
    some "0 == (!(5 + 0) - 5)" ∧
    resolve ⟨.standard, tangle, ""⟩ {4} ⟨5, 0⟩ = .ok (.keep {4} (some "0 == 0")) ∧
    ∀ u : Endpoint → DataTree, (∀ output, u output = layer ⟨.standard, untangled, ""⟩ u output) ↔
      u = unfold ⟨.standard, untangled, ""⟩ ∅ := by
  have hcyclic := @resolve_unfolds ⟨.standard, tangle, ""⟩ covers_tangle (by decide) ⟨5, 0⟩
  have hplain := @resolve_unfolds ⟨.standard, untangled, ""⟩ covers_tangle (by decide) ⟨5, 0⟩
  refine ⟨?_, ?_, hplain.2.2.2 acyclic_untangled⟩
  · rw [← hcyclic.1]
    decide +kernel
  · have htext : (unfold ⟨.standard, tangle, ""⟩ {4} ⟨5, 0⟩).text ⟨.standard, tangle, ""⟩ =
        some "0 == 0" := by
      decide +kernel
    rw [hcyclic.2.1, htext]

end Scope
end FlowGraph
