import Mathlib.Data.List.Nodup
import Mathlib.Data.List.Pairwise
import FlowGraph.Proofs.NameMap
import FlowGraph.Proofs.WellFormed
import FlowGraph.Source.Module

/-! How outlines are made: the step at a node, the nodes that flow leads to from it, the steps of
nested graphs, and the groups that become methods, each said without the fold over nested graphs. -/
namespace FlowGraph

theorem Catalog.find?_standard_eq (type : String) :
    Catalog.standard.find? type = Template.standard.find? fun t => t.type = type := by
  have hnames : ((Template.standard.map fun t => (t.type, t)).map Prod.fst).Nodup := by
    decide +kernel
  rw [find?, standard, NameMap.ofList, NameMap.get?_insertAll hnames, NameMap.get?_empty,
    Option.or_none, List.find?_map, Option.map_map]
  exact Option.map_id'

/-- The standard catalog has the standard templates, each under its own type. -/
theorem Catalog.find?_eq_some_iff {type : String} {t : Template} :
    Catalog.standard.find? type = some t ↔ t ∈ Template.standard ∧ t.type = type := by
  have hnodup : (Template.standard.map (·.type)).Nodup := by decide +kernel
  rw [find?_standard_eq]
  refine ⟨fun h => ⟨List.mem_of_find?_eq_some h, by simpa using List.find?_some h⟩, ?_⟩
  rintro ⟨hmem, rfl⟩
  cases hfind : Template.standard.find? fun u => u.type = t.type with
  | none => simpa using List.find?_eq_none.1 hfind t hmem
  | some u =>
    have htype : u.type = t.type := by simpa using List.find?_some hfind
    rw [List.inj_on_of_nodup_map hnodup (List.mem_of_find?_eq_some hfind) hmem htype]

theorem Node.getElem?_of_flowPort? {n : Node Graph} {side : Direction} {port : Nat}
    (hport : n.flowPort? side = some port) : (n.ports side)[port]? = some Label.flow := by
  have hlabel := List.of_findIdx?_eq_some hport
  cases hget : (n.ports side)[port]? with
  | none => simp [hget] at hlabel
  | some label =>
    rw [hget] at hlabel
    rw [← beq_iff_eq.1 hlabel]

namespace Graph

theorem nodup_ids {g : Graph} (hg : g.Sound) : g.ids.Nodup := by
  refine List.pairwise_map.2 (hg.ascending.imp fun hlt heq => ?_)
  rw [heq] at hlt
  exact UInt32.lt_irrefl _ hlt

theorem eq_of_target_eq {links : List Link} (h : links.Pairwise (·.target ≠ ·.target)) {l k : Link}
    (hl : l ∈ links) (hk : k ∈ links) (htarget : l.target = k.target) : l = k := by
  have hsymm : Std.Symm fun a b : Link => a.target ≠ b.target := ⟨fun _ _ => Ne.symm⟩
  by_contra hne
  exact h.forall hl hk hne htarget

theorem incoming?_eq_some_iff {g : Graph} (h : g.links.Pairwise (·.target ≠ ·.target)) {id : NodeId}
    {port : Nat} {l : Link} : g.incoming? id port = some l ↔
      l ∈ g.links ∧ l.target.node = id ∧ l.target.port.toNat = port := by
  have hfound : ∀ k, g.incoming? id port = some k →
      k ∈ g.links ∧ k.target.node = id ∧ k.target.port.toNat = port := fun k hk =>
    ⟨List.mem_of_find?_eq_some hk, by simpa using List.find?_some hk⟩
  refine ⟨hfound l, fun ⟨hl, hnode, hport⟩ => ?_⟩
  cases hk : g.incoming? id port with
  | none => exact absurd (List.find?_eq_none.1 hk l hl) (by simp [hnode, hport])
  | some k =>
    obtain ⟨hmem, hnode', hport'⟩ := hfound k hk
    have htarget : k.target = l.target := by
      rcases hkt : k.target with ⟨a, p⟩
      rcases hlt : l.target with ⟨b, q⟩
      rw [hkt] at hnode' hport'
      rw [hlt] at hnode hport
      rw [Endpoint.mk.injEq]
      exact ⟨hnode'.trans hnode.symm, UInt64.toNat_inj.1 (hport'.trans hport.symm)⟩
    rw [eq_of_target_eq h hmem hl htarget]

/-- The nodes of a graph, taken from nodes with values of their nested graphs. -/
theorem map_fst_nodes {α : Type} (g : Graph) (f : Graph → α) :
    (g.nodes.map fun n => (n, n.inner.map f)).map Prod.fst = g.nodes := by
  rw [List.map_map]
  exact List.map_id _

end Graph

namespace Outline

theorem texts_eq_map (os : List Outline) : texts os = os.map text := by
  induction os with
  | nil => rfl
  | cons o os ih => rw [texts, ih, List.map_cons]

theorem branchTexts_eq_map (branches : List (List Outline)) :
    branchTexts branches = branches.map source := by
  induction branches with
  | nil => rfl
  | cons b bs ih => rw [branchTexts, ih, List.map_cons, source]

end Outline

namespace Scope

/-! ### Steps -/

def following (s : Scope) (node : Node Graph) : List NodeId :=
  match node.flowPort? .output with
  | some port => s.targets node.id port
  | none => []

def branching (s : Scope) (node : Node Graph) : List (List NodeId) :=
  node.outputs.zipIdx.map fun e => if Label.isNamedFlow e.1 then s.targets node.id e.2 else []

/-- The step at a node, with the steps that follow it. `walk` gives the steps from nodes in turn. -/
def stepAt (s : Scope) (body : Node Graph → List Outline) (walk : List NodeId → List Outline)
    (template : Template) (node : Node Graph) : Outline :=
  if node.isGroup then
    .inlined node (if s.graph.hasIncomingFlow node then body node else []) (walk (s.following node))
  else
    .step template node (s.inputExpressions node) (s.varName node.id) ((s.branching node).map walk)
      (walk (s.following node))

theorem text_stepAt (s : Scope) (body : Node Graph → List Outline)
    (walk : List NodeId → List Outline) (template : Template) (node : Node Graph) :
    (s.stepAt body walk template node).text =
      if node.isGroup then
        Text.stack [Outline.source (if s.graph.hasIncomingFlow node then body node else []),
          Outline.source (walk (s.following node))]
      else
        Text.stack [template.emit node ⟨s.inputExpressions node,
            (s.branching node).map fun ids => Outline.source (walk ids), s.varName node.id⟩,
          Outline.source (walk (s.following node))] := by
  unfold stepAt
  split
  · rw [Outline.text, Outline.source, Outline.source]
  · rw [Outline.text, Outline.branchTexts_eq_map, List.map_map]
    rfl

section Visit

variable {s : Scope} {body : Node Graph → List Outline} {bound : Nat} {left : List NodeId}
  {id : NodeId}

theorem visit_of_not_mem (hid : id ∉ left) : s.visit body bound left id = (none, left) := by
  cases bound with
  | zero => rfl
  | succ bound => rw [visit, if_neg hid]

/-- A node that is not there, or that has no template, is no step. -/
theorem visit_of_unknown (hid : id ∈ left)
    (hnone : (s.graph.find? id).bind (fun node => s.catalog.find? node.type) = none) :
    s.visit body (bound + 1) left id = (none, left.erase id) := by
  rw [visit, if_pos hid]
  cases hfind : s.graph.find? id with
  | none => rfl
  | some node =>
    rw [hfind, Option.bind_some] at hnone
    simp only [hnone]

theorem visit_of_mem (hid : id ∈ left) {node : Node Graph} (hfind : s.graph.find? id = some node)
    {template : Template} (htemplate : s.catalog.find? node.type = some template) :
    s.visit body (bound + 1) left id =
      (some (s.stepAt body (fun ids => (chain (s.visit body bound) (left.erase id) ids).1)
        template node), (chain (s.visit body bound) (left.erase id) (s.following node)).2) := by
  obtain rfl := (Graph.find?_mem hfind).2
  have hbranches :
      ((s.branching node).map fun ids => (chain (s.visit body bound) (left.erase node.id) ids).1) =
      node.outputs.zipIdx.map fun e => if Label.isNamedFlow e.1 then
        (chain (s.visit body bound) (left.erase node.id) (s.targets node.id e.2)).1 else [] := by
    rw [branching, List.map_map]
    refine List.map_congr_left fun e _ => ?_
    rw [Function.comp_apply]
    by_cases hlabel : Label.isNamedFlow e.1 <;> simp only [hlabel] <;> rfl
  rw [visit, if_pos hid]
  simp only [hfind, htemplate]
  unfold stepAt following
  rw [hbranches]
  cases node.flowPort? .output <;> cases node.isGroup <;> rfl

end Visit

theorem chain_cons (step : List NodeId → NodeId → Option Outline × List NodeId) (left : List NodeId)
    (id : NodeId) (ids : List NodeId) : chain step left (id :: ids) =
      ((step left id).1.toList ++ (chain step (step left id).2 ids).1,
        (chain step (step left id).2 ids).2) :=
  rfl

theorem chain_append (step : List NodeId → NodeId → Option Outline × List NodeId)
    (left : List NodeId) (ids ids' : List NodeId) : chain step left (ids ++ ids') =
      ((chain step left ids).1 ++ (chain step (chain step left ids).2 ids').1,
        (chain step (chain step left ids).2 ids').2) := by
  induction ids generalizing left with
  | nil => rfl
  | cons id ids ih => rw [List.cons_append, chain_cons, ih, chain_cons, List.append_assoc]

theorem chain_congr {step step' : List NodeId → NodeId → Option Outline × List NodeId}
    (h : ∀ left id, step left id = step' left id) (left : List NodeId) (ids : List NodeId) :
    chain step left ids = chain step' left ids := by
  rw [show step = step' from funext fun left => funext fun id => h left id]

/-- Only the bodies of a scope's own nodes matter. -/
theorem visit_congr {s : Scope} {body body' : Node Graph → List Outline}
    (h : ∀ node id, s.graph.find? id = some node → body node = body' node) (bound : Nat) :
    ∀ left id, s.visit body bound left id = s.visit body' bound left id := by
  induction bound with
  | zero => exact fun _ _ => rfl
  | succ bound ih =>
    intro left id
    by_cases hid : id ∈ left
    · cases hfind : s.graph.find? id with
      | none =>
        rw [visit_of_unknown hid (by rw [hfind]; rfl), visit_of_unknown hid (by rw [hfind]; rfl)]
      | some node =>
        cases htemplate : s.catalog.find? node.type with
        | none =>
          have hnone : (s.graph.find? id).bind (fun node => s.catalog.find? node.type) = none := by
            rw [hfind, Option.bind_some, htemplate]
          rw [visit_of_unknown hid hnone, visit_of_unknown hid hnone]
        | some template =>
          rw [visit_of_mem hid hfind htemplate, visit_of_mem hid hfind htemplate]
          simp only [stepAt, h node id hfind, chain_congr ih]
    · rw [visit_of_not_mem hid, visit_of_not_mem hid]

theorem outline_congr {s : Scope} {body body' : Node Graph → List Outline}
    (h : ∀ node id, s.graph.find? id = some node → body node = body' node) (entries : List NodeId) :
    s.outline body entries = s.outline body' entries := by
  rw [outline, outline, chain_congr (visit_congr h _)]

/-! ### Nested graphs -/

theorem nestedOutline_eq (catalog : Catalog) (g : Graph) (stem : String) :
    nestedOutline catalog g stem =
      (⟨catalog, g, stem⟩ : Scope).outline (groupOutline ⟨catalog, g, stem⟩) (entries g) := by
  rw [nestedOutline, Graph.fold_eq]
  simp only [Graph.map_fst_nodes]
  obtain ⟨nodes, links⟩ := g
  refine outline_congr (fun node id hfind => ?_) _
  have hentry : ∀ f : Graph → String → List Outline,
      (nodes.map fun n => (n, n.inner.map f)).find? (·.1.id == node.id) =
        some (node, node.inner.map f) := by
    intro f
    rw [List.find?_map, (Graph.find?_mem hfind).2]
    exact congrArg (Option.map _) hfind
  simp only [hentry, groupOutline]
  cases node.inner <;> rfl

end Scope

namespace Module

theorem freeGroups_eq (catalog : Catalog) (g : Graph) (stem : String) :
    freeGroups catalog g stem = g.nodes.flatMap fun n =>
      if n.isGroup then
        (if g.hasIncomingFlow n then []
          else [(n, Outline.source (Scope.groupOutline ⟨catalog, g, stem⟩ n))]) ++
          (n.inner.map fun inner => freeGroups catalog inner (Scope.innerStem stem n.id)).getD []
      else [] := by
  rw [freeGroups, Graph.fold_eq]
  simp only [Graph.map_fst_nodes, List.flatMap_map]
  obtain ⟨nodes, links⟩ := g
  congr 1
  funext n
  cases n.inner <;> rfl

theorem unknownType?_eq (catalog : Catalog) (g : Graph) :
    unknownType? catalog g = g.nodes.findSome? fun n =>
      if catalog.contains n.type then (n.inner.map (unknownType? catalog)).join
      else some ⟨n.id, n.type⟩ := by
  rw [unknownType?, Graph.fold_eq, List.findSome?_map]
  rfl

theorem registrations_eq (catalog : Catalog) (g : Graph) :
    registrations catalog g = g.nodes.flatMap fun n =>
      ((catalog.find? n.type).bind (·.property n)).toList ++
        (n.inner.map (registrations catalog)).getD [] := by
  rw [registrations, Graph.fold_eq, List.flatMap_map]

end Module
end FlowGraph
