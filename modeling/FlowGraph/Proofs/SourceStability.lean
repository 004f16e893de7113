import Mathlib.Data.List.Forall2
import FlowGraph.Proofs.LinkOrder
import FlowGraph.Proofs.Snapshots

/-! The module generated from a graph is the module generated from any reordering of it. Storing a
graph and reading it back gives such a reordering, so that a document generates the same module as
what its snapshot or its project file brings back. -/
namespace FlowGraph

namespace Module

/-! ### Members -/

section Members

variable {g h : Graph}

theorem unknownType?_reordered (hr : g.Reordered h) :
    unknownType? .standard g = unknownType? .standard h := by
  induction hr with
  | @intro g h nodes links flow inside ih =>
    have hfirst : ∀ (k : Graph) (f : Node Graph → Option UnknownType),
        k.nodes.findSome? f = (k.nodes.map f).findSome? id := fun k f => by
      rw [List.findSome?_map]
      rfl
    rw [unknownType?_eq, unknownType?_eq, hfirst, hfirst]
    refine congrArg _ (map_eq_of_forall₂ (Graph.pairs_of_alike nodes) fun n m hnm => ?_)
    have hinner : n.inner.map (unknownType? .standard) = m.inner.map (unknownType? .standard) :=
      hnm.2.map_inner_eq fun a b hi hj => ih (n, m) hnm.1 a b hi hj
    rw [hinner, hnm.2.type_eq, hnm.2.id_eq]

theorem registrations_reordered (hr : g.Reordered h) :
    registrations .standard g = registrations .standard h := by
  induction hr with
  | @intro g h nodes links flow inside ih =>
    rw [registrations_eq, registrations_eq, List.flatMap_def, List.flatMap_def]
    refine congrArg _ (map_eq_of_forall₂ (Graph.pairs_of_alike nodes) fun n m hnm => ?_)
    have hinner : n.inner.map (registrations .standard) = m.inner.map (registrations .standard) :=
      hnm.2.map_inner_eq fun a b hi hj => ih (n, m) hnm.1 a b hi hj
    have hproperty : (Catalog.standard.find? n.type).bind (·.property n) =
        (Catalog.standard.find? m.type).bind (·.property m) := by
      rw [hnm.2.type_eq]
      exact Option.bind_congr fun t ht => (Catalog.shallow_of_find? ht).property hnm.2
    rw [hinner, hproperty]

theorem anchors_eq (hlevel : g.SameLevel h) :
    anchors ⟨.standard, g, ""⟩ = anchors ⟨.standard, h, ""⟩ := by
  have hmap : ∀ (k : Graph) (f : Node Graph → Option (Section × NodeId)),
      k.nodes.filterMap f = (k.nodes.map f).filterMap id := fun k f => by
    rw [List.filterMap_map]
    rfl
  rw [anchors, anchors, hmap, hmap]
  refine congrArg _ (map_eq_of_forall₂ hlevel.nodes fun n m hnm => ?_)
  have hflow := Graph.hasIncomingFlow_eq hlevel.sound hlevel.links hnm
  simp only [Option.bind_eq_bind, hnm.type_eq, hnm.id_eq, hflow]
  exact Option.bind_congr fun t ht => by rw [(Catalog.shallow_of_find? ht).anchor hnm]

/-- The nested graphs of nodes that stand at one place are written in the same way. -/
theorem source_groupOutline_reordered (hr : g.Reordered h) (hg : g.WellFormed)
    (hb : g.Everywhere Graph.PlainBoundary) (stem : String) {n m : Node Graph}
    (hpair : (n, m) ∈ g.nodes.zip h.nodes) (hnm : n.Alike m) :
    Outline.source (Scope.groupOutline ⟨.standard, g, stem⟩ n) =
      Outline.source (Scope.groupOutline ⟨.standard, h, stem⟩ m) := by
  have hn := (List.of_mem_zip hpair).1
  cases hr with
  | intro _ _ _ inside =>
    exact Scope.source_groupOutline_eq hnm fun a b hi hj =>
      Scope.source_nestedOutline_eq (inside (n, m) hpair a b hi hj) (hg.nested hn hi)
        (hb.inside hn hi)

theorem sectionBody_reordered (hr : g.Reordered h) (hg : g.WellFormed)
    (hb : g.Everywhere Graph.PlainBoundary) (anchors : List (Section × NodeId)) (sect : Section) :
    sectionBody ⟨.standard, g, ""⟩ anchors sect = sectionBody ⟨.standard, h, ""⟩ anchors sect :=
  Scope.source_outline_eq (hr.sameLevel hg hb)
    (fun _ _ => source_groupOutline_reordered hr hg hb "") _

/-- What a routine is made of: the name that its group asks for, the id of the group and the
body. -/
def routineParts (group : Node Graph × String) : (String × NodeId) × String :=
  ((group.1.displayName, group.1.id), group.2)

theorem freeGroups_reordered (hr : g.Reordered h) (hg : g.WellFormed)
    (hb : g.Everywhere Graph.PlainBoundary) (stem : String) :
    (freeGroups .standard g stem).map routineParts =
    (freeGroups .standard h stem).map routineParts := by
  induction hr generalizing stem with
  | @intro g h nodes links flow inside ih =>
    have hr := Graph.Reordered.intro nodes links flow inside
    have hlevel := hr.sameLevel hg hb
    rw [freeGroups_eq, freeGroups_eq, List.map_flatMap, List.map_flatMap, List.flatMap_def,
      List.flatMap_def]
    refine congrArg _ (map_eq_of_forall₂ (Graph.pairs_of_alike nodes) fun n m hnm => ?_)
    obtain ⟨hpair, hnm⟩ := hnm
    have hn := (List.of_mem_zip hpair).1
    have hbody := source_groupOutline_reordered hr hg hb stem hpair hnm
    have hname : n.displayName = m.displayName := by rw [hnm.eq_withInner]; rfl
    have hinner :
        (n.inner.map fun k =>
          (freeGroups .standard k (Scope.innerStem stem n.id)).map routineParts) =
        m.inner.map fun k =>
          (freeGroups .standard k (Scope.innerStem stem n.id)).map routineParts :=
      hnm.map_inner_eq fun a b hi hj => ih (n, m) hpair a b hi hj (hg.nested hn hi)
        (hb.inside hn hi) _
    have hnested : ∀ (inner : Option Graph) (stem : String),
        ((inner.map fun k => freeGroups .standard k stem).getD []).map routineParts =
          (inner.map fun k => (freeGroups .standard k stem).map routineParts).getD [] := by
      intro inner stem
      cases inner <;> rfl
    rw [hnm.isGroup_eq]
    cases m.isGroup with
    | false => rfl
    | true =>
      rw [if_pos rfl, if_pos rfl, List.map_append, List.map_append, hnested, hnested,
        hinner, hnm.id_eq, Graph.hasIncomingFlow_eq hlevel.sound hlevel.links hnm]
      congr 1
      cases h.hasIncomingFlow m with
      | true => rfl
      | false => simp [routineParts, hname, hnm.id_eq, hbody]

end Members

/-! ### Modules -/

theorem assignNames_map {α β : Type} (f : α → β) (wanted : β → String × NodeId)
    (taken : List String) (xs : List α) : assignNames wanted taken (xs.map f) =
      (assignNames (fun x => wanted (f x)) taken xs).map fun p => (f p.1, p.2) := by
  induction xs generalizing taken with
  | nil => rfl
  | cons x xs ih => simp only [List.map_cons, assignNames, ih]

/-- Routines depend on the parts that they are made of only. -/
theorem routines_eq (groups : List (Node Graph × String)) (taken : List String) :
    (assignNames (fun x => (x.1.displayName, x.1.id)) taken groups).map
        (fun p => (⟨p.2, p.1.1.id, p.1.2⟩ : Routine)) =
      (assignNames Prod.fst taken (groups.map routineParts)).map
      fun p => ⟨p.2, p.1.1.2, p.1.2⟩ := by
  rw [assignNames_map, List.map_map]
  rfl

theorem generate_eq_of_reordered {g h : Graph} (hr : g.Reordered h) (hg : g.WellFormed)
    (hb : g.Everywhere Graph.PlainBoundary) (options : Options) (metadata : Metadata) :
    generate .standard options metadata g = generate .standard options metadata h := by
  rw [generate, generate, unknownType?_reordered hr]
  cases unknownType? .standard h with
  | some e => rfl
  | none =>
    simp only [registrations_reordered hr, anchors_eq (hr.sameLevel hg hb),
      sectionBody_reordered hr hg hb, routines_eq, freeGroups_reordered hr hg hb]

end Module

/-! ### Stored graphs -/

namespace Graph

variable {g : Graph}

theorem touchesBoundary_eq (g : Graph) (l : Link) : g.touchesBoundary l =
    ((g.find? l.source.node).any Node.isBoundary || (g.find? l.target.node).any
      Node.isBoundary) := by
  unfold touchesBoundary
  cases hsource : g.find? l.source.node <;> cases htarget : g.find? l.target.node <;>
    simp [hsource, htarget]

/-- No link enters the node where the flow enters a group. -/
theorem type_target_ne (hg : g.Sound) (hb : g.PlainBoundary) {l : Link} (hl : l ∈ g.links)
    {n : Node Graph} (hfind : g.find? l.target.node = some n) :
    n.type ≠ Node.boundaryType .input := by
  intro htype
  obtain ⟨-, -, m, hm, -, htarget, -, -, b, -, hb', -⟩ := hg.joined l hl
  obtain rfl : n = m :=
    Option.some.inj (hfind.symm.trans ((find?_eq_some_iff hg.ascending).2 ⟨hm, htarget⟩))
  have hinputs : n.inputs = [] := (hb n hm .input htype).2 .input
  simp [hinputs] at hb'

/-- A link along which flow goes on touches a boundary node exactly if it comes from one. -/
theorem touchesBoundary_of_passing (hg : g.Sound) (hb : g.PlainBoundary) {id : NodeId}
    {port : Nat} {l : Link} (hl : l ∈ g.passing id port) :
    g.touchesBoundary l = (g.find? id).any Node.isBoundary := by
  simp only [passing, outgoing, List.mem_filter, Bool.and_eq_true, beq_iff_eq] at hl
  obtain ⟨⟨hmem, hsource, -⟩, hexit⟩ := hl
  have htarget : (g.find? l.target.node).any Node.isBoundary = false := by
    refine Bool.eq_false_iff.2 fun hboundary => ?_
    obtain ⟨n, hfind, hn⟩ := (Option.any_eq_true _ _).1 hboundary
    obtain ⟨side, hside⟩ := Node.isBoundary_iff.1 hn
    cases side with
    | input => exact type_target_ne hg hb hmem hfind hside
    | output => simp [isExit, hfind, hside] at hexit
  rw [touchesBoundary_eq, hsource, htarget, Bool.or_false]

theorem passing_regroup (g : Graph) (id : NodeId) (port : Nat) : g.regroup.passing id port =
    (g.passing id port).filter (!g.touchesBoundary ·) ++ (g.passing id port).filter
    g.touchesBoundary := by
  have hexit : g.regroup.isExit = g.isExit := by
    funext id
    simp only [isExit, find?_regroup, Option.any_map]
  simp only [passing, outgoing, links_regroup, innerLinks, boundaryLinks, hexit, List.filter_append,
    List.filter_filter]
  congr 1
  · exact List.filter_congr fun l _ => by ac_rfl
  · exact List.filter_congr fun l _ => by ac_rfl

theorem passing_regroup_eq (hg : g.Sound) (hb : g.PlainBoundary) (id : NodeId) (port : Nat) :
    g.regroup.passing id port = g.passing id port := by
  rw [passing_regroup, partition_eq_self_iff]
  exact List.pairwise_of_forall_mem_list fun l hl k hk htouch => by
    rw [touchesBoundary_of_passing hg hb hl] at htouch
    rw [touchesBoundary_of_passing hg hb hk, htouch]

theorem alike_withInner (n : Node Graph) (f : Graph → Graph) :
    n.Alike { n with inner := n.inner.map f } := ⟨rfl, by simp⟩

/-- Regrouping reorders links, and not those that decide where flow goes on. -/
theorem reordered_regroup (hg : g.WellFormed) (hb : g.Everywhere PlainBoundary) :
    g.Reordered g.regroup := by
  induction g using nestedInduction with
  | step g ih =>
    refine .intro ?_ g.links_regroup_perm.symm ?_ ?_
    · rw [nodes_regroup, List.forall₂_map_right_iff, List.forall₂_same]
      exact fun n _ => alike_withInner n regroup
    · exact fun n _ port _ _ _ => (passing_regroup_eq hg.sound hb.here n.id port).symm
    · intro p hp a b hi hj
      rw [nodes_regroup, ← List.map_prod_left_eq_zip] at hp
      obtain ⟨n, hn, rfl⟩ := List.mem_map.1 hp
      obtain ⟨k, hk, rfl⟩ := Option.map_eq_some_iff.1 hj
      obtain rfl : k = a := Option.some.inj (hk.symm.trans hi)
      exact ih n hn k hi (hg.nested hn hi) (hb.inside hn hi)

end Graph

/-! ### Documents -/

namespace Document

variable {d e : Document} {options : Module.Options}

theorem ofDocument_regroup (hwf : d.root.WellFormed) (hb : d.root.Everywhere Graph.PlainBoundary) :
    Module.ofDocument .standard options d.regroup = Module.ofDocument .standard options d := by
  have hroot : d.regroup.root = d.root.regroup := Focus.root_regroup _
  rw [Module.ofDocument, Module.ofDocument, hroot]
  exact (Module.generate_eq_of_reordered (Graph.reordered_regroup hwf hb) hwf hb options
    d.metadata).symm

end Document

/-! ### A group with two nodes -/

namespace Graph

end Graph

namespace Module

end Module
end FlowGraph
