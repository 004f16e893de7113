import Mathlib.Data.List.Induction
import FlowGraph.Proofs.OpenGroups

/-! Storing a graph and reading it back. Nothing is lost or changed, but in every graph the links
that touch a boundary node move behind the others. -/
namespace FlowGraph

namespace Graph

/-- The same graph, where at every level the links that touch a boundary node stand behind the
others. Both kinds keep their order. -/
def regroup : Graph → Graph := fold fun entries links =>
  let g : Graph := ⟨entries.map Prod.fst, links⟩
  ⟨entries.map fun (n, inner) => { n with inner }, g.innerLinks ++ g.boundaryLinks⟩

theorem regroup_eq (g : Graph) : g.regroup =
    ⟨g.nodes.map fun n => { n with inner := n.inner.map regroup },
      g.innerLinks ++ g.boundaryLinks⟩ := by
  cases g with
  | mk nodes links =>
    rw [regroup, fold_eq]
    simp [Function.comp_def]

theorem nodes_regroup (g : Graph) :
    g.regroup.nodes = g.nodes.map fun n => { n with inner := n.inner.map regroup } := by
  rw [regroup_eq]

theorem links_regroup (g : Graph) : g.regroup.links = g.innerLinks ++ g.boundaryLinks := by
  rw [regroup_eq]

theorem roster_regroup (g : Graph) : g.regroup.roster = g.roster := by
  simp [roster, nodes_regroup, Function.comp_def]

theorem find?_regroup (g : Graph) (id : NodeId) :
    g.regroup.find? id = (g.find? id).map fun n => { n with inner := n.inner.map regroup } := by
  rw [find?, nodes_regroup, List.find?_map]
  rfl

theorem type_find?_eq_roster (g : Graph) (id : NodeId) :
    (g.find? id).map (·.type) = (g.roster.find? (·.1 == id)).map Prod.snd := by
  simp [find?, roster, List.find?_map, Function.comp_def]

theorem touchesBoundary_congr {g h : Graph} (hroster : g.roster = h.roster) (l : Link) :
    g.touchesBoundary l = h.touchesBoundary l := by
  have htype : ∀ k : Graph, k.touchesBoundary l = [l.source.node, l.target.node].any fun id =>
      ((k.roster.find? (·.1 == id)).map Prod.snd).any
        fun type => (Node.boundarySide? type).isSome := by
    intro k
    unfold touchesBoundary
    congr 1
    funext id
    rw [← type_find?_eq_roster]
    cases k.find? id <;> rfl
  rw [htype g, htype h, hroster]

theorem innerLinks_regroup (g : Graph) : g.regroup.innerLinks = g.innerLinks := by
  have hcongr := touchesBoundary_congr g.roster_regroup
  simp [innerLinks, boundaryLinks, links_regroup, hcongr, List.filter_filter]

theorem boundaryLinks_regroup (g : Graph) : g.regroup.boundaryLinks = g.boundaryLinks := by
  have hcongr := touchesBoundary_congr g.roster_regroup
  simp [innerLinks, boundaryLinks, links_regroup, hcongr, List.filter_filter]

theorem links_regroup_perm (g : Graph) : g.regroup.links.Perm g.links := by
  rw [links_regroup]
  exact List.perm_append_comm.trans (List.filter_append_perm g.touchesBoundary g.links)

/-- Without boundary nodes there is nothing to regroup at this level. -/
theorem Plain.links_regroup {g : Graph} (hg : g.Plain) : g.regroup.links = g.links := by
  have hnone : ∀ l, g.touchesBoundary l = false := by
    intro l
    refine Bool.eq_false_iff.2 fun htouch => ?_
    obtain ⟨id, -, hid⟩ := List.any_eq_true.1 htouch
    cases hfind : g.find? id with
    | none => simp [hfind] at hid
    | some n => simp [hfind, hg.isBoundary (find?_mem hfind).1] at hid
  rw [Graph.links_regroup, innerLinks, boundaryLinks,
    List.filter_eq_self.2 (fun l _ => by simp [hnone l]),
    List.filter_eq_nil_iff.2 (fun l _ => by simp [hnone l]), List.append_nil]

theorem Joins.regroup {g : Graph} {l : Link} (hl : g.Joins l) : g.regroup.Joins l :=
  hl.transport fun n hn _ => ⟨{ n with inner := n.inner.map Graph.regroup }, by
    rw [nodes_regroup]
    exact List.mem_map.2 ⟨n, hn, rfl⟩, rfl, rfl, rfl⟩

theorem Sound.regroup {g : Graph} (hg : g.Sound) : g.regroup.Sound where
  ascending := by
    rw [nodes_regroup]
    exact List.pairwise_map.2 hg.ascending
  joined l hl := (hg.joined l (g.links_regroup_perm.mem_iff.1 hl)).regroup
  single := g.links_regroup_perm.symm.pairwise hg.single Ne.symm

theorem WellFormed.regroup {g : Graph} (hg : g.WellFormed) : g.regroup.WellFormed := by
  induction g using nestedInduction with
  | step g ih =>
    refine .intro hg.sound.regroup fun n hn inner hi => ?_
    rw [nodes_regroup] at hn
    obtain ⟨m, hm, rfl⟩ := List.mem_map.1 hn
    obtain ⟨k, hk, rfl⟩ := Option.map_eq_some_iff.1 hi
    exact ih m hm k hk (hg.nested hm hk)

/-! ### Graphs that are regrouped already -/

theorem partition_eq_self_iff {α : Type} {p : α → Bool} {xs : List α} :
    xs.filter (!p ·) ++ xs.filter p = xs ↔ xs.Pairwise fun x y => p x = true → p y = true := by
  constructor
  · intro h
    rw [← h]
    refine List.pairwise_append.2 ⟨?_, ?_, ?_⟩
    · refine List.pairwise_of_forall_mem_list fun x hx y _ hpx => ?_
      have := (List.mem_filter.1 hx).2
      simp [hpx] at this
    · exact List.pairwise_of_forall_mem_list fun x _ y hy _ => (List.mem_filter.1 hy).2
    · exact fun x _ y hy _ => (List.mem_filter.1 hy).2
  · intro h
    induction xs with
    | nil => rfl
    | cons x xs ih =>
      rw [List.pairwise_cons] at h
      cases hx : p x with
      | false => simp [hx, ih h.2]
      | true =>
        have hall : ∀ y ∈ xs, p y = true := fun y hy => h.1 y hy hx
        have hnone : xs.filter (!p ·) = [] :=
          List.filter_eq_nil_iff.2 fun y hy => by simp [hall y hy]
        simp [hx, hnone, List.filter_eq_self.2 hall]

/-- At every level no link that touches a boundary node stands before one that does not. -/
def Settled (g : Graph) : Prop := g.Everywhere fun h =>
  h.links.Pairwise fun a b => h.touchesBoundary a = true → h.touchesBoundary b = true

theorem regroup_eq_self_iff {g : Graph} : g.regroup = g ↔ g.Settled := by
  induction g using nestedInduction with
  | step g ih =>
    constructor
    · intro h
      refine .intro (partition_eq_self_iff.1 (g.links_regroup.symm.trans (congrArg links h))) ?_
      intro n hn inner hi
      refine (ih n hn inner hi).1 ?_
      have hnodes : g.nodes.map (fun n => { n with inner := n.inner.map regroup }) =
          g.nodes.map id := by
        rw [List.map_id, ← nodes_regroup, h]
      have hnode := congrArg Node.inner (List.map_inj_left.1 hnodes n hn)
      rw [id, hi] at hnode
      exact Option.some.inj hnode
    · intro h
      have hlinks : g.innerLinks ++ g.boundaryLinks = g.links := partition_eq_self_iff.2 h.here
      have hnodes : g.nodes.map (fun n => { n with inner := n.inner.map regroup }) = g.nodes := by
        refine (List.map_congr_left fun n hn => ?_).trans (List.map_id _)
        have hinner : n.inner.map regroup = n.inner := by
          cases hi : n.inner with
          | none => rfl
          | some inner => exact congrArg some ((ih n hn inner hi).2 (h.inside hn hi))
        rw [hinner]
        rfl
      rw [regroup_eq, hlinks, hnodes]
      cases g with
      | mk nodes links => rfl

end Graph

/-! ### Records -/

namespace GraphRecord

theorem ofGraph_regroup (g : Graph) : ofGraph g.regroup = ofGraph g := by
  induction g using Graph.nestedInduction with
  | step g ih =>
    rw [ofGraph_eq, ofGraph_eq g, g.innerLinks_regroup, g.boundaryLinks_regroup, g.nodes_regroup]
    congr 1
    rw [List.map_map]
    refine List.map_congr_left fun n hn => ?_
    have hinner : (n.inner.map Graph.regroup).map ofGraph = n.inner.map ofGraph := by
      cases hi : n.inner with
      | none => rfl
      | some inner => exact congrArg some (ih n hn inner hi)
    exact congrArg n.withInner hinner

theorem addNodes_concat {add : Graph → Node Graph → Except EditError Graph}
    {front : List (Node Graph)} {n : Node Graph} {h : Graph}
    (hadd : add (addNodes add front) n = .ok h) : addNodes add (front ++ [n]) = h := by
  rw [addNodes, List.foldl_append, List.foldl_cons, List.foldl_nil]
  simp only [addNodes] at hadd
  simp only [hadd]

theorem addLinks_concat {g h : Graph} {front : List Link} {l : Link}
    (hconnect : (addLinks g front).connectLink l = .ok h) : addLinks g (front ++ [l]) = h := by
  rw [addLinks, List.foldl_append, List.foldl_cons, List.foldl_nil]
  simp only [addLinks] at hconnect
  simp only [hconnect]

/-- Nodes in ascending order are taken one after the other. -/
theorem addNodes_eq {add : Graph → Node Graph → Except EditError Graph} {nodes : List (Node Graph)}
    (hasc : nodes.Pairwise (·.id < ·.id)) (hadd : ∀ n ∈ nodes, ∀ g, add g n = g.insert n) :
    addNodes add nodes = ⟨nodes, []⟩ := by
  induction nodes using List.reverseRecOn with
  | nil => rfl
  | append_singleton front n ih =>
    obtain ⟨hfront, -, hbefore⟩ := List.pairwise_append.1 hasc
    have hsofar := ih hfront fun m hm => hadd m (List.mem_append_left _ hm)
    refine addNodes_concat ?_
    rw [hsofar, hadd n (by simp), Graph.insert_of_lt fun m hm => hbefore m hm n List.mem_cons_self]

/-- Links of which no two enter the same input are made one after the other. -/
theorem addLinks_eq {nodes : List (Node Graph)} (hasc : nodes.Pairwise (·.id < ·.id))
    {links : List Link} (hjoined : ∀ l ∈ links, (⟨nodes, []⟩ : Graph).Joins l)
    (hsingle : links.Pairwise (·.target ≠ ·.target)) :
    addLinks ⟨nodes, []⟩ links = ⟨nodes, links⟩ := by
  induction links using List.reverseRecOn with
  | nil => rfl
  | append_singleton front l ih =>
    obtain ⟨hfront, -, hfree⟩ := List.pairwise_append.1 hsingle
    have hsofar := ih (fun k hk => hjoined k (List.mem_append_left _ hk)) hfront
    have hl : (⟨nodes, front⟩ : Graph).Joins l := (Graph.joins_congr rfl).1 (hjoined l (by simp))
    have hconnect := Graph.connect_of_joins hasc hl fun k hk => hfree k hk l List.mem_cons_self
    refine addLinks_concat ?_
    rw [hsofar, Graph.connectLink, hconnect]
    rfl

/-- The graph that is rebuilt from its own nodes and its links regrouped. -/
theorem addLinks_addNodes {add : Graph → Node Graph → Except EditError Graph} {g : Graph}
    (hg : g.WellFormed) (hadd : ∀ n ∈ g.regroup.nodes, ∀ h, add h n = h.insert n) :
    addLinks (addNodes add g.regroup.nodes) (g.innerLinks ++ g.boundaryLinks) = g.regroup := by
  have hsound := hg.regroup.sound
  rw [addNodes_eq hsound.ascending hadd, ← g.links_regroup,
    addLinks_eq hsound.ascending (fun l hl => (Graph.joins_congr rfl).1 (hsound.joined l hl))
      hsound.single]
  cases g.regroup with
  | mk nodes links => rfl

theorem entries_ofGraph {g : Graph} {read : GraphRecord → Graph}
    (hread : ∀ n ∈ g.nodes, ∀ inner, n.inner = some inner → read (ofGraph inner) = inner.regroup) :
    ((ofGraph g).nodes.map fun n => (n, n.inner.map read)).map
      (fun (n, inner) => n.withInner inner) = g.regroup.nodes := by
  rw [ofGraph_eq, Graph.nodes_regroup, List.map_map, List.map_map]
  refine List.map_congr_left fun n hn => ?_
  have hinner : (n.inner.map ofGraph).map read = n.inner.map Graph.regroup := by
    cases hi : n.inner with
    | none => rfl
    | some inner => exact congrArg some (hread n hn inner hi)
  exact congrArg n.withInner hinner

theorem toNestedGraph_ofGraph {g : Graph} (hg : g.WellFormed) :
    (ofGraph g).toNestedGraph = g.regroup := by
  induction g using Graph.nestedInduction with
  | step g ih =>
    have hentries := entries_ofGraph fun n hn inner hi => ih n hn inner hi (hg.nested hn hi)
    rw [toNestedGraph] at hentries ⊢
    rw [fold_eq, rebuild, hentries, ofGraph_eq]
    exact addLinks_addNodes hg fun _ _ _ => rfl

/-- The stored form of a graph without boundary nodes stands for the graph with the links of its
nested graphs regrouped. -/
theorem toGraph_ofGraph {g : Graph} (hg : g.WellFormed) (hplain : g.Plain) :
    (ofGraph g).toGraph = g.regroup := by
  have hentries := entries_ofGraph fun n hn inner hi => toNestedGraph_ofGraph (hg.nested hn hi)
  have hplain' : g.regroup.Plain := hplain.congr (Graph.boundaryIds_congr g.roster_regroup)
  rw [toGraph, rebuild, hentries, ofGraph_eq]
  refine addLinks_addNodes hg fun n hn h => ?_
  rw [Graph.add, hplain'.isBoundary hn]
  rfl

end GraphRecord
end FlowGraph
