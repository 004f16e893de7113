import Mathlib.Data.List.Flatten
import Mathlib.Data.List.Perm.Subperm
import FlowGraph.Proofs.FlowReach

/-! What is written, node by node, with the groups that each node is in. The steps of a graph are at
nodes of that graph, each once; a group adds the steps of its nested graph where flow comes to it,
and is a routine of its own where none does. So no node of any level is written twice. -/
namespace FlowGraph

theorem eq_of_concat_isPrefix {path other : List NodeId} {a b : NodeId} (ha : path ++ [a] <+: other)
    (hb : path ++ [b] <+: other) : a = b := by
  have h := List.prefix_of_prefix_length_le ha hb (by simp)
  simpa using (List.prefix_append_right_inj path).1 h

theorem not_concat_isPrefix {path : List NodeId} {id : NodeId} : ¬path ++ [id] <+: path := by
  intro h
  have hlength := h.length_le
  rw [List.length_append, List.length_singleton] at hlength
  omega

namespace Outline

/-! ### Traces -/

mutual

/-- The nodes that a step and what follows it are at, in the order of the text. Each stands behind
the ids of the groups that it is in, the outermost first. -/
def trace (path : List NodeId) : Outline → List (List NodeId × NodeId)
  | step _ node _ _ branches next =>
    (path, node.id) :: (branchTraces path branches ++ traces path next)
  | inlined node body next =>
    (path, node.id) :: (traces (path ++ [node.id]) body ++ traces path next)

def traces (path : List NodeId) : List Outline → List (List NodeId × NodeId)
  | [] => []
  | o :: os => trace path o ++ traces path os

def branchTraces (path : List NodeId) : List (List Outline) → List (List NodeId × NodeId)
  | [] => []
  | b :: bs => traces path b ++ branchTraces path bs

end

theorem traces_eq (path : List NodeId) (os : List Outline) :
    traces path os = os.flatMap (trace path) := by
  induction os with
  | nil => rfl
  | cons o os ih => rw [traces, ih, List.flatMap_cons]

theorem branchTraces_eq (path : List NodeId) (bs : List (List Outline)) :
    branchTraces path bs = bs.flatMap (traces path) := by
  induction bs with
  | nil => rfl
  | cons b bs ih => rw [branchTraces, ih, List.flatMap_cons]

theorem traces_flatMap {α : Type} (path : List NodeId) (xs : List α) (f : α → List Outline) :
    traces path (xs.flatMap f) = xs.flatMap fun x => traces path (f x) := by
  simp only [traces_eq, List.flatMap_assoc]

theorem traces_append (path : List NodeId) (os os' : List Outline) :
    traces path (os ++ os') = traces path os ++ traces path os' := by
  simp only [traces_eq, List.flatMap_append]

mutual

/-- What is written is inside the groups around it. -/
theorem path_isPrefix_of_mem_trace {path : List NodeId} {p : List NodeId × NodeId} :
    ∀ {o : Outline}, p ∈ trace path o → path <+: p.1
  | step _ _ _ _ branches next, hp => by
    rw [trace] at hp
    rcases List.mem_cons.1 hp with rfl | hp
    · exact List.prefix_refl _
    · exact (List.mem_append.1 hp).elim path_isPrefix_of_mem_branchTraces
        path_isPrefix_of_mem_traces
  | inlined node body next, hp => by
    rw [trace] at hp
    rcases List.mem_cons.1 hp with rfl | hp
    · exact List.prefix_refl _
    · rcases List.mem_append.1 hp with hp | hp
      · exact (List.prefix_append _ _).trans (path_isPrefix_of_mem_traces hp)
      · exact path_isPrefix_of_mem_traces hp

theorem path_isPrefix_of_mem_traces {path : List NodeId} {p : List NodeId × NodeId} :
    ∀ {os : List Outline}, p ∈ traces path os → path <+: p.1
  | [], hp => by cases hp
  | o :: os, hp => by
    rw [traces] at hp
    exact (List.mem_append.1 hp).elim path_isPrefix_of_mem_trace path_isPrefix_of_mem_traces

theorem path_isPrefix_of_mem_branchTraces {path : List NodeId} {p : List NodeId × NodeId} :
    ∀ {bs : List (List Outline)}, p ∈ branchTraces path bs → path <+: p.1
  | [], hp => by cases hp
  | b :: bs, hp => by
    rw [branchTraces] at hp
    exact (List.mem_append.1 hp).elim path_isPrefix_of_mem_traces path_isPrefix_of_mem_branchTraces

end

end Outline

namespace Scope

def inside (s : Scope) (body : Node Graph → List Outline) (node : Node Graph) : List Outline :=
  if node.isGroup && s.graph.hasIncomingFlow node then body node else []

theorem trace_stepAt (s : Scope) (body : Node Graph → List Outline)
    {walk : List NodeId → List Outline} (hwalk : walk [] = []) (template : Template)
    (path : List NodeId) (node : Node Graph) :
    (s.stepAt body walk template node).trace path =
      (path, node.id) :: (Outline.traces (path ++ [node.id]) (s.inside body node) ++
        node.leaving.flatMap fun port => Outline.traces path (walk (s.targets node.id port))) := by
  have hnil : Outline.traces path (walk []) = [] := by rw [hwalk, Outline.traces]
  rw [s.flatMap_leaving node (f := fun ids => Outline.traces path (walk ids)) hnil, stepAt, inside]
  cases node.isGroup with
  | true =>
    rw [if_pos rfl, if_pos rfl, Outline.trace, List.nil_append, Bool.true_and]
  | false =>
    rw [if_neg (by simp), if_neg (by simp), if_neg (by simp), Outline.trace,
      Outline.branchTraces_eq, List.flatMap_map, Outline.traces, List.nil_append]

/-! ### Induction over runs -/

section Induction

variable {s : Scope} {body : Node Graph → List Outline} {P : List Outline → Prop}

theorem chain_induction {step : List NodeId → NodeId → Option Outline × List NodeId} (hnil : P [])
    (happend : ∀ os os', P os → P os' → P (os ++ os'))
    (hstep : ∀ left id, P (step left id).1.toList) (left ids : List NodeId) :
    P (chain step left ids).1 := by
  induction ids generalizing left with
  | nil => exact hnil
  | cons id ids ih => exact happend _ _ (hstep left id) (ih _)

/-- What holds of no steps, of steps taken together, and of a step at a node if it holds of all that
goes on from there, holds of what a run gives. -/
theorem outline_induction (hnil : P []) (happend : ∀ os os', P os → P os' → P (os ++ os'))
    (hstep : ∀ walk template, ∀ node ∈ s.graph.nodes, walk [] = [] → (∀ ids, P (walk ids)) →
      P [s.stepAt body walk template node]) (entries : List NodeId) :
        P (s.outline body entries) := by
  refine chain_induction hnil happend (fun left id => ?_) _ entries
  generalize s.graph.ids.length = bound
  induction bound generalizing left id with
  | zero => exact hnil
  | succ bound ih =>
    by_cases hid : id ∈ left
    · cases hfind : s.graph.find? id with
      | none =>
        rw [visit_of_unknown hid (by rw [hfind]; rfl)]
        exact hnil
      | some node =>
        cases htemplate : s.catalog.find? node.type with
        | none =>
          rw [visit_of_unknown hid (by rw [hfind]; exact htemplate)]
          exact hnil
        | some template =>
          rw [visit_of_mem hid hfind htemplate]
          exact hstep _ template node (Graph.find?_mem hfind).1 rfl fun ids => chain_induction hnil
            happend ih _ ids
    · rw [visit_of_not_mem hid]
      exact hnil

end Induction

/-- What is written is the nodes that the steps are at, all of this graph, and what is inside of
each. -/
structure Splits (s : Scope) (body : Node Graph → List Outline) (path : List NodeId)
    (os : List Outline) : Prop where
  mem : ∀ n ∈ Outline.nodesOf os, n ∈ s.graph.nodes
  perm : (Outline.traces path os).Perm ((Outline.nodesOf os).map (fun n => (path, n.id)) ++
    (Outline.nodesOf os).flatMap fun n => Outline.traces (path ++ [n.id]) (s.inside body n))

namespace Splits

variable {s : Scope} {body : Node Graph → List Outline} {path : List NodeId} {os os' : List Outline}

theorem nil : s.Splits body path [] := ⟨fun _ hn => absurd hn List.not_mem_nil, .refl _⟩

theorem append (h : s.Splits body path os) (h' : s.Splits body path os') :
    s.Splits body path (os ++ os') where
  mem n hn := by
    rw [Outline.nodesOf_append] at hn
    exact (List.mem_append.1 hn).elim (h.mem n) (h'.mem n)
  perm := by
    rw [Outline.traces_append, Outline.nodesOf_append, List.map_append, List.flatMap_append]
    refine (h.perm.append h'.perm).trans ?_
    simp only [List.append_assoc]
    exact (List.perm_append_comm_assoc _ _ _).append_left _

theorem flatMap {α : Type} {xs : List α} {f : α → List Outline}
    (h : ∀ x ∈ xs, s.Splits body path (f x)) : s.Splits body path (xs.flatMap f) := by
  induction xs with
  | nil => exact nil
  | cons x xs ih =>
    rw [List.flatMap_cons]
    exact (h x List.mem_cons_self).append (ih fun y hy => h y (List.mem_cons_of_mem _ hy))

theorem stepAt {walk : List NodeId → List Outline} (hwalk : walk [] = [])
    (hall : ∀ ids, s.Splits body path (walk ids)) (template : Template) {node : Node Graph}
    (hnode : node ∈ s.graph.nodes) : s.Splits body path [s.stepAt body walk template node] where
  mem n hn := by
    rw [Outline.nodesOf, nodes_stepAt _ _ hwalk, Outline.nodesOf, List.append_nil] at hn
    rcases List.mem_cons.1 hn with rfl | hn
    · exact hnode
    · obtain ⟨port, -, hn⟩ := List.mem_flatMap.1 hn
      exact (hall _).mem n hn
  perm := by
    rw [Outline.traces, trace_stepAt _ _ hwalk, Outline.traces, Outline.nodesOf,
      nodes_stepAt _ _ hwalk, Outline.nodesOf, List.append_nil, List.append_nil, List.map_cons,
      List.flatMap_cons, List.cons_append, List.map_flatMap, List.flatMap_assoc]
    refine .cons _ (.trans ?_ (List.perm_append_comm_assoc _ _ _))
    exact ((List.Perm.flatMap_left _ fun port _ => (hall _).perm).trans
      (List.flatMap_append_perm _ _ _).symm).append_left _

theorem outline (entries : List NodeId) : s.Splits body path (s.outline body entries) :=
  outline_induction nil (fun _ _ h h' => h.append h') (fun _ template _ hnode hwalk hall =>
    .stepAt hwalk hall template hnode) entries

/-- At the level of the graph itself, the nodes of the steps are written. -/
theorem mem_traces_iff (h : s.Splits body path os) {id : NodeId} :
    (path, id) ∈ Outline.traces path os ↔ id ∈ Outline.ids os := by
  rw [h.perm.mem_iff, List.mem_append, Outline.ids, List.mem_map, List.mem_map]
  constructor
  · rintro (⟨n, hn, heq⟩ | hinside)
    · exact ⟨n, hn, (Prod.mk.inj heq).2⟩
    · obtain ⟨n, -, hp⟩ := List.mem_flatMap.1 hinside
      exact (not_concat_isPrefix (Outline.path_isPrefix_of_mem_traces hp)).elim
  · rintro ⟨n, hn, rfl⟩
    exact .inl ⟨n, hn, rfl⟩

end Splits

/-- What the variables of a graph start with that is in these groups. -/
def stemAt (path : List NodeId) : String := path.foldl innerStem ""

theorem stemAt_concat (path : List NodeId) (id : NodeId) :
    stemAt (path ++ [id]) = innerStem (stemAt path) id := by
  rw [stemAt, List.foldl_append]
  rfl

end Scope

/-! ### Groups at their places -/

/-- A group with the graph that it is in and the ids of the groups around that graph. -/
structure Placed where
  path : List NodeId
  graph : Graph
  node : Node Graph

namespace Placed

def inside (q : Placed) : List NodeId := q.path ++ [q.node.id]

/-- Whether no flow enters the group, so that it is a routine of its own. -/
def isFree (q : Placed) : Bool := !q.graph.hasIncomingFlow q.node

def outline (q : Placed) : List Outline :=
  Scope.groupOutline ⟨.standard, q.graph, Scope.stemAt q.path⟩ q.node

theorem outline_of_none {q : Placed} (hi : q.node.inner = none) : q.outline = [] := by
  rw [outline, Scope.groupOutline, hi]

theorem outline_of_some {q : Placed} {inner : Graph} (hi : q.node.inner = some inner) :
    q.outline = Scope.nestedOutline .standard inner (Scope.stemAt q.inside) := by
  rw [outline, Scope.groupOutline, hi, inside, Scope.stemAt_concat]

end Placed

namespace Graph

def groups : Graph → List NodeId → List Placed :=
  fold fun nodes links path => nodes.flatMap fun e =>
  if e.1.isGroup then
    ⟨path, ⟨nodes.map Prod.fst, links⟩, e.1⟩ ::
      (e.2.map fun below => below (path ++ [e.1.id])).getD []
  else []

theorem groups_eq (g : Graph) (path : List NodeId) : g.groups path = g.nodes.flatMap fun n =>
    if n.isGroup then
      ⟨path, g, n⟩ :: (n.inner.map fun inner => inner.groups (path ++ [n.id])).getD []
    else [] := by
  have hnodes : ∀ f : Graph → List NodeId → List Placed,
      (g.nodes.map fun n => (n, n.inner.map f)).map Prod.fst = g.nodes := by
    simp [Function.comp_def]
  rw [groups, fold_eq]
  simp only [hnodes, List.flatMap_map, Option.map_map]
  obtain ⟨nodes, links⟩ := g
  rfl

theorem mem_groups_cases {g : Graph} {path : List NodeId} {q : Placed} (hq : q ∈ g.groups path) :
    ∃ n ∈ g.nodes, n.isGroup = true ∧ (q = ⟨path, g, n⟩ ∨
      ∃ inner, n.inner = some inner ∧ q ∈ inner.groups (path ++ [n.id])) := by
  rw [groups_eq] at hq
  obtain ⟨n, hn, hq⟩ := List.mem_flatMap.1 hq
  cases hgroup : n.isGroup with
  | false => simp [hgroup] at hq
  | true =>
    rw [hgroup, if_pos rfl] at hq
    refine ⟨n, hn, hgroup, (List.mem_cons.1 hq).imp_right fun hq => ?_⟩
    cases hi : n.inner with
    | none => simp [hi] at hq
    | some inner =>
      rw [hi] at hq
      exact ⟨inner, rfl, hq⟩

theorem path_isPrefix_of_mem_groups {g : Graph} {path : List NodeId} {q : Placed}
    (hq : q ∈ g.groups path) : path <+: q.path := by
  induction g using nestedInduction generalizing path with
  | step g ih =>
    obtain ⟨n, hn, -, rfl | ⟨inner, hi, hq⟩⟩ := mem_groups_cases hq
    · exact List.prefix_refl _
    · exact (List.prefix_append _ _).trans (ih n hn inner hi hq)

/-- What is made of the groups that no flow enters, node by node. -/
theorem flatMap_free_eq {α : Type} (f : Placed → List α) (g : Graph) (path : List NodeId) :
    ((g.groups path).filter (·.isFree)).flatMap f = g.nodes.flatMap fun n =>
      if n.isGroup then
        (if g.hasIncomingFlow n then [] else f ⟨path, g, n⟩) ++
          (n.inner.map fun inner =>
            ((inner.groups (path ++ [n.id])).filter (·.isFree)).flatMap f).getD []
      else [] := by
  rw [groups_eq, List.filter_flatMap, List.flatMap_assoc]
  congr 1
  funext n
  have hbelow :
      (((n.inner.map fun inner =>
        inner.groups (path ++ [n.id])).getD []).filter (·.isFree)).flatMap f =
      (n.inner.map fun inner =>
        ((inner.groups (path ++ [n.id])).filter (·.isFree)).flatMap f).getD [] := by
    cases n.inner <;> rfl
  cases n.isGroup with
  | false => rfl
  | true =>
    rw [if_pos rfl, if_pos rfl, List.filter_cons]
    cases hfed : g.hasIncomingFlow n with
    | true => rw [if_neg (by simp [Placed.isFree, hfed]), hbelow, if_pos rfl, List.nil_append]
    | false =>
      rw [if_pos (by simp [Placed.isFree, hfed]), List.flatMap_cons, hbelow, if_neg (by simp)]

def routineTraces (g : Graph) (path : List NodeId) : List (List NodeId × NodeId) :=
  ((g.groups path).filter (·.isFree)).flatMap fun q => Outline.traces q.inside q.outline

/-- What is written of the inside of a node in all: its own steps and those of routines further
inside. -/
def tracesBelow (n : Node Graph) (path : List NodeId) : List (List NodeId × NodeId) :=
  (n.inner.map fun inner =>
    Outline.traces (path ++ [n.id])
      (Scope.nestedOutline .standard inner (Scope.stemAt (path ++ [n.id]))) ++
      inner.routineTraces (path ++ [n.id])).getD []

/-! ### Nothing is written twice -/

/-- What is asked of a graph at its own level: all types are known, only groups have nested graphs,
a node has one flow input at most, and a node that a section is anchored at has none. -/
structure Orderly (g : Graph) : Prop where
  known : ∀ n ∈ g.nodes, Catalog.standard.contains n.type = true
  nested : ∀ n ∈ g.nodes, n.inner.isSome = true → n.isGroup = true
  entry : g.SingleEntry
  anchors : ∀ n ∈ g.nodes, ∀ t, Catalog.standard.find? n.type = some t →
    (t.anchor n).isSome = true → n.inputs.countP Label.isFlow = 0

variable {g : Graph}

theorem orderly_of_all (h : g.nodes.all (fun n => Catalog.standard.contains n.type &&
    (n.inner.isNone || n.isGroup) && decide (n.inputs.countP Label.isFlow ≤ 1) &&
    (Catalog.standard.find? n.type).all fun t => (t.anchor n).isNone || n.inputs.countP
      Label.isFlow == 0) = true) :
    g.Orderly := by
  simp only [List.all_eq_true, Bool.and_eq_true, Bool.or_eq_true, decide_eq_true_eq,
    Option.isNone_iff_eq_none] at h
  refine ⟨fun n hn => (h n hn).1.1.1, fun n hn hinner => ?_, fun n hn => (h n hn).1.2,
    fun n hn t ht hanchor => ?_⟩
  · exact (h n hn).1.1.2.resolve_left (Option.isSome_iff_ne_none.1 hinner)
  · have hall := (h n hn).2
    rw [ht, Option.all_some, Bool.or_eq_true, beq_iff_eq, Option.isNone_iff_eq_none] at hall
    exact hall.resolve_left (Option.isSome_iff_ne_none.1 hanchor)

/-- A group is written where flow comes to it or as a routine, and not both. -/
theorem tracesBelow_eq (hg : g.Orderly) {n : Node Graph} (hn : n ∈ g.nodes) (path : List NodeId) :
    Outline.traces (path ++ [n.id]) (Scope.inside ⟨.standard, g, Scope.stemAt path⟩
        (Scope.groupOutline ⟨.standard, g, Scope.stemAt path⟩) n) ++
      (if n.isGroup then
        (if g.hasIncomingFlow n then []
          else Outline.traces (path ++ [n.id])
            (Scope.groupOutline ⟨.standard, g, Scope.stemAt path⟩ n)) ++
          (n.inner.map fun inner => inner.routineTraces (path ++ [n.id])).getD []
      else []) = tracesBelow n path := by
  have hinner :
      Outline.traces (path ++ [n.id]) (Scope.groupOutline ⟨.standard, g, Scope.stemAt path⟩ n) ++
      (n.inner.map fun inner => inner.routineTraces (path ++ [n.id])).getD [] =
        tracesBelow n path := by
    rw [tracesBelow, Scope.groupOutline, Scope.stemAt_concat]
    cases n.inner <;> rfl
  cases hgroup : n.isGroup with
  | false =>
    have hnone : n.inner = none := by
      by_contra hsome
      simp [hg.nested n hn (Option.isSome_iff_ne_none.2 hsome)] at hgroup
    simp [Scope.inside, hgroup, tracesBelow, hnone, Outline.traces]
  | true =>
    cases hfed : g.hasIncomingFlow n with
    | true => simp [Scope.inside, hgroup, hfed, ← hinner]
    | false => simp [Scope.inside, hgroup, hfed, ← hinner, Outline.traces]

/-- What steps at different nodes and the routines write is among the nodes themselves and what is
written of the inside of each node. -/
theorem subperm_tracesBelow (hg : g.Orderly) {path : List NodeId} {os : List Outline}
    (hsplits : Scope.Splits ⟨.standard, g, Scope.stemAt path⟩
      (Scope.groupOutline ⟨.standard, g, Scope.stemAt path⟩) path os)
      (hnodup : (Outline.ids os).Nodup) :
    (Outline.traces path os ++ g.routineTraces path).Subperm
      ((Outline.nodesOf os).map (fun n => (path, n.id)) ++ g.nodes.flatMap
        (tracesBelow · path)) := by
  obtain ⟨taken, hperm, hsub⟩ : (Outline.nodesOf os).Subperm g.nodes :=
    hnodup.of_map.subperm hsplits.mem
  have hbelow : g.nodes.flatMap (tracesBelow · path) = g.nodes.flatMap _ :=
    List.flatMap_congr fun n hn => (tracesBelow_eq hg hn path).symm
  rw [hbelow, routineTraces, flatMap_free_eq]
  refine ((hsplits.perm.append_right _).trans (.of_eq (List.append_assoc _ _ _))).subperm.trans ?_
  refine .append (.refl _) (.trans (.append ?_ (.refl _)) (List.flatMap_append_perm _ _ _).subperm)
  exact ⟨taken.flatMap _, hperm.flatMap_right _, hsub.flatMap _⟩

/-- The steps of a nested graph are at the nodes that flow reaches from where it enters, each
once. -/
theorem nestedOutline_spec (hg : g.Sound) (horderly : g.Orderly) (stem : String) :
    (Outline.ids (Scope.nestedOutline .standard g stem)).Nodup ∧
      ∀ x, x ∈ Outline.ids (Scope.nestedOutline .standard g stem) ↔
        ∃ a ∈ Scope.entries g, Relation.ReflTransGen g.Leads a x := by
  obtain ⟨hnodup, hmem, hfirst⟩ := Scope.entries_spec hg horderly.entry
  rw [Scope.nestedOutline_eq]
  exact Scope.outline_covers hg horderly.entry horderly.known hnodup hmem hfirst

theorem nestedOutline_splits (path : List NodeId) :
    Scope.Splits ⟨.standard, g, Scope.stemAt path⟩
      (Scope.groupOutline ⟨.standard, g, Scope.stemAt path⟩) path
      (Scope.nestedOutline .standard g (Scope.stemAt path)) := by
  rw [Scope.nestedOutline_eq]
  exact .outline _

theorem path_isPrefix_of_mem_tracesBelow {n : Node Graph} {path : List NodeId}
    {p : List NodeId × NodeId} (hp : p ∈ tracesBelow n path) : path ++ [n.id] <+: p.1 := by
  rw [tracesBelow] at hp
  cases hi : n.inner with
  | none => simp [hi] at hp
  | some inner =>
    rw [hi, Option.map_some, Option.getD_some, List.mem_append] at hp
    rcases hp with hp | hp
    · exact Outline.path_isPrefix_of_mem_traces hp
    · obtain ⟨q, hq, hp⟩ := List.mem_flatMap.1 hp
      exact ((path_isPrefix_of_mem_groups (List.mem_of_mem_filter hq)).trans
        (List.prefix_append _ _)).trans
        (Outline.path_isPrefix_of_mem_traces hp)

/-- No node of any level is written twice. -/
theorem nodup_traces (hwf : g.WellFormed) (horderly : g.Everywhere Orderly) {path : List NodeId}
    {os : List Outline} (hsplits : Scope.Splits ⟨.standard, g, Scope.stemAt path⟩
      (Scope.groupOutline ⟨.standard, g, Scope.stemAt path⟩) path os)
      (hnodup : (Outline.ids os).Nodup) :
    (Outline.traces path os ++ g.routineTraces path).Nodup := by
  induction g using nestedInduction generalizing path os with
  | step g ih =>
    have hbelow : ∀ n ∈ g.nodes, (tracesBelow n path).Nodup := by
      intro n hn
      rw [tracesBelow]
      cases hi : n.inner with
      | none => exact .nil
      | some inner =>
        have hwf' := hwf.nested hn hi
        have horderly' := horderly.inside hn hi
        exact ih n hn inner hi hwf' horderly' (nestedOutline_splits _)
          (nestedOutline_spec hwf'.sound horderly'.here _).1
    have hown : ((Outline.nodesOf os).map fun n => (path, n.id)).Nodup := by
      have hmap := hnodup.map (f := Prod.mk path) fun _ _ heq => (Prod.mk.inj heq).2
      rwa [Outline.ids, List.map_map] at hmap
    have hinside : (g.nodes.flatMap (tracesBelow · path)).Nodup := by
      refine List.nodup_flatMap.2 ⟨hbelow, hwf.sound.ascending.imp fun {n m} hlt => ?_⟩
      intro p hp hp'
      rw [eq_of_concat_isPrefix (path_isPrefix_of_mem_tracesBelow hp)
        (path_isPrefix_of_mem_tracesBelow hp')] at hlt
      exact UInt32.lt_irrefl _ hlt
    obtain ⟨taken, hperm, hsub⟩ := subperm_tracesBelow horderly.here hsplits hnodup
    refine hperm.nodup_iff.1 (List.Nodup.sublist hsub (List.nodup_append.2 ⟨hown, hinside, ?_⟩))
    rintro p hp _ hp' rfl
    -- the inside of a node is further inside than the node
    obtain ⟨n, -, rfl⟩ := List.mem_map.1 hp
    obtain ⟨m, -, hp'⟩ := List.mem_flatMap.1 hp'
    exact not_concat_isPrefix (path_isPrefix_of_mem_tracesBelow hp')

/-! ### Places -/

def Entered (g : Graph) (path : List NodeId) : Prop :=
  ∃ front k, g.inner? front = some k ∧ ∃ n ∈ k.nodes, k.hasIncomingFlow n = true ∧
    path = front ++ [n.id]

theorem Entered.append {path rest : List NodeId} {inner : Graph}
    (hinner : g.inner? path = some inner) (h : inner.Entered rest) : g.Entered (path ++ rest) := by
  obtain ⟨front, k, hk, n, hn, hfed, rfl⟩ := h
  refine ⟨path ++ front, k, ?_, n, hn, hfed, (List.append_assoc _ _ _).symm⟩
  rw [inner?_append, hinner, Option.bind_some, hk]

/-- What steps write further inside is in groups that flow enters. -/
theorem entered_of_mem_traces (hwf : g.WellFormed) {path : List NodeId} {os : List Outline}
    (hsplits : Scope.Splits ⟨.standard, g, Scope.stemAt path⟩
      (Scope.groupOutline ⟨.standard, g, Scope.stemAt path⟩) path os) {p : List NodeId × NodeId}
    (hp : p ∈ Outline.traces path os) :
    ∃ rest, p.1 = path ++ rest ∧ (rest = [] ∨ g.Entered rest) := by
  induction g using nestedInduction generalizing path os with
  | step g ih =>
    rcases List.mem_append.1 (hsplits.perm.mem_iff.1 hp) with hp | hp
    · obtain ⟨n, -, rfl⟩ := List.mem_map.1 hp
      exact ⟨[], (List.append_nil _).symm, .inl rfl⟩
    obtain ⟨n, hmem, hp⟩ := List.mem_flatMap.1 hp
    have hn : n ∈ g.nodes := hsplits.mem n hmem
    cases hfed : n.isGroup && g.hasIncomingFlow n with
    | false => simp [Scope.inside, hfed, Outline.traces] at hp
    | true =>
      rw [Scope.inside, if_pos hfed, Scope.groupOutline] at hp
      cases hi : n.inner with
      | none => simp [hi, Outline.traces] at hp
      | some inner =>
        simp only [hi, ← Scope.stemAt_concat] at hp
        obtain ⟨rest, heq, hrest⟩ := ih n hn inner hi (hwf.nested hn hi) (nestedOutline_splits _) hp
        refine ⟨n.id :: rest, by rw [heq, List.append_assoc]; rfl, .inr ?_⟩
        rcases hrest with rfl | ⟨front, k, hk, m, hm, hmfed, rfl⟩
        · exact ⟨[], g, rfl, n, hn, (Bool.and_eq_true_iff.1 hfed).2, rfl⟩
        · exact ⟨n.id :: front, k, by rw [inner?_cons hwf.sound hn hi, hk], m, hm, hmfed, rfl⟩

/-- The groups at any depth, by their places. -/
theorem mem_groups_iff (hwf : g.WellFormed) (horderly : g.Everywhere Orderly) {path : List NodeId}
    {q : Placed} :
    q ∈ g.groups path ↔ ∃ rest, q.path = path ++ rest ∧ g.inner? rest = some q.graph ∧
      q.node ∈ q.graph.nodes ∧ q.node.isGroup = true := by
  induction g using nestedInduction generalizing path with
  | step g ih =>
    constructor
    · intro hq
      obtain ⟨n, hn, hgroup, rfl | ⟨inner, hi, hq⟩⟩ := mem_groups_cases hq
      · exact ⟨[], (List.append_nil _).symm, rfl, hn, hgroup⟩
      obtain ⟨rest, hpath, hgraph, hnode⟩ :=
        (ih n hn inner hi (hwf.nested hn hi) (horderly.inside hn hi)).1 hq
      refine ⟨n.id :: rest, by rw [hpath, List.append_assoc]; rfl, ?_, hnode⟩
      rw [inner?_cons hwf.sound hn hi, hgraph]
    · rintro ⟨rest, hpath, hgraph, hnode, hgroup⟩
      rw [groups_eq, List.mem_flatMap]
      cases rest with
      | nil =>
        obtain ⟨qpath, k, n⟩ := q
        obtain rfl : g = k := Option.some.inj hgraph
        obtain rfl : qpath = path := by simpa using hpath
        exact ⟨n, hnode, by rw [if_pos hgroup]; exact List.mem_cons_self⟩
      | cons id rest =>
        obtain ⟨n, hn, rfl, inner, hi, hk⟩ := exists_of_inner?_cons hgraph
        have hq : q ∈ inner.groups (path ++ [n.id]) :=
          (ih n hn inner hi (hwf.nested hn hi) (horderly.inside hn hi)).2
          ⟨rest, by rw [hpath, List.append_assoc]; rfl, hk, hnode, hgroup⟩
        refine ⟨n, hn, ?_⟩
        rw [if_pos (horderly.here.nested n hn (by rw [hi]; rfl)), hi]
        exact List.mem_cons_of_mem _ hq

theorem mem_groups_nil (hwf : g.WellFormed) (horderly : g.Everywhere Orderly) {q : Placed} :
    q ∈ g.groups [] ↔ g.inner? q.path = some q.graph ∧ q.node ∈ q.graph.nodes ∧
      q.node.isGroup = true := by
  rw [mem_groups_iff hwf horderly]
  constructor
  · rintro ⟨rest, hpath, h⟩
    rw [hpath]
    exact h
  · exact fun h => ⟨q.path, rfl, h⟩

theorem inner?_inside (hwf : g.WellFormed) (horderly : g.Everywhere Orderly) {q : Placed}
    (hq : q ∈ g.groups []) {inner : Graph} (hi : q.node.inner = some inner) :
    g.inner? q.inside = some inner := by
  obtain ⟨hgraph, hnode, -⟩ := (mem_groups_nil hwf horderly).1 hq
  rw [Placed.inside, inner?_append, hgraph, Option.bind_some,
    inner?_cons (hwf.inner? hgraph).here hnode hi, inner?]

/-- A place belongs to one group. -/
theorem eq_of_inside_eq (hwf : g.WellFormed) (horderly : g.Everywhere Orderly) {q r : Placed}
    (hq : q ∈ g.groups []) (hr : r ∈ g.groups []) (h : q.inside = r.inside) : q = r := by
  obtain ⟨hqgraph, hqnode, -⟩ := (mem_groups_nil hwf horderly).1 hq
  obtain ⟨hrgraph, hrnode, -⟩ := (mem_groups_nil hwf horderly).1 hr
  obtain ⟨hpath, hid⟩ := List.append_inj' h rfl
  obtain ⟨qpath, qgraph, qnode⟩ := q
  obtain ⟨rpath, rgraph, rnode⟩ := r
  obtain rfl : qpath = rpath := hpath
  obtain rfl : qgraph = rgraph := Option.some.inj (hqgraph.symm.trans hrgraph)
  obtain rfl : qnode = rnode :=
    eq_of_mem_of_id_eq (hwf.inner? hqgraph).here.ascending hqnode hrnode (List.singleton_inj.1 hid)
  rfl

theorem not_entered_of_isFree (hwf : g.WellFormed) (horderly : g.Everywhere Orderly) {q : Placed}
    (hq : q ∈ g.groups []) (hfree : q.isFree = true) : ¬g.Entered q.inside := by
  rintro ⟨front, k, hk, n, hn, hfed, heq⟩
  obtain ⟨hgraph, hnode, -⟩ := (mem_groups_nil hwf horderly).1 hq
  obtain ⟨rfl, hid⟩ := List.append_inj' heq rfl
  obtain rfl : q.graph = k := Option.some.inj (hgraph.symm.trans hk)
  obtain rfl :=
    eq_of_mem_of_id_eq (hwf.inner? hgraph).here.ascending hnode hn (List.singleton_inj.1 hid)
  simp [Placed.isFree, hfed] at hfree

/-- No group is listed twice. -/
theorem nodup_groups (hwf : g.WellFormed) (path : List NodeId) :
    ((g.groups path).map Placed.inside).Nodup := by
  induction g using nestedInduction generalizing path with
  | step g ih =>
    have hbelow : ∀ n ∈ g.nodes,
        (((n.inner.map fun inner => inner.groups (path ++ [n.id])).getD []).map
          Placed.inside).Nodup ∧
          ∀ q ∈ (n.inner.map fun inner => inner.groups (path ++ [n.id])).getD [],
            path ++ [n.id] <+: q.path := by
      intro n hn
      cases hi : n.inner with
      | none => exact ⟨.nil, fun q hq => by cases hq⟩
      | some inner =>
        exact ⟨ih n hn inner hi (hwf.nested hn hi) _, fun q hq => path_isPrefix_of_mem_groups hq⟩
    have hinside : ∀ n ∈ g.nodes, ∀ q ∈ (if n.isGroup then
        ⟨path, g, n⟩ :: (n.inner.map fun inner => inner.groups (path ++ [n.id])).getD [] else []),
          path ++ [n.id] <+: q.inside := by
      intro n hn q hq
      cases hgroup : n.isGroup with
      | false => simp [hgroup] at hq
      | true =>
        rw [hgroup, if_pos rfl] at hq
        rcases List.mem_cons.1 hq with rfl | hq
        · exact List.prefix_refl _
        · exact ((hbelow n hn).2 q hq).trans (List.prefix_append _ _)
    rw [groups_eq, List.map_flatMap, List.nodup_flatMap]
    refine ⟨fun n hn => ?_, hwf.sound.ascending.imp_of_mem fun {n m} hn hm hlt => ?_⟩
    · cases n.isGroup with
      | false => exact .nil
      | true =>
        rw [if_pos rfl, List.map_cons]
        refine List.nodup_cons.2 ⟨fun hmem => ?_, (hbelow n hn).1⟩
        -- a group inside the group is further inside
        obtain ⟨q, hq, heq⟩ := List.mem_map.1 hmem
        have hfurther : q.inside <+: q.path := heq ▸ (hbelow n hn).2 q hq
        exact not_concat_isPrefix hfurther
    · intro place hplace hplace'
      obtain ⟨q, hq, rfl⟩ := List.mem_map.1 hplace
      obtain ⟨r, hr, heq⟩ := List.mem_map.1 hplace'
      rw [eq_of_concat_isPrefix (hinside n hn q hq) (heq ▸ hinside m hm r hr)] at hlt
      exact UInt32.lt_irrefl _ hlt

end Graph
end FlowGraph
