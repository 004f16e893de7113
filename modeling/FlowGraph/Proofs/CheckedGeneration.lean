import FlowGraph.Proofs.Outlines

/-! Generation that asks for a template at every step, and fails where there is none. No walk needs
a bound: a step uses up an id of its graph, an expression an id that is not on the way to it yet,
and a group leads to a graph that is nested deeper. Once the types of all nodes are known to have
templates, no step fails, and what is generated is the same. -/
namespace FlowGraph

namespace Checked

theorem length_erase_lt {left : List NodeId} {id : NodeId} (h : id ∈ left) :
    (left.erase id).length < left.length := by
  rw [List.length_erase_of_mem h]
  exact Nat.sub_one_lt_of_lt (List.length_pos_of_mem h)

structure Walk (α : Type) (left : List NodeId) where
  value : α
  rest : List NodeId
  le : rest.length ≤ left.length

/-! ### Expressions -/

def inputs (s : Scope) (node : Node Graph) (value : Endpoint → Except UnknownType (Option String)) :
    Except UnknownType (List (Option String)) :=
  node.inputs.zipIdx.mapM fun e =>
    if Label.isFlow e.1 then .ok none
    else ((s.graph.incoming? node.id e.2).map fun link => value link.source).getD (.ok none)

def access (s : Scope) (template : Template) (node : Node Graph) (label : String) : Option String :=
  (template.access node (s.varName node.id) label).or
    (if template.single then some (s.varName node.id)
      else if 1 < node.dataOutputs then some (memberOf (s.varName node.id) label) else none)

/-- The expression for a data output, where `left` holds the ids that are not on the way to it
yet. -/
def expression (s : Scope) (left : List NodeId) (output : Endpoint) :
    Except UnknownType (Option String) :=
  match s.graph.find? output.node with
  | none => .ok none
  | some node =>
    match node.outputs[output.port.toNat]? with
    | none => .ok none
    | some label => do
      let template ← s.catalog.require node
      if template.isPure then
        if _ : output.node ∈ left then
          let inputs ← inputs s node fun source => expression s (left.erase output.node) source
          let base := template.emit node ⟨inputs, [], s.varName node.id⟩
          if 1 < node.dataOutputs then
            return some ((template.access node base label).getD (memberOf base label))
          else return some base
        else return none
      else return access s template node label
termination_by left.length
decreasing_by
  exact length_erase_lt (by assumption)

/-! ### Steps -/

mutual

def visit (s : Scope) (body : Node Graph → Except UnknownType (List Outline)) (left : List NodeId)
    (id : NodeId) : Except UnknownType (Walk (Option Outline) left) :=
  if h : id ∈ left then
    have hlt := length_erase_lt h
    match s.graph.find? id with
    | none => .ok ⟨none, left.erase id, Nat.le_of_lt hlt⟩
    | some node => do
      let template ← s.catalog.require node
      if node.isGroup then
        let inside ← (if s.graph.hasIncomingFlow node then body node else .ok [])
        let next ← follow s body (left.erase id) (s.following node)
        return ⟨some (.inlined node inside next.value), next.rest, Nat.le_trans next.le
          (Nat.le_of_lt hlt)⟩
      else
        let branches ← (s.branching node).mapM fun ids => do
          let branch ← follow s body (left.erase id) ids
          return branch.value
        let inputs ← inputs s node (expression s s.graph.ids)
        let next ← follow s body (left.erase id) (s.following node)
        return ⟨some (.step template node inputs (s.varName id) branches next.value), next.rest,
          Nat.le_trans next.le (Nat.le_of_lt hlt)⟩
  else .ok ⟨none, left, Nat.le_refl _⟩
termination_by (left.length, 0)
decreasing_by all_goals exact Prod.Lex.left _ _ hlt

def follow (s : Scope) (body : Node Graph → Except UnknownType (List Outline))
    (left : List NodeId) :
    (ids : List NodeId) → Except UnknownType (Walk (List Outline) left)
  | [] => .ok ⟨[], left, Nat.le_refl _⟩
  | id :: ids => do
    let first ← visit s body left id
    let more ← follow s body first.rest ids
    return ⟨first.value.toList ++ more.value, more.rest, Nat.le_trans more.le first.le⟩
termination_by ids => (left.length, ids.length + 1)
decreasing_by
  · exact Prod.Lex.right _ (Nat.succ_pos _)
  · rcases Nat.lt_or_eq_of_le first.le with hlt | heq
    · exact Prod.Lex.left _ _ hlt
    · rw [heq]
      exact Prod.Lex.right _ (Nat.lt_succ_self _)

end

def outline (s : Scope) (body : Node Graph → Except UnknownType (List Outline))
    (entries : List NodeId) :
    Except UnknownType (List Outline) := do
  let steps ← follow s body s.graph.ids entries
  return steps.value

def nestedOutline (catalog : Catalog) : Graph → String → Except UnknownType (List Outline) :=
  Graph.fold fun nodes links stem =>
    let s : Scope := ⟨catalog, ⟨nodes.map Prod.fst, links⟩, stem⟩
    let body (group : Node Graph) : Except UnknownType (List Outline) :=
      (((nodes.find? (·.1.id == group.id)).bind Prod.snd).map fun inner =>
        inner (Scope.innerStem stem group.id)).getD (.ok [])
    outline s body (Scope.entries s.graph)

def groupOutline (s : Scope) (group : Node Graph) : Except UnknownType (List Outline) :=
  (group.inner.map fun inner => nestedOutline s.catalog inner
    (Scope.innerStem s.stem group.id)).getD (.ok [])

/-! ### Members -/

def check (catalog : Catalog) : Graph → Except UnknownType Unit :=
  Graph.fold fun nodes _ => forM nodes fun e => do
    let _ ← catalog.require e.1
    e.2.getD (.ok ())

def anchors (s : Scope) : Except UnknownType (List (Section × NodeId)) := do
  let found ← s.graph.nodes.mapM fun n => do
    let template ← s.catalog.require n
    return (template.anchor n).bind fun sect => if s.graph.hasIncomingFlow n then none
      else some (sect, n.id)
  return found.filterMap id

def sectionBody (s : Scope) (anchors : List (Section × NodeId)) (sect : Section) :
    Except UnknownType String := do
  let steps ← outline s (groupOutline s) ((anchors.filter (·.1 == sect)).map (·.2))
  return Outline.source steps

def methods (s : Scope) (anchors : List (Section × NodeId)) (members : List (Section × String)) :
    Except UnknownType (List SectionMethod) :=
  members.mapM fun e => (sectionBody s anchors e.1).map fun body => ⟨e.1, e.2, body⟩

/-- What a node adds to the groups that no flow enters, where `inside` are those of its nested
graph. -/
def freeGroupsAt (s : Scope) (n : Node Graph)
    (inside : Except UnknownType (List (Node Graph × String))) :
    Except UnknownType (List (Node Graph × String)) :=
  if n.isGroup then do
    let own ← (if s.graph.hasIncomingFlow n then .ok []
      else (groupOutline s n).map fun steps => [(n, Outline.source steps)])
    let more ← inside
    return own ++ more
  else .ok []

def freeGroups (catalog : Catalog) :
    Graph → String → Except UnknownType (List (Node Graph × String)) :=
  Graph.fold fun nodes links stem =>
    let s : Scope := ⟨catalog, ⟨nodes.map Prod.fst, links⟩, stem⟩
    (nodes.mapM fun e => freeGroupsAt s e.1
      ((e.2.map fun groups => groups (Scope.innerStem stem e.1.id)).getD (.ok []))).map List.flatten

/-- Generates the module of a graph, with a template asked for at every step. -/
def generate (catalog : Catalog) (options : Module.Options) (metadata : Metadata) (root : Graph) :
    Except UnknownType Module := do
  let s : Scope := ⟨catalog, root, ""⟩
  check catalog root
  let anchors ← anchors s
  let lifecycle ← methods s anchors (Section.lifecycle.map fun sect => (sect, sect.hook))
  let custom ← methods s anchors
    ((Module.assignNames id Module.reserved (Module.customSections anchors).entries).map
      fun e => (.custom e.1.1, e.2))
  let groups ← freeGroups catalog root ""
  let taken := (custom.map (·.name)).reverse ++ Module.reserved
  let routines :=
    (Module.assignNames (fun e : Node Graph × String => (e.1.displayName, e.1.id)) taken groups).map
      fun e => (⟨e.2, e.1.1.id, e.1.2⟩ : Routine)
  let properties := Module.firstOfName (Module.registrations catalog root)
  let className := Module.classNameOf metadata.name
  let text := Text.joinLines
    (Module.classLines metadata options.baseClass className (lifecycle ++ custom)
      routines properties)
  return ⟨className, lifecycle ++ custom, routines, properties, options.layout.apply text⟩

end Checked

/-! ### No step fails -/

theorem mapM_eq_ok {ε α β : Type} {f : α → Except ε β} {g : α → β} {xs : List α}
    (h : ∀ x ∈ xs, f x = .ok (g x)) : xs.mapM f = .ok (xs.map g) := by
  induction xs with
  | nil => rfl
  | cons x xs ih =>
    rw [List.mapM_cons, h x List.mem_cons_self, ih fun y hy => h y (List.mem_cons_of_mem _ hy)]
    rfl

def Catalog.Covers (catalog : Catalog) (g : Graph) : Prop :=
  ∀ n ∈ g.nodes, ∃ template, catalog.find? n.type = some template

theorem Catalog.contains_iff {catalog : Catalog} {type : String} :
    catalog.contains type = true ↔ ∃ template, catalog.find? type = some template :=
  Option.isSome_iff_exists

theorem Catalog.contains_eq_false_iff {catalog : Catalog} {type : String} :
    catalog.contains type = false ↔ catalog.find? type = none :=
  Option.isSome_eq_false_iff.trans Option.isNone_iff_eq_none

theorem Catalog.require_eq_ok {catalog : Catalog} {n : Node Graph} {template : Template}
    (h : catalog.find? n.type = some template) : catalog.require n = .ok template := by
  rw [require, h]

namespace Checked

theorem inputs_eq (s : Scope) (node : Node Graph)
    {value : Endpoint → Except UnknownType (Option String)} {value' : Endpoint → Option String}
    (h : ∀ output, value output = .ok (value' output)) :
    inputs s node value = .ok (s.inputs node value') := by
  refine mapM_eq_ok fun e _ => ?_
  by_cases hflow : Label.isFlow e.1
  · simp [hflow]
  · cases hlink : s.graph.incoming? node.id e.2 <;> simp [hflow, hlink, h]

theorem expression_eq {s : Scope} (hs : s.catalog.Covers s.graph) (left : List NodeId)
    (output : Endpoint) : expression s left output = .ok (s.expression left output) := by
  induction hlen : left.length using Nat.strongRecOn generalizing left output with
  | ind _ ih =>
    rw [expression, Scope.expression]
    cases hfind : s.graph.find? output.node with
    | none => rfl
    | some node =>
      cases hlabel : node.outputs[output.port.toNat]? with
      | none => simp [hlabel]
      | some label =>
        obtain ⟨template, htemplate⟩ := hs node (Graph.find?_mem hfind).1
        simp only [hlabel, Catalog.require_eq_ok htemplate, htemplate, bind, Except.bind,
          Option.bind]
        by_cases hpure : template.isPure
        · by_cases hleft : output.node ∈ left
          · have hinputs := inputs_eq s node fun source =>
              ih _ (hlen ▸ length_erase_lt hleft) (left.erase output.node) source rfl
            simp only [hpure, hleft, hinputs, if_true, dite_true]
            split <;> rfl
          · simp only [hpure, hleft, if_true, dite_false]
            rfl
        · simp only [hpure, access]
          cases template.access node (s.varName node.id) label with
          | some text => rfl
          | none =>
            cases template.single <;> by_cases hmany : 1 < node.dataOutputs <;> simp [hmany] <;> rfl


section Visit

variable {s : Scope} {body : Node Graph → Except UnknownType (List Outline)}
  {body' : Node Graph → List Outline}

def EndsAs {α : Type} {left : List NodeId} (x : Except UnknownType (Walk α left))
    (y : α × List NodeId) : Prop :=
  ∃ w, x = .ok w ∧ w.value = y.1 ∧ w.rest = y.2

theorem ends_follow {bound : Nat} {left : List NodeId} (hleft : left.length ≤ bound)
    (hvisit : ∀ left id, left.length ≤ bound →
      EndsAs (visit s body left id) (s.visit body' bound left id))
    (ids : List NodeId) :
    EndsAs (follow s body left ids) (Scope.chain (s.visit body' bound) left ids) := by
  induction ids generalizing left with
  | nil =>
    rw [follow]
    exact ⟨_, rfl, rfl, rfl⟩
  | cons id ids ih =>
    obtain ⟨first, hfirst, hvalue, hrest⟩ := hvisit left id hleft
    obtain ⟨more, hmore, hvalue', hrest'⟩ := ih (Nat.le_trans first.le hleft)
    rw [follow, hfirst, Scope.chain_cons, ← hvalue, ← hrest, ← hvalue', ← hrest']
    simp only [bind, Except.bind, hmore]
    exact ⟨_, rfl, rfl, rfl⟩

/-- With a bound of at least the number of ids left, a walk with a bound and one without it end
alike. -/
theorem ends_visit (hs : s.catalog.Covers s.graph)
    (hbody : ∀ node id, s.graph.find? id = some node → body node = .ok (body' node)) (bound : Nat) :
    ∀ left id, left.length ≤ bound →
      EndsAs (visit s body left id) (s.visit body' bound left id) := by
  induction bound with
  | zero =>
    intro left id hleft
    obtain rfl := List.length_eq_zero_iff.1 (Nat.le_zero.1 hleft)
    rw [visit, dif_neg List.not_mem_nil]
    exact ⟨_, rfl, rfl, rfl⟩
  | succ bound ih =>
    intro left id hleft
    by_cases hid : id ∈ left
    · have hle : (left.erase id).length ≤ bound :=
        Nat.le_of_lt_succ (Nat.lt_of_lt_of_le (length_erase_lt hid) hleft)
      have hwalk := fun ids => ends_follow hle ih ids
      rw [visit, dif_pos hid]
      cases hfind : s.graph.find? id with
      | none =>
        rw [Scope.visit_of_unknown hid (by rw [hfind]; rfl)]
        exact ⟨_, rfl, rfl, rfl⟩
      | some node =>
        obtain ⟨hnode, rfl⟩ := Graph.find?_mem hfind
        obtain ⟨template, htemplate⟩ := hs node hnode
        obtain ⟨next, hnext, hvalue, hrest⟩ := hwalk (s.following node)
        rw [Scope.visit_of_mem hid hfind htemplate, Scope.stepAt, ← hvalue, ← hrest]
        simp only [Catalog.require_eq_ok htemplate, bind, Except.bind]
        by_cases hgroup : node.isGroup
        · have hinside : (if s.graph.hasIncomingFlow node then body node else .ok []) =
              .ok (if s.graph.hasIncomingFlow node then body' node else []) := by
            split
            · exact hbody node _ hfind
            · rfl
          simp only [hgroup, if_true, hinside, hnext]
          exact ⟨_, rfl, rfl, rfl⟩
        · have hbranches : ((s.branching node).mapM fun ids => do
              let branch ← follow s body (left.erase node.id) ids
              return branch.value) =
              .ok ((s.branching node).map fun ids =>
                (Scope.chain (s.visit body' bound) (left.erase node.id) ids).1) := by
            refine mapM_eq_ok fun ids _ => ?_
            obtain ⟨branch, hbranch, hvalue, -⟩ := hwalk ids
            simp only [hbranch, bind, Except.bind, hvalue]
            rfl
          simp only [bind, Except.bind] at hbranches
          have hinputs := inputs_eq s node (expression_eq hs s.graph.ids)
          simp only [hgroup, hbranches, hinputs, hnext]
          exact ⟨_, rfl, rfl, rfl⟩
    · rw [visit, dif_neg hid, Scope.visit_of_not_mem hid]
      exact ⟨_, rfl, rfl, rfl⟩

theorem outline_eq (hs : s.catalog.Covers s.graph)
    (hbody : ∀ node id, s.graph.find? id = some node → body node = .ok (body' node))
    (entries : List NodeId) : outline s body entries = .ok (s.outline body' entries) := by
  obtain ⟨steps, hsteps, hvalue, -⟩ :=
    ends_follow (Nat.le_refl s.graph.ids.length) (ends_visit hs hbody _) entries
  simp only [outline, hsteps, bind, Except.bind, Scope.outline, ← hvalue]
  rfl

end Visit

theorem nestedOutline_eq {catalog : Catalog} {g : Graph} (hg : g.Everywhere catalog.Covers)
    (stem : String) : nestedOutline catalog g stem = .ok (Scope.nestedOutline catalog g stem) := by
  induction g using Graph.nestedInduction generalizing stem with
  | step g ih =>
    rw [nestedOutline, Graph.fold_eq, Scope.nestedOutline_eq]
    simp only [Graph.map_fst_nodes]
    obtain ⟨nodes, links⟩ := g
    refine outline_eq hg.here (fun node id hfind => ?_) _
    obtain ⟨hnode, rfl⟩ := Graph.find?_mem hfind
    have hentry : ∀ f : Graph → String → Except UnknownType (List Outline),
        (nodes.map fun n => (n, n.inner.map f)).find? (·.1.id == node.id) =
          some (node, node.inner.map f) := by
      intro f
      rw [List.find?_map]
      exact congrArg (Option.map _) hfind
    simp only [hentry, Option.bind_some, Scope.groupOutline]
    cases hi : node.inner with
    | none => rfl
    | some inner => exact ih node hnode inner hi (hg.inside hnode hi) _

theorem groupOutline_eq {s : Scope} (hs : s.graph.Everywhere s.catalog.Covers) {n : Node Graph}
    (hn : n ∈ s.graph.nodes) : groupOutline s n = .ok (s.groupOutline n) := by
  rw [groupOutline, Scope.groupOutline]
  cases hi : n.inner with
  | none => rfl
  | some inner => exact nestedOutline_eq (hs.inside hn hi) _

theorem anchors_eq {s : Scope} (hs : s.catalog.Covers s.graph) :
    anchors s = .ok (Module.anchors s) := by
  have hfound : (s.graph.nodes.mapM fun n => do
      let template ← s.catalog.require n
      return (template.anchor n).bind fun sect => if s.graph.hasIncomingFlow n then none
      else some (sect, n.id)) = .ok (s.graph.nodes.map fun n => do
        let template ← s.catalog.find? n.type
        let sect ← template.anchor n
        if s.graph.hasIncomingFlow n then none else some (sect, n.id)) := by
    refine mapM_eq_ok fun n hn => ?_
    obtain ⟨template, htemplate⟩ := hs n hn
    rw [Catalog.require_eq_ok htemplate, htemplate]
    rfl
  rw [anchors, hfound, Module.anchors]
  simp only [bind, Except.bind, List.filterMap_map]
  rfl

theorem sectionBody_eq {s : Scope} (hs : s.graph.Everywhere s.catalog.Covers)
    (anchors : List (Section × NodeId)) (sect : Section) :
    sectionBody s anchors sect = .ok (Module.sectionBody s anchors sect) := by
  rw [sectionBody, outline_eq hs.here fun node id hfind => groupOutline_eq hs
    (Graph.find?_mem hfind).1]
  rfl

theorem freeGroupsAt_eq {s : Scope} (hs : s.graph.Everywhere s.catalog.Covers) {n : Node Graph}
    (hn : n ∈ s.graph.nodes) (inside : List (Node Graph × String)) :
    freeGroupsAt s n (.ok inside) = .ok (if n.isGroup then
      (if s.graph.hasIncomingFlow n then [] else [(n, Outline.source (s.groupOutline n))]) ++ inside
      else []) := by
  rw [freeGroupsAt, groupOutline_eq hs hn]
  by_cases hgroup : n.isGroup <;> by_cases hflow : s.graph.hasIncomingFlow
    n <;> simp only [hgroup, hflow] <;> rfl

theorem freeGroups_eq {catalog : Catalog} {g : Graph} (hg : g.Everywhere catalog.Covers)
    (stem : String) : freeGroups catalog g stem = .ok (Module.freeGroups catalog g stem) := by
  induction g using Graph.nestedInduction generalizing stem with
  | step g ih =>
    rw [freeGroups, Graph.fold_eq, Module.freeGroups_eq, List.flatMap_def]
    simp only [Graph.map_fst_nodes, List.mapM_map]
    refine congrArg (Except.map List.flatten) (mapM_eq_ok fun n hn => ?_)
    have hinside : ((n.inner.map (freeGroups catalog)).map fun groups =>
        groups (Scope.innerStem stem n.id)).getD (.ok []) =
        .ok ((n.inner.map fun inner => Module.freeGroups catalog inner
          (Scope.innerStem stem n.id)).getD []) := by
      cases hi : n.inner with
      | none => rfl
      | some inner => exact ih n hn inner hi (hg.inside hn hi) _
    exact (congrArg (freeGroupsAt ⟨catalog, g, stem⟩ n) hinside).trans (freeGroupsAt_eq hg hn _)

/-- The first failure of a loop is the first failure of a step. -/
theorem forM_eq {ε α : Type} {f : α → Except ε Unit} {failure : α → Option ε} {xs : List α}
    (h : ∀ x ∈ xs, f x = ((failure x).map .error).getD (.ok ())) :
    forM xs f = ((xs.findSome? failure).map .error).getD (.ok ()) := by
  induction xs with
  | nil => rfl
  | cons x xs ih =>
    rw [List.forM_cons, h x List.mem_cons_self, ih fun y hy => h y (List.mem_cons_of_mem _ hy),
      List.findSome?_cons]
    cases failure x <;> rfl

theorem check_eq (catalog : Catalog) (g : Graph) :
    check catalog g = ((Module.unknownType? catalog g).map .error).getD (.ok ()) := by
  induction g using Graph.nestedInduction with
  | step g ih =>
    rw [check, Graph.fold_eq, Module.unknownType?_eq, List.forM_map]
    refine forM_eq fun n hn => ?_
    have hinside : (n.inner.map (check catalog)).getD (.ok ()) =
        (((n.inner.map (Module.unknownType? catalog)).join).map .error).getD (.ok ()) := by
      cases hi : n.inner with
      | none => rfl
      | some inner => exact ih n hn inner hi
    rw [check] at hinside
    by_cases hknown : catalog.contains n.type
    · obtain ⟨template, htemplate⟩ := Catalog.contains_iff.1 hknown
      rw [Catalog.require_eq_ok htemplate, if_pos hknown]
      exact hinside
    · rw [if_neg hknown, Catalog.require, Catalog.contains_eq_false_iff.1
        (Bool.eq_false_iff.2 hknown)]
      rfl

end Checked

/-! ### Nodes at every level -/

namespace Graph

/-- A node at the end of a path: the ids of the groups that it is in, the outermost first, and its
own. -/
inductive At : Graph → List NodeId → Node Graph → Prop
  | here {g : Graph} {n : Node Graph} (hn : n ∈ g.nodes) : At g [n.id] n
  | inside {g : Graph} {n : Node Graph} (hn : n ∈ g.nodes) {inner : Graph}
      (hi : n.inner = some inner)
      {path : List NodeId} {m : Node Graph} (hm : At inner path m) : At g (n.id :: path) m

/-- The nodes at every level with their paths, a node before those of its nested graph. -/
def listing : Graph → List (List NodeId × Node Graph) :=
  Graph.fold fun nodes _ => nodes.flatMap fun e =>
    ([e.1.id], e.1) :: (e.2.getD []).map fun p => (e.1.id :: p.1, p.2)

theorem listing_eq (g : Graph) : g.listing = g.nodes.flatMap fun n =>
    ([n.id], n) :: ((n.inner.map listing).getD []).map fun p => (n.id :: p.1, p.2) := by
  rw [listing, Graph.fold_eq, List.flatMap_map]

theorem mem_listing_iff {g : Graph} {p : List NodeId × Node Graph} :
    p ∈ g.listing ↔ g.At p.1 p.2 := by
  constructor
  · intro hp
    induction g using nestedInduction generalizing p with
    | step g ih =>
      rw [listing_eq] at hp
      obtain ⟨n, hn, hp⟩ := List.mem_flatMap.1 hp
      rcases List.mem_cons.1 hp with rfl | hp
      · exact .here hn
      · obtain ⟨q, hq, rfl⟩ := List.mem_map.1 hp
        cases hi : n.inner with
        | none =>
          rw [hi] at hq
          cases hq
        | some inner =>
          rw [hi] at hq
          exact .inside hn hi (ih n hn inner hi hq)
  · intro hp
    obtain ⟨path, m⟩ := p
    have hat : g.At path m := hp
    induction hat with
    | here hn =>
      rw [listing_eq]
      exact List.mem_flatMap.2 ⟨_, hn, List.mem_cons_self⟩
    | @inside g n hn inner hi path m hm ih =>
      rw [listing_eq]
      refine List.mem_flatMap.2
        ⟨n, hn, List.mem_cons_of_mem _ (List.mem_map.2 ⟨(path, m), ?_, rfl⟩)⟩
      rw [hi]
      exact ih hm

theorem At.ne_nil {g : Graph} {path : List NodeId} {n : Node Graph} (h : g.At path n) :
    path ≠ [] := by
  cases h <;> simp

/-- Where ids ascend at every level, so do the paths. -/
theorem ascending_listing {g : Graph} (h : g.Everywhere fun g => g.nodes.Pairwise (·.id < ·.id)) :
    g.listing.Pairwise fun p q => List.Lex (· < ·) p.1 q.1 := by
  induction h with
  | @intro g here _ ih =>
    rw [listing_eq, List.pairwise_flatMap]
    constructor
    · intro n hn
      rw [List.pairwise_cons, List.pairwise_map]
      cases hi : n.inner with
      | none => simp
      | some inner =>
        refine ⟨fun p hp => ?_, (ih n hn inner hi).imp fun h => .cons h⟩
        obtain ⟨q, hq, rfl⟩ := List.mem_map.1 hp
        have hne := (mem_listing_iff.1 hq).ne_nil
        show List.Lex (· < ·) [n.id] (n.id :: q.1)
        cases hpath : q.1 with
        | nil => exact absurd hpath hne
        | cons id path => exact .cons .nil
    · have hhead : ∀ {n : Node Graph} {p : List NodeId × Node Graph},
          p ∈ ([n.id], n) :: ((n.inner.map listing).getD []).map (fun q => (n.id :: q.1, q.2)) →
            ∃ path, p.1 = n.id :: path := by
        intro n p hp
        rcases List.mem_cons.1 hp with rfl | hp
        · exact ⟨[], rfl⟩
        · obtain ⟨q, -, rfl⟩ := List.mem_map.1 hp
          exact ⟨q.1, rfl⟩
      refine here.imp fun hlt p hp q hq => ?_
      obtain ⟨path, hpath⟩ := hhead hp
      obtain ⟨path', hpath'⟩ := hhead hq
      rw [hpath, hpath']
      exact .rel hlt

end Graph

theorem Catalog.everywhere_covers_iff {catalog : Catalog} {g : Graph} :
    g.Everywhere catalog.Covers ↔
    ∀ path n, g.At path n → ∃ template, catalog.find? n.type = some template := by
  constructor
  · intro hg path n hn
    induction hn with
    | here hn => exact hg.here _ hn
    | inside hn hi _ ih => exact ih (hg.inside hn hi)
  · intro h
    induction g using Graph.nestedInduction with
    | step g ih =>
      exact .intro (fun n hn => h _ n (.here hn)) fun n hn inner hi =>
        ih n hn inner hi fun path m hm => h _ m (.inside hn hi hm)

theorem findSome?_congr {α β : Type} {f g : α → Option β} {xs : List α} (h : ∀ x ∈ xs, f x = g x) :
    xs.findSome? f = xs.findSome? g := by
  induction xs with
  | nil => rfl
  | cons x xs ih =>
    have hmore := ih fun y hy => h y (List.mem_cons_of_mem _ hy)
    rw [List.findSome?_cons, List.findSome?_cons, h x List.mem_cons_self, hmore]

/-- The first node without a template, among all nodes. -/
theorem Module.unknownType?_eq_find? (catalog : Catalog) (g : Graph) :
    unknownType? catalog g =
      (g.listing.find? fun p => !catalog.contains p.2.type).map fun p => ⟨p.2.id, p.2.type⟩ := by
  induction g using Graph.nestedInduction with
  | step g ih =>
    rw [unknownType?_eq, Graph.listing_eq, List.find?_flatMap, List.map_findSome?]
    refine findSome?_congr fun n hn => ?_
    have hinside : (n.inner.map (unknownType? catalog)).join =
        (((n.inner.map Graph.listing).getD []).find? fun p => !catalog.contains p.2.type).map
          fun p => ⟨p.2.id, p.2.type⟩ := by
      cases hi : n.inner with
      | none => rfl
      | some inner => exact ih n hn inner hi
    rw [Function.comp_apply, List.find?_cons, List.find?_map, hinside]
    by_cases hknown : catalog.contains n.type
    · rw [if_pos hknown, hknown, Bool.not_true]
      show _ = Option.map _ (Option.map _ _)
      rw [Option.map_map]
      rfl
    · rw [if_neg hknown, Bool.eq_false_iff.2 hknown]
      rfl

theorem Module.unknownType?_eq_none_iff {catalog : Catalog} {g : Graph} :
    unknownType? catalog g = none ↔ g.Everywhere catalog.Covers := by
  simp only [unknownType?_eq_find?, Option.map_eq_none_iff, List.find?_eq_none, Bool.not_eq_true',
    Bool.not_eq_false, Catalog.contains_iff, Catalog.everywhere_covers_iff, Prod.forall,
      Graph.mem_listing_iff]

/-! ### Names -/

namespace Module

theorem candidate_injective {base : String} {id : NodeId} {i j : Nat}
    (h : candidate base id i = candidate base id j) : i = j := by
  have hlength := congrArg String.length h
  have hmark : "_".length = 1 := rfl
  rcases i with _ | _ | i <;> rcases j with _ | _ | j <;>
    simp only [candidate, String.length_append] at hlength <;> try omega
  have hdigits := congrArg String.toList h
  simp only [candidate, String.toList_append, List.append_cancel_left_eq,
    Nat.toList_repr] at hdigits
  have hvalue := congrArg (fun cs => Nat.ofDigitChars 10 cs 0) hdigits
  simpa only [Nat.ofDigitChars_ten_toDigits] using hvalue

/-- The search for a free name ends at the first candidate that is not taken. -/
theorem freeName_spec (base : String) (id : NodeId) (attempt : Nat) (taken : List String) :
    ∃ k, attempt ≤ k ∧ k ≤ attempt + taken.length ∧
      freeName base id attempt taken = candidate base id k ∧
      candidate base id k ∉ taken ∧ ∀ j, attempt ≤ j → j < k → candidate base id j ∈ taken := by
  fun_induction freeName base id attempt taken with
  | case1 attempt taken h ih =>
    obtain ⟨k, hle, hbound, hname, hfree, htaken⟩ := ih
    have hne : ∀ j, attempt < j → candidate base id j ≠ candidate base id attempt := by
      intro j hj heq
      exact absurd (candidate_injective heq) (by omega)
    rw [List.length_erase_of_mem h] at hbound
    have hpos := List.length_pos_of_mem h
    refine ⟨k, by omega, by omega, hname,
      fun hmem => hfree ((List.mem_erase_of_ne (hne k hle)).2 hmem), ?_⟩
    intro j hj hlt
    rcases Nat.lt_or_eq_of_le hj with hj | rfl
    · exact List.mem_of_mem_erase (htaken j hj hlt)
    · exact h
  | case2 attempt taken h =>
    exact ⟨attempt, Nat.le_refl _, Nat.le_add_right _ _, rfl, h, fun j hle hlt => by omega⟩

end Module

namespace Checked

theorem methods_eq {s : Scope} (hs : s.graph.Everywhere s.catalog.Covers)
    (anchors : List (Section × NodeId)) (members : List (Section × String)) :
    methods s anchors members =
      .ok (members.map fun e => ⟨e.1, e.2, Module.sectionBody s anchors e.1⟩) := by
  refine mapM_eq_ok fun e _ => ?_
  rw [sectionBody_eq hs]
  rfl

theorem generate_eq (catalog : Catalog) (options : Module.Options) (metadata : Metadata)
    (root : Graph) :
    generate catalog options metadata root = Module.generate catalog options metadata root := by
  rw [generate, Module.generate, check_eq]
  cases hunknown : Module.unknownType? catalog root with
  | some e => rfl
  | none =>
    have hg := Module.unknownType?_eq_none_iff.1 hunknown
    rw [anchors_eq (s := ⟨catalog, root, ""⟩) hg.here]
    simp only [bind, Except.bind, methods_eq (s := ⟨catalog, root, ""⟩) hg, freeGroups_eq hg,
      List.map_map]
    rfl

end Checked

/-! ### Generation -/

namespace Module

theorem generate_eq_error_iff {catalog : Catalog} {options : Options} {metadata : Metadata}
    {root : Graph} {e : UnknownType} :
    generate catalog options metadata root = .error e ↔ unknownType? catalog root = some e := by
  rw [generate]
  cases unknownType? catalog root <;> simp

structure Ends (catalog : Catalog) (options : Options) (metadata : Metadata) (root : Graph) :
    Prop where
  /-- Asking for a template at every step, with no bound on the steps, gives the same. -/
  checked : Checked.generate catalog options metadata root = generate catalog options metadata root
  /-- It fails where a node of some level has no template, and only there. -/
  fails : (∃ e, generate catalog options metadata root = .error e) ↔
    ∃ path n, root.At path n ∧ catalog.find? n.type = none
  /-- The failure names the first such node. -/
  first : ∀ e, generate catalog options metadata root = .error e ↔
    ∃ front path n back, root.listing = front ++ (path, n) :: back ∧
      (∀ p ∈ front, ∃ template, catalog.find? p.2.type = some template) ∧
      catalog.find? n.type = none ∧ e = ⟨n.id, n.type⟩
  /-- All nodes are listed, and in the order of their ids, a node before those of its nested
  graph. -/
  listed : (∀ path n, (path, n) ∈ root.listing ↔ root.At path n) ∧
    ((root.Everywhere fun g => g.nodes.Pairwise (·.id < ·.id)) →
      root.listing.Pairwise fun p q => List.Lex (· < ·) p.1 q.1)
  /-- Once all nodes have been checked, no later step fails. -/
  passes : Checked.check catalog root = .ok () →
    ∃ anchors, Checked.anchors ⟨catalog, root, ""⟩ = .ok anchors ∧
      (∀ sect, ∃ body, Checked.sectionBody ⟨catalog, root, ""⟩ anchors sect = .ok body) ∧
      ∃ groups, Checked.freeGroups catalog root "" = .ok groups
  /-- The search for a name that is free ends, at the first candidate that is. -/
  named : ∀ base id taken, ∃ k ≤ taken.length, freeName base id 0 taken = candidate base id k ∧
    candidate base id k ∉ taken ∧ ∀ j < k, candidate base id j ∈ taken

theorem generate_ends (catalog : Catalog) (options : Options) (metadata : Metadata) (root : Graph) :
    Ends catalog options metadata root where
  checked := Checked.generate_eq catalog options metadata root
  fails := by
    have hcovers : (∃ e, unknownType? catalog root = some e) ↔ ¬root.Everywhere catalog.Covers := by
      rw [← unknownType?_eq_none_iff, ← Ne, Option.ne_none_iff_exists']
    simp only [generate_eq_error_iff, hcovers, Catalog.everywhere_covers_iff,
      not_forall, not_exists, ← Option.eq_none_iff_forall_ne_some, exists_prop]
  first e := by
    simp only [generate_eq_error_iff, unknownType?_eq_find?, Option.map_eq_some_iff,
      List.find?_eq_some_iff_append, Bool.not_eq_true', Bool.not_not, Catalog.contains_iff,
        Catalog.contains_eq_false_iff]
    constructor
    · rintro ⟨p, ⟨hunknown, front, back, hsplit, hfront⟩, rfl⟩
      exact ⟨front, p.1, p.2, back, hsplit, hfront, hunknown, rfl⟩
    · rintro ⟨front, path, n, back, hsplit, hfront, hunknown, rfl⟩
      exact ⟨(path, n), ⟨hunknown, front, back, hsplit, hfront⟩, rfl⟩
  listed := ⟨fun _ _ => Graph.mem_listing_iff, Graph.ascending_listing⟩
  passes := by
    intro hcheck
    have hg : root.Everywhere catalog.Covers := by
      rw [Checked.check_eq] at hcheck
      cases hunknown : unknownType? catalog root with
      | none => exact unknownType?_eq_none_iff.1 hunknown
      | some e =>
        rw [hunknown] at hcheck
        cases hcheck
    exact ⟨_, Checked.anchors_eq (s := ⟨catalog, root, ""⟩) hg.here,
      fun sect => ⟨_, Checked.sectionBody_eq (s := ⟨catalog, root, ""⟩) hg _ sect⟩, _,
        Checked.freeGroups_eq hg ""⟩
  named base id taken := by
    obtain ⟨k, -, hbound, hname, hfree, htaken⟩ := freeName_spec base id 0 taken
    rw [Nat.zero_add] at hbound
    exact ⟨k, hbound, hname, hfree, fun j hj => htaken j (Nat.zero_le _) hj⟩

end Module
end FlowGraph
