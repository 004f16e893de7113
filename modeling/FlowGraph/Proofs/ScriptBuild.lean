import FlowGraph.Proofs.DeclaredGraphs
import FlowGraph.Script.Load

/-! Building graphs. The statements of a graph that scripts can declare run without fault, whatever
lines they stand on, and build the graph as it is read back. -/
namespace FlowGraph

namespace Script

/-! ### Lines matter to errors only -/

section Lines

variable {σ : Type}

def outcome (r : σ × Except ScriptError Stats) : σ × Option Stats := (r.1, r.2.toOption)

theorem outcome_eq_some_iff {r : σ × Except ScriptError Stats} {target : σ} {stats : Stats} :
    outcome r = (target, some stats) ↔ r = (target, .ok stats) := by
  obtain ⟨t, e | s⟩ := r <;> simp [outcome, Except.toOption]

variable [Target σ] (catalog : Catalog)

theorem outcome_runStatements_bare (script : List Statement)
    (hsteps : ∀ s ∈ script, ∀ (stats : Stats) (target : σ),
      outcome (runStatement catalog stats target s.bare) =
        outcome (runStatement catalog stats target s))
    (stats : Stats) (target : σ) :
    outcome (runStatements catalog stats target (script.map Statement.bare)) =
      outcome (runStatements catalog stats target script) := by
  induction script generalizing stats target with
  | nil => rfl
  | cons s script ih =>
    have hstep := hsteps s List.mem_cons_self stats target
    have hrest := ih fun t ht => hsteps t (.tail _ ht)
    rw [List.map_cons, runStatements, runStatements]
    revert hstep
    obtain ⟨t, e | st⟩ := runStatement catalog stats target s
    · obtain ⟨t', e' | st'⟩ := runStatement catalog stats target s.bare
      · exact fun hstep => hstep
      · exact fun hstep => by cases hstep
    · intro hstep
      rw [outcome_eq_some_iff.1 hstep]
      exact hrest st t

theorem outcome_runStatement_bare (s : Statement) : ∀ (stats : Stats) (target : σ),
    outcome (runStatement catalog stats target s.bare) =
      outcome (runStatement catalog stats target s) := by
  induction s using Statement.nestedInduction with
  | step s ih =>
    intro stats target
    cases s with
    | title | space | description | flag => rfl
    | node line decl =>
      have hbare : (Statement.node line decl).bare = .node 0 decl := rfl
      rw [hbare, runStatement, runStatement]
      repeat' split
      all_goals rfl
    | connect line link =>
      have hbare : (Statement.connect line link).bare = .connect 0 link := rfl
      rw [hbare, runStatement, runStatement]
      split <;> rfl
    | group line decl body =>
      rw [Statement.bare_group, runStatement, runStatement]
      split
      · rfl
      · split
        · rfl
        · next w _ _ =>
          have hbody := outcome_runStatements_bare catalog body ih stats.addGroup w
          exact congrArg (Prod.map Target.exitGroup id) hbody

/-- Scripts that differ in their lines only do the same. -/
theorem runStatements_eq_ok {script script' : List Statement}
    (hbare : script'.map Statement.bare = script.map Statement.bare) {stats stats' : Stats}
    {target target' : σ}
    (hrun : runStatements catalog stats target script = (target', .ok stats')) :
    runStatements catalog stats target script' = (target', .ok stats') := by
  have hleft := outcome_runStatements_bare catalog script
    (fun s _ => outcome_runStatement_bare catalog s) stats target
  have hright := outcome_runStatements_bare catalog script'
    (fun s _ => outcome_runStatement_bare catalog s) stats target
  rw [hbare] at hright
  exact outcome_eq_some_iff.1 (hright.symm.trans (hleft.trans (outcome_eq_some_iff.2 hrun)))

/-- A script that runs through leaves its target to what follows it. -/
theorem runStatements_append {script more : List Statement} {stats stats' : Stats}
    {target target' : σ}
    (hrun : runStatements catalog stats target script = (target', .ok stats')) :
    runStatements catalog stats target (script ++ more) = runStatements catalog stats'
      target' more := by
  induction script generalizing stats target with
  | nil =>
    obtain ⟨rfl, hstats⟩ := Prod.mk.inj hrun
    rw [Except.ok.inj hstats]
    rfl
  | cons s script ih =>
    rw [runStatements] at hrun
    rw [List.cons_append, runStatements]
    split at hrun
    · exact ih hrun
    · cases hrun

end Lines

end Script

/-! ### Nodes from their statements -/

theorem Number.eq_of_sameValue {x y : Number} (hy : y.isZero = false) (h : x.sameValue y = true) :
    x = y := by
  simp only [sameValue, Bool.and_eq_true, Bool.or_eq_true, beq_iff_eq, hy, and_false, or_false,
    Bool.false_eq_true] at h
  exact h.2

theorem Size.eq_standard {s : Size} (h : s.agrees .standard = true) : s = .standard := by
  obtain ⟨hwidth, hheight⟩ := (Bool.and_eq_true _ _).mp h
  obtain ⟨width, height⟩ := s
  have hw : width = Size.standard.width := Number.eq_of_sameValue (by decide +kernel) hwidth
  have hh : height = Size.standard.height := Number.eq_of_sameValue (by decide +kernel) hheight
  rw [hw, hh]

namespace NameMap

variable {α : Type}

theorem contains_foldl_insertNew {entries : List (String × α)} {m : NameMap α} {x : String} :
    (entries.foldl (fun m e => m.insertNew e.1 e.2) m).contains x = true ↔
      m.contains x = true ∨ x ∈ entries.map Prod.fst := by
  induction entries generalizing m with
  | nil => simp
  | cons e rest ih =>
    rw [List.foldl_cons, ih, contains_insertNew, List.map_cons, List.mem_cons,
      or_comm (a := x = e.1), or_assoc]

/-- Entries laid over a map that has none of its own. -/
theorem insertAll_eq {m m' : NameMap α} (h : ∀ x, m.contains x = true → m'.contains x = true) :
    m.insertAll m'.entries = m' := by
  refine ext_get? fun x => ?_
  rw [get?_insertAll_entries]
  cases hx : m'.get? x with
  | some value => rfl
  | none =>
    have hm : m.contains x ≠ true := fun hm => by simpa [contains, hx] using h x hm
    simpa [contains] using hm

end NameMap

namespace Script

theorem size_placementOf {G : Type} (n : Node G) :
    (placementOf n).size.getD .standard = n.size := by
  unfold placementOf
  cases h : n.size.agrees .standard with
  | true => simp [Size.eq_standard h]
  | false => simp

theorem settle_eq {G : Type} (node : Node Graph) (n : Node G) (index : Nat) (fields : Fields) :
    settle node (placementOf n) index fields =
      { node with
        position := n.position
        size := (placementOf n).size.getD node.size
        fields := node.fields.insertAll fields.entries } := rfl

/-- A plain node is what its statement declares. -/
theorem node?_nodeDeclOf {catalog : Catalog} {n : Node Graph} (hn : n.Declared catalog)
    (hgroup : n.isGroup = false) (index : Nat) : (nodeDeclOf n).node? catalog index = some n := by
  cases hn with
  | group isGroup => rw [hgroup] at isGroup; cases isGroup
  | @plain template isGroup type registered inputs outputs defaults inner =>
    have hfields : NameMap.insertAll
        (template.defaults.entries.foldl (fun m e => m.insertNew e.1 e.2) .empty) n.fields.entries =
        n.fields := NameMap.insertAll_eq fun x hx => by
      rcases NameMap.contains_foldl_insertNew.1 hx with hx | hx
      · cases hx
      · exact defaults x (NameMap.contains_iff_mem.2 hx)
    have hinstance : catalog.instantiate? n.type n.id .origin =
        some { (Node.ofType n.id n.type template.inputs template.outputs : Node Graph) with
          fields := template.defaults.entries.foldl (fun m e => m.insertNew e.1 e.2) .empty } := by
      simp [Catalog.instantiate?, registered, type, Node.ofType]
    have hnode : (nodeDeclOf n).node? catalog index = (catalog.instantiate? n.type n.id .origin).map
        fun node => settle node (placementOf n) index n.fields := rfl
    rw [hnode, hinstance, Option.map_some, settle_eq, hfields, ← inputs, ← outputs]
    simp only [Node.ofType, size_placementOf]
    obtain ⟨id, type, position, size, inputs, outputs, fields, isGroup, inner⟩ := n
    subst_vars
    rfl

theorem get?_otherFields {G : Type} (n : Node G) (x : String) :
    (otherFields n).get? x = if x = "name" then none else n.fields.get? x := by
  simp only [NameMap.get?, otherFields, List.find?_filter]
  by_cases hx : x = "name"
  · rw [if_pos hx, List.find?_eq_none.2 fun e _ => by simp [hx]]
    rfl
  · have hsame : ∀ e : String × Value,
        decide ((e.1 != "name") = true ∧ decide (e.1 = x) = true) = decide (e.1 = x) := by
      intro e
      by_cases he : e.1 = x <;> simp [he, hx]
    rw [if_neg hx, funext hsame]

/-- A group is what its statement declares, but for a name that is no text and for its nested
graph. -/
theorem node_groupDeclOf {n : Node Graph} (hgroup : n.isGroup = true)
    (htype : n.type = Node.groupType) (index : Nat) :
    (groupDeclOf n).node index = { n.labelled with inner := some .empty } := by
  have hfields : (NameMap.empty.insert "name" (.text n.displayName)).insertAll
      (otherFields n).entries = n.fields.insert "name" (.text n.displayName) := by
    refine NameMap.ext_get? fun x => ?_
    rw [NameMap.get?_insertAll_entries, get?_otherFields, NameMap.get?_insert, NameMap.get?_insert]
    by_cases hx : x = "name" <;> simp [hx]
  have hnode : (groupDeclOf n).node index =
      settle (.group n.id n.displayName n.inputs n.outputs .empty) (placementOf n) index
        (otherFields n) := rfl
  rw [hnode, settle_eq]
  simp only [Node.group, Node.ofType, size_placementOf, hfields, Node.labelled]
  obtain ⟨id, type, position, size, inputs, outputs, fields, isGroup, inner⟩ := n
  subst_vars
  rfl

end Script

/-! ### Graphs from their statements -/

theorem Node.type_of_boundarySide? {type : String} {side : Direction}
    (h : boundarySide? type = some side) : type = boundaryType side := by
  unfold boundarySide? at h
  split at h
  · cases h
    assumption
  · split at h
    · cases h
      assumption
    · cases h

namespace Script.Workbench

/-- A node behind all others is taken where the finished graph has no boundary nodes that it should
not have. -/
theorem addNode_of_allowed {w : Workbench} {g : Graph} (hallowed : g.AllowedIn w.group?)
    {front rest : List (Node Graph)} {n : Node Graph} (hnodes : g.nodes = front ++ n :: rest)
    (hasc : g.nodes.Pairwise (·.id < ·.id)) (hactive : w.focus.active = ⟨front, []⟩)
    (m : Node Graph) (hid : m.id = n.id) (htype : m.type = n.type) :
    w.addNode m = .ok (w.setGraph ⟨front ++ [m], []⟩) := by
  rw [hnodes] at hasc
  have hfront : ∀ k ∈ front, k.id < m.id := fun k hk => by
    rw [hid]
    exact (List.pairwise_append.1 hasc).2.2 k hk n List.mem_cons_self
  have hins := Graph.insert_of_lt hfront []
  unfold addNode
  rw [hactive]
  cases hside : Node.boundarySide? m.type with
  | none =>
    have hadd : (⟨front, []⟩ : Graph).add m = (⟨front, []⟩ : Graph).insert m := by
      simp [Graph.add, Node.isBoundary, hside]
    rw [hadd, hins]
    rfl
  | some side =>
    have hboundary : (n.type == Node.boundaryType side) = true := by
      rw [← htype, beq_iff_eq]
      exact Node.type_of_boundarySide? hside
    have hids : g.boundaryIds side = (⟨front, []⟩ : Graph).boundaryIds side ++
        n.id :: (⟨rest, []⟩ : Graph).boundaryIds side := by
      simp [Graph.boundaryIds, hnodes, hboundary]
    cases hgroup : w.group? with
    | none =>
      rw [hgroup] at hallowed
      rw [hallowed side] at hids
      simp at hids
    | some group =>
      rw [hgroup] at hallowed
      have hlength := hallowed side
      rw [hids, List.length_append, List.length_cons] at hlength
      have hexposes : group.exposes side = true := by
        cases h : group.exposes side with
        | true => rfl
        | false => simp [h] at hlength
      have hnone : (⟨front, []⟩ : Graph).boundaryIds side = [] := by
        rw [hexposes, if_pos rfl] at hlength
        exact List.eq_nil_of_length_eq_zero (by omega)
      simp only [Option.any_some, hexposes, hnone, List.isEmpty_nil, Bool.and_self, if_true, hins]
      rfl

section Groups

variable {w : Workbench} {front : List (Node Graph)} {n : Node Graph}

/-- The workbench inside the last group of its graph, while `inner` is being built. -/
def inside (w : Workbench) (front : List (Node Graph)) (n : Node Graph) (inner : Graph) :
    Workbench :=
  { w with focus := ⟨inner, ⟨n.id, ⟨front ++ [{ n with inner := none }], []⟩, .standard⟩ ::
    w.focus.frames⟩ }

theorem enter_of_find? {f : Focus} {id : NodeId} {n : Node Graph}
    (hfind : f.active.find? id = some n) (hgroup : n.isGroup = true) (viewport : Viewport) :
    f.enter id viewport =
      .ok ⟨n.inner.getD .empty,
        ⟨id, f.active.modify id fun n => { n with inner := none }, viewport⟩ :: f.frames⟩ := by
  simp [Focus.enter, hfind, hgroup]

theorem enterGroup_last (hfront : ∀ m ∈ front, m.id < n.id) (hgroup : n.isGroup = true) :
    (w.setGraph ⟨front ++ [{ n with inner := some .empty }], []⟩).enterGroup n.id =
      .ok (w.inside front n .empty) := by
  have hfind : (⟨front ++ [{ n with inner := some .empty }], []⟩ : Graph).find? n.id =
      some { n with inner := some .empty } := Graph.find?_of_lt hfront (by rfl) []
  have hmodify : (⟨front ++ [{ n with inner := some .empty }], []⟩ : Graph).modify n.id
      (fun n => { n with inner := none }) = ⟨front ++ [{ n with inner := none }], []⟩ :=
    Graph.modify_of_lt hfront (by rfl) [] _
  rw [enterGroup, enter_of_find? (n := { n with inner := some .empty }) hfind hgroup]
  simp only [setGraph, hmodify]
  rfl

theorem group?_inside (hfront : ∀ m ∈ front, m.id < n.id) (inner : Graph) :
    (w.inside front n inner).group? = some { n with inner := none } := by
  have hfind : (⟨front ++ [{ n with inner := none }], []⟩ : Graph).find? n.id =
      some { n with inner := none } := Graph.find?_of_lt hfront (by rfl) []
  simp only [group?, inside, Focus.currentGroup?, List.head?_cons, Option.bind_some, hfind]
  rfl

/-- Leaving a group reconciles its nested graph. -/
theorem exitGroup_inside (hfront : ∀ m ∈ front, m.id < n.id) {inner : Graph}
    (hsound : (inner.reconcile n).2.Sound) : (w.inside front n inner).exitGroup =
      w.setGraph ⟨front ++ [{ n with inner := some (inner.reconcile n).2 }], []⟩ := by
  have hfind : (⟨front ++ [{ n with inner := none }], []⟩ : Graph).find? n.id =
      some { n with inner := none } := Graph.find?_of_lt hfront (by rfl) []
  have hreconcile : inner.reconcile { n with inner := none } = inner.reconcile n := rfl
  have hmodify : (⟨front ++ [{ n with inner := none }], []⟩ : Graph).modify n.id
      (fun m => { m with inner := some (inner.reconcile n).2 }) =
        ⟨front ++ [{ n with inner := some (inner.reconcile n).2 }], []⟩ :=
    Graph.modify_of_lt hfront (by rfl) [] _
  simp only [exitGroup, inside, Focus.reconcile, Focus.currentGroup?, List.head?_cons,
    Option.bind_some, hfind, hreconcile, Focus.close, Frame.fill, hsound.prune_eq, hmodify]
  rfl

end Groups

end Script.Workbench

namespace Script

/-- The statements of a graph read it back on a workbench with nothing on it. -/
def Rebuilds (catalog : Catalog) (g : Graph) : Prop := ∀ (w : Workbench) (stats : Stats),
  w.focus.active = .empty → g.AllowedIn w.group? →
    ∃ stats', runStatements catalog stats w (graphStatements g) =
      (w.setGraph g.reloaded, .ok stats')

section Build

variable {catalog : Catalog} {g : Graph}

/-- The statement of the next node puts it behind the nodes before it. -/
theorem runStatement_statementOf (hg : g.DeclaredHere catalog) {front rest : List (Node Graph)}
    {n : Node Graph} (hnodes : g.nodes = front ++ n :: rest)
    (hnested : ∀ inner, n.inner = some inner → inner.WellFormed ∧ Rebuilds catalog inner)
    {w : Workbench} (hactive : w.focus.active = ⟨front.map Graph.reloadNode, []⟩)
    (hallowed : g.AllowedIn w.group?) (stats : Stats) :
    ∃ stats', runStatement catalog stats w (statementOf n ((n.inner.map graphStatements).getD [])) =
      (w.setGraph ⟨front.map Graph.reloadNode ++ [Graph.reloadNode n], []⟩, .ok stats') := by
  have hasc := hg.sound.reloaded.ascending
  have hnodes' : g.reloaded.nodes =
      front.map Graph.reloadNode ++ Graph.reloadNode n :: rest.map Graph.reloadNode := by
    rw [g.reloaded_eq, hnodes, List.map_append, List.map_cons]
  obtain ⟨hid, htype, -⟩ := Graph.reloadNode_fixes n
  have hadd (m : Node Graph) (hmid : m.id = n.id) (hmtype : m.type = n.type) :=
    Workbench.addNode_of_allowed (hallowed.congr (Graph.boundaryIds_congr g.roster_reloaded))
      hnodes' hasc hactive m
      (hmid.trans hid.symm) (hmtype.trans htype.symm)
  unfold statementOf
  cases hg.nodes n (by simp [hnodes]) with
  | plain isGroup type registered inputs outputs defaults inner =>
    have hdecl := node?_nodeDeclOf (.plain isGroup type registered inputs outputs defaults inner)
      isGroup stats.nodes
    refine ⟨stats.addNode, ?_⟩
    rw [Graph.reloadNode_of_plain isGroup]
    simp only [isGroup, Bool.false_eq_true, if_false, runStatement, hdecl, Target.addNode,
      hadd n rfl rfl, Workbench.settled]
  | @group nested isGroup type inner allowed =>
    have hfront : ∀ m ∈ front.map Graph.reloadNode, m.id < n.labelled.id := fun m hm => by
      rw [hnodes'] at hasc
      have hlt := (List.pairwise_append.1 hasc).2.2 m hm _ List.mem_cons_self
      rwa [hid] at hlt
    obtain ⟨hwellFormed, hrebuilds⟩ := hnested nested inner
    have hdecl := node_groupDeclOf isGroup type stats.nodes
    have henter := Workbench.enterGroup_last (w := w) hfront isGroup
    have hexit := Workbench.exitGroup_inside (w := w) hfront
      (hwellFormed.reloaded.reconcile n.labelled).sound
    have hinside :
        nested.AllowedIn (w.inside (front.map Graph.reloadNode) n.labelled .empty).group? := by
      rw [Workbench.group?_inside hfront]
      exact allowed
    obtain ⟨stats', hrun⟩ :=
      hrebuilds (w.inside (front.map Graph.reloadNode) n.labelled .empty) stats.addGroup rfl hinside
    have hdeclId : (groupDeclOf n).id = n.labelled.id := rfl
    refine ⟨stats', ?_⟩
    rw [if_pos isGroup, runStatement, hdecl, Graph.reloadNode_of_group isGroup inner]
    simp only [Target.addNode, hadd { n.labelled with inner := some .empty } rfl rfl,
      Workbench.settled, Target.enterGroup, hdeclId, henter, inner, Option.map_some,
        Option.getD_some, hrun]
    exact Prod.ext hexit rfl

theorem runStatements_nodes (hg : g.DeclaredHere catalog)
    (hnested : ∀ n ∈ g.nodes, ∀ inner, n.inner = some inner → inner.WellFormed ∧
      Rebuilds catalog inner)
    (front : List (Node Graph)) {rest : List (Node Graph)} (hnodes : g.nodes = front ++ rest)
    {w : Workbench} (hactive : w.focus.active = ⟨front.map Graph.reloadNode, []⟩)
    (hallowed : g.AllowedIn w.group?) (stats : Stats) :
    ∃ stats', runStatements catalog stats w
        (rest.map fun n => statementOf n ((n.inner.map graphStatements).getD [])) =
      (w.setGraph ⟨g.nodes.map Graph.reloadNode, []⟩, .ok stats') := by
  induction rest generalizing front w stats with
  | nil =>
    refine ⟨stats, ?_⟩
    rw [hnodes, List.append_nil, ← hactive]
    rfl
  | cons n rest ih =>
    obtain ⟨stats', hstep⟩ :=
      runStatement_statementOf hg hnodes (hnested n (by simp [hnodes])) hactive hallowed stats
    have hmore : g.nodes = (front ++ [n]) ++ rest := by rw [hnodes, List.append_assoc]; rfl
    obtain ⟨stats'', hrest⟩ := ih (front ++ [n]) hmore
      (w := w.setGraph ⟨front.map Graph.reloadNode ++ [Graph.reloadNode n], []⟩)
      (by simp [Workbench.setGraph])
      hallowed stats'
    refine ⟨stats'', ?_⟩
    rw [List.map_cons, runStatements, hstep]
    exact hrest

theorem runStatements_links (catalog : Catalog) (hg : g.Sound) (front : List Link)
    {rest : List Link} (hlinks : g.links = front ++ rest) {w : Workbench}
    (hactive : w.focus.active = ⟨g.nodes, front⟩) (stats : Stats) :
    ∃ stats', runStatements catalog stats w (rest.map (.connect 0)) =
      (w.setGraph g, .ok stats') := by
  induction rest generalizing front w stats with
  | nil =>
    have hdone : w.focus.active = g := by
      rw [hactive, ← List.append_nil front, ← hlinks]
      cases g
      rfl
    refine ⟨stats, ?_⟩
    rw [← hdone]
    rfl
  | cons l rest ih =>
    have hjoins : (⟨g.nodes, front⟩ : Graph).Joins l :=
      (Graph.joins_congr rfl).1 (hg.joined l (by simp [hlinks]))
    have hfree : ∀ k ∈ front, k.target ≠ l.target := fun k hk => by
      have hsingle := hg.single
      rw [hlinks] at hsingle
      exact (List.pairwise_append.1 hsingle).2.2 k hk l List.mem_cons_self
    have hconnect := Graph.connect_of_joins (g := ⟨g.nodes, front⟩) hg.ascending hjoins hfree
    have hmore : g.links = (front ++ [l]) ++ rest := by rw [hlinks, List.append_assoc]; rfl
    obtain ⟨stats', hrest⟩ :=
      ih (front ++ [l]) hmore (w := w.setGraph ⟨g.nodes, front ++ [l]⟩) rfl stats.addLink
    refine ⟨stats', ?_⟩
    rw [List.map_cons, runStatements, runStatement]
    simp only [Target.connect, Workbench.connect, hactive, hconnect, Except.map, Workbench.settled]
    exact hrest

/-- The statements of a graph read it back. -/
theorem rebuilds_of_declared (hg : g.Declared catalog) : Rebuilds catalog g := by
  induction hg with
  | @intro g here inside ih =>
    intro w stats hactive hallowed
    have hnested : ∀ n ∈ g.nodes, ∀ inner, n.inner = some inner → inner.WellFormed ∧
        Rebuilds catalog inner :=
      fun n hn inner hi => ⟨Graph.Declared.wellFormed (inside n hn inner hi), ih n hn inner hi⟩
    obtain ⟨stats', hnodes⟩ := runStatements_nodes here hnested [] rfl hactive hallowed stats
    have hlinks : g.reloaded.links = [] ++ g.links := by rw [g.reloaded_eq, List.nil_append]
    obtain ⟨stats'', hlinks⟩ := runStatements_links catalog here.sound.reloaded [] hlinks
      (w := w.setGraph ⟨g.nodes.map Graph.reloadNode, []⟩) (by rw [g.reloaded_eq]; rfl) stats'
    refine ⟨stats'', ?_⟩
    rw [graphStatements_eq, runStatements_append catalog hnodes, hlinks]
    rfl

end Build

end Script

end FlowGraph
