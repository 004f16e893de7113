import FlowGraph.Catalog.Basic
import FlowGraph.Proofs.BoundaryNodes
import FlowGraph.Proofs.ScriptText

/-! Graphs that scripts declare, and what the script of such a graph makes of it. Reading a graph
back gives every group a name that is a text, and the boundary nodes that it lacks; a graph in which
nothing of this is missing is read back as it is. -/
namespace FlowGraph

/-- A node that a statement can declare: a plain node of a registered type with the ports and the
fields of its template, or a group, whose nested graph may still lack boundary nodes. -/
inductive Node.Declared (catalog : Catalog) (n : Node Graph) : Prop
  | plain {template : Template} (isGroup : n.isGroup = false) (type : n.type ≠ groupType)
      (registered : catalog.find? n.type = some template) (inputs : n.inputs = template.inputs)
      (outputs : n.outputs = template.outputs)
      (defaults : ∀ name, template.defaults.contains name = true → n.fields.contains name = true)
      (inner : n.inner = none)
  | group {nested : Graph} (isGroup : n.isGroup = true) (type : n.type = groupType)
      (inner : n.inner = some nested) (allowed : nested.Allowed n)

namespace Graph

structure DeclaredHere (catalog : Catalog) (g : Graph) : Prop where
  sound : g.Sound
  nodes : ∀ n ∈ g.nodes, n.Declared catalog
  readable : ∀ l ∈ g.links, Script.ReadablePorts l

def Declared (catalog : Catalog) (g : Graph) : Prop := g.Everywhere (DeclaredHere catalog)

/-- The boundary nodes are among those for the ports of the group around the graph, if there is
one. -/
def AllowedIn (g : Graph) : Option (Node Graph) → Prop
  | none => g.Plain
  | some group => g.Allowed group

theorem AllowedIn.congr {g h : Graph} {group : Option (Node Graph)} (hg : g.AllowedIn group)
    (hids : ∀ side, h.boundaryIds side = g.boundaryIds side) : h.AllowedIn group := by
  cases group with
  | none => exact Plain.congr hg hids
  | some group => exact Allowed.congr hg hids

variable {catalog : Catalog} {g : Graph}

theorem Declared.wellFormed (h : g.Declared catalog) : g.WellFormed :=
  h.imp fun _ here => here.sound

theorem Declared.isReadable (h : g.Declared catalog) : g.IsReadable :=
  h.imp fun _ here => here.readable

end Graph

/-! ### What reading back makes of a graph -/

namespace Node

def labelled (n : Node Graph) : Node Graph :=
  { n with fields := n.fields.insert "name" (.text n.displayName) }

theorem labelled_eq_self_iff {n : Node Graph} :
    n.labelled = n ↔ ∃ name, n.text? "name" = some name := by
  constructor
  · intro h
    have hname : n.labelled.fields.get? "name" = some (.text n.displayName) :=
      NameMap.get?_insert_self ..
    rw [h] at hname
    exact ⟨n.displayName, by rw [text?, hname]; rfl⟩
  · rintro ⟨name, hname⟩
    have hdisplay : n.displayName = name := by rw [displayName, hname, Option.getD_some]
    obtain ⟨v, hv, htext⟩ := Option.bind_eq_some_iff.1 hname
    have hfields : n.fields.insert "name" (.text n.displayName) = n.fields := by
      refine NameMap.ext_get? fun x => ?_
      rw [NameMap.get?_insert, hdisplay]
      split
      · next hx =>
        cases v <;> cases htext
        rw [hx, hv]
      · rfl
    rw [labelled, hfields]

/-- A node read back, where `inner` is what becomes of its nested graph. -/
def reloaded (n : Node Graph) (inner : Option Graph) : Node Graph :=
  if n.isGroup then { n.labelled with inner := some ((inner.getD .empty).reconcile n).2 } else n

end Node

namespace Graph

/-- The graph read back from its own script. -/
def reloaded : Graph → Graph := fold fun entries links =>
  ⟨entries.map fun (n, inner) => n.reloaded inner, links⟩

variable {catalog : Catalog} {g : Graph}

def reloadNode (n : Node Graph) : Node Graph := n.reloaded (n.inner.map reloaded)

theorem reloaded_eq (g : Graph) : g.reloaded = ⟨g.nodes.map reloadNode, g.links⟩ := by
  rw [reloaded, fold_eq, List.map_map]
  rfl

theorem reloadNode_fixes (n : Node Graph) :
    (reloadNode n).id = n.id ∧ (reloadNode n).type = n.type ∧
    (reloadNode n).inputs = n.inputs ∧ (reloadNode n).outputs = n.outputs := by
  unfold reloadNode Node.reloaded
  split <;> exact ⟨rfl, rfl, rfl, rfl⟩

theorem reloadNode_of_plain {n : Node Graph} (h : n.isGroup = false) : reloadNode n = n := by
  simp [reloadNode, Node.reloaded, h]

theorem reloadNode_of_group {n : Node Graph} {nested : Graph} (hgroup : n.isGroup = true)
    (hinner : n.inner = some nested) :
    reloadNode n = { n.labelled with inner := some (nested.reloaded.reconcile n).2 } := by
  rw [reloadNode, Node.reloaded, if_pos hgroup, hinner]
  rfl

theorem roster_reloaded (g : Graph) : g.reloaded.roster = g.roster := by
  rw [reloaded_eq]
  simp only [roster, List.map_map]
  refine List.map_congr_left fun n _ => ?_
  obtain ⟨hid, htype, -⟩ := reloadNode_fixes n
  simp only [Function.comp_apply, hid, htype]

theorem Sound.reloaded (h : g.Sound) : g.reloaded.Sound := by
  rw [reloaded_eq]
  refine ⟨List.pairwise_map.2 (h.ascending.imp fun {n m} hlt => ?_), fun l hl => ?_, h.single⟩
  · rw [(reloadNode_fixes n).1, (reloadNode_fixes m).1]
    exact hlt
  · refine (h.joined l hl).transport fun n hn _ => ⟨_, List.mem_map.2 ⟨n, hn, rfl⟩, ?_⟩
    obtain ⟨hid, -, hports⟩ := reloadNode_fixes n
    exact ⟨hid, hports⟩

theorem WellFormed.reloaded (h : g.WellFormed) : g.reloaded.WellFormed := by
  induction h with
  | @intro g here inside ih =>
    refine .intro here.reloaded fun m hm nested hi => ?_
    rw [reloaded_eq] at hm
    obtain ⟨n, hn, rfl⟩ := List.mem_map.1 hm
    have hinner : ((n.inner.map Graph.reloaded).getD .empty).WellFormed := by
      cases hi : n.inner with
      | none => exact wellFormed_empty
      | some nested => exact ih n hn nested hi
    unfold reloadNode Node.reloaded at hi
    split at hi
    · rw [← Option.some.inj hi]
      exact hinner.reconcile n
    · exact inside n hn nested hi

/-- Every group has a text for a name, and no boundary node is missing that could be made. -/
def Faithful (g : Graph) : Prop := g.Everywhere fun h => ∀ n ∈ h.nodes, n.isGroup = true →
  (∃ name, n.text? "name" = some name) ∧ ∀ nested, n.inner = some nested → nested.Tended n

theorem length_reloaded (g : Graph) : g.reloaded.nodes.length = g.nodes.length := by
  rw [reloaded_eq, List.length_map]

theorem reloaded_eq_self_iff_nodes : g.reloaded = g ↔ ∀ n ∈ g.nodes, reloadNode n = n := by
  rw [reloaded_eq]
  constructor
  · intro h n hn
    have hmap := (congrArg Graph.nodes h).trans (List.map_id _).symm
    exact List.map_inj_left.1 hmap n hn
  · intro h
    have hmap := (List.map_congr_left h).trans (List.map_id' g.nodes)
    cases g with
    | mk nodes links => exact congrArg (Graph.mk · links) hmap

/-- A group is read back as it is if its name is a text, its nested graph is read back as it is, and
reconciling adds nothing to that. -/
theorem reloadNode_eq_self_iff {n : Node Graph} {nested : Graph} (hgroup : n.isGroup = true)
    (hinner : n.inner = some nested) (hnested : nested.WellFormed) (hallowed : nested.Allowed n) :
    reloadNode n = n ↔
      (∃ name, n.text? "name" = some name) ∧ nested.reloaded = nested ∧ nested.Tended n := by
  have hnode : ({ n.labelled with inner := some (nested.reloaded.reconcile n).2 } : Node Graph) =
      n ↔ n.labelled = n ∧ (nested.reloaded.reconcile n).2 = nested := by
    obtain ⟨id, type, position, size, inputs, outputs, fields, isGroup, inner⟩ := n
    subst hinner
    simp [Node.labelled]
  rw [reloadNode_of_group hgroup hinner, hnode, Node.labelled_eq_self_iff]
  refine and_congr_right fun _ => ⟨fun h => ?_, fun ⟨hself, htended⟩ => ?_⟩
  · -- Reading back keeps the number of nodes, so that reconciling did not add any.
    have hlength : (nested.reloaded.reconcile n).2.nodes.length ≤ nested.reloaded.nodes.length := by
      rw [h, length_reloaded]
    have hself := reconcile_eq_of_length_le hnested.reloaded
      (hallowed.congr (boundaryIds_congr nested.roster_reloaded)) hlength
    have hself : nested.reloaded = nested := hself.symm.trans h
    rw [hself] at h
    exact ⟨hself, (reconcile_eq_self_iff hnested hallowed).1 h⟩
  · rw [hself]
    exact (reconcile_eq_self_iff hnested hallowed).2 htended

/-- Exactly the faithful graphs are read back as they are. -/
theorem Declared.reloaded_eq_self_iff (h : g.Declared catalog) : g.reloaded = g ↔ g.Faithful := by
  induction h with
  | @intro g here inside ih =>
    rw [reloaded_eq_self_iff_nodes]
    constructor
    · intro hnodes
      have hgroup : ∀ n ∈ g.nodes, ∀ nested, n.inner = some nested →
          (∃ name, n.text? "name" = some name) ∧ nested.reloaded = nested ∧ nested.Tended n := by
        intro n hn nested hi
        cases here.nodes n hn with
        | plain _ _ _ _ _ _ inner => rw [inner] at hi; cases hi
        | group isGroup _ inner allowed =>
          obtain rfl := Option.some.inj (inner.symm.trans hi)
          exact (reloadNode_eq_self_iff isGroup inner (Declared.wellFormed (inside n hn _ inner))
            allowed).1 (hnodes n hn)
      refine .intro (fun n hn isGroup => ?_) fun n hn nested hi =>
        (ih n hn nested hi).1 (hgroup n hn nested hi).2.1
      cases here.nodes n hn with
      | plain isPlain => rw [isGroup] at isPlain; cases isPlain
      | group _ _ inner _ =>
        exact ⟨(hgroup n hn _ inner).1, fun nested hi => (hgroup n hn nested hi).2.2⟩
    · intro hfaithful n hn
      cases here.nodes n hn with
      | plain isPlain => exact reloadNode_of_plain isPlain
      | group isGroup _ inner allowed =>
        obtain ⟨hname, htended⟩ := hfaithful.here n hn isGroup
        refine (reloadNode_eq_self_iff isGroup inner
          (Declared.wellFormed (inside n hn _ inner)) allowed).2
          ⟨hname, ?_, htended _ inner⟩
        exact (ih n hn _ inner).2 (hfaithful.inside hn inner)

theorem Faithful.insert {h : Graph} (hg : g.Faithful) {n : Node Graph} (hgroup : n.isGroup = false)
    (hinner : n.inner = none) (hins : g.insert n = .ok h) : h.Faithful := by
  obtain ⟨-, rfl⟩ := insert_eq_ok_iff.1 hins
  refine .intro (fun m hm isGroup => ?_) fun m hm nested hi => ?_
  · rcases mem_place.1 hm with rfl | hm
    · rw [hgroup] at isGroup
      cases isGroup
    · exact hg.here m hm isGroup
  · rcases mem_place.1 hm with rfl | hm
    · rw [hinner] at hi
      cases hi
    · exact hg.inside hm hi

theorem Faithful.reconcileSide (hg : g.Faithful) {side : Direction} {wanted : Bool}
    (hside : (g.boundaryIds side).length ≤ if wanted then 1 else 0) :
    (g.reconcileSide side wanted).2.Faithful := by
  rcases reconcileSide_cases hside with ⟨heq, -⟩ | ⟨hins, -⟩
  · rw [heq]
    exact hg
  · exact hg.insert (by cases side <;> rfl) (by cases side <;> rfl) hins

/-- What is read back once is read back as it is from then on. -/
theorem Declared.faithful_reloaded (h : g.Declared catalog) : g.reloaded.Faithful := by
  induction h with
  | @intro g here inside ih =>
    have hnode : ∀ m ∈ g.reloaded.nodes, (m ∈ g.nodes ∧ m.isGroup = false ∧ m.inner = none) ∨
        ∃ n ∈ g.nodes, ∃ nested, n.inner = some nested ∧ nested.Allowed n ∧
          m = { n.labelled with inner := some (nested.reloaded.reconcile n).2 } := by
      intro m hm
      rw [reloaded_eq] at hm
      obtain ⟨n, hn, rfl⟩ := List.mem_map.1 hm
      cases here.nodes n hn with
      | plain isGroup _ _ _ _ _ inner =>
        rw [reloadNode_of_plain isGroup]
        exact .inl ⟨hn, isGroup, inner⟩
      | group isGroup _ inner allowed =>
        exact .inr ⟨n, hn, _, inner, allowed, reloadNode_of_group isGroup inner⟩
    refine .intro (fun m hm isGroup => ?_) fun m hm nested hi => ?_
    · rcases hnode m hm with ⟨-, hplain, -⟩ | ⟨n, hn, nested, hinner, hallowed, rfl⟩
      · rw [hplain] at isGroup
        cases isGroup
      · have hreloaded := (Declared.wellFormed (inside n hn nested hinner)).reloaded
        refine ⟨⟨n.displayName, ?_⟩, fun k hk => ?_⟩
        · simp [Node.text?, Node.labelled, Value.text?]
        · rw [← Option.some.inj hk]
          exact tended_reconcile hreloaded
            (hallowed.congr (boundaryIds_congr nested.roster_reloaded))
    · rcases hnode m hm with ⟨-, -, hnone⟩ | ⟨n, hn, k, hinner, hallowed, rfl⟩
      · rw [hnone] at hi
        cases hi
      · have hreloaded := (Declared.wellFormed (inside n hn k hinner)).reloaded
        have hallowed := hallowed.congr (boundaryIds_congr k.roster_reloaded)
        rw [← Option.some.inj hi]
        exact ((ih n hn k hinner).reconcileSide (hallowed .input)).reconcileSide
          (allowed_reconcileSide hreloaded hallowed)

/-! ### Canonical numbers change nothing of this -/

theorem roster_canonical (g : Graph) : g.canonical.roster = g.roster := by
  rw [canonical_eq]
  simp [roster, Node.canonical, Function.comp_def]

theorem Sound.canonical (h : g.Sound) : g.canonical.Sound := by
  rw [canonical_eq]
  refine ⟨List.pairwise_map.2 h.ascending, fun l hl => ?_, h.single⟩
  refine (h.joined l hl).transport fun n hn _ => ?_
  exact ⟨_, List.mem_map.2 ⟨n, hn, rfl⟩, rfl, rfl, rfl⟩

theorem mem_canonical {m : Node Graph} :
    m ∈ g.canonical.nodes ↔ ∃ n ∈ g.nodes, n.canonical (n.inner.map canonical) = m := by
  rw [canonical_eq]
  exact List.mem_map

end Graph

theorem Node.Declared.canonical {catalog : Catalog} {n : Node Graph} (h : n.Declared catalog) :
    (n.canonical (n.inner.map Graph.canonical)).Declared catalog := by
  cases h with
  | plain isGroup type registered inputs outputs defaults inner =>
    refine .plain isGroup type registered inputs outputs (fun name hname => ?_)
      (by simp [Node.canonical, inner])
    have hfield := defaults name hname
    simpa [NameMap.contains, Node.canonical, NameMap.get?_map] using hfield
  | @group nested isGroup type inner allowed =>
    have hinner : (n.canonical (n.inner.map Graph.canonical)).inner = some nested.canonical := by
      simp [Node.canonical, inner]
    exact .group isGroup type hinner
      (allowed.congr (Graph.boundaryIds_congr nested.roster_canonical))

namespace Graph

variable {catalog : Catalog} {g : Graph}

theorem Declared.canonical (h : g.Declared catalog) : g.canonical.Declared catalog := by
  induction h with
  | @intro g here _ ih =>
    have hlinks : g.canonical.links = g.links := by rw [canonical_eq]
    refine .intro ⟨here.sound.canonical, fun m hm => ?_, fun l hl => here.readable l
      (hlinks ▸ hl)⟩ ?_
    · obtain ⟨n, hn, rfl⟩ := mem_canonical.1 hm
      exact (here.nodes n hn).canonical
    · intro m hm inner hi
      obtain ⟨n, hn, rfl⟩ := mem_canonical.1 hm
      obtain ⟨k, hk, rfl⟩ := Option.map_eq_some_iff.1 hi
      exact ih n hn k hk

theorem faithful_canonical_iff : g.canonical.Faithful ↔ g.Faithful := by
  induction g using nestedInduction with
  | step g ih =>
    rw [Faithful, everywhere_iff, Faithful, everywhere_iff]
    simp only [mem_canonical, forall_exists_index, and_imp, forall_apply_eq_imp_iff₂]
    refine and_congr (forall₂_congr fun n hn => imp_congr_right fun _ => and_congr ?_ ?_) ?_
    · simp only [n.text?_canonical]
    · simp only [Node.canonical, Option.map_eq_some_iff, forall_exists_index, and_imp,
        forall_apply_eq_imp_iff₂]
      exact forall₂_congr fun nested _ => tended_congr nested.roster_canonical
    · simp only [Node.canonical, Option.map_eq_some_iff, forall_exists_index, and_imp,
        forall_apply_eq_imp_iff₂]
      exact forall₂_congr fun n hn => forall₂_congr fun nested hi => ih n hn nested hi

end Graph
end FlowGraph
