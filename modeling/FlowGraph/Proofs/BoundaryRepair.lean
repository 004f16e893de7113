import FlowGraph.Proofs.GroupPorts

/-! Boundary nodes put right. Whatever boundary nodes a nested graph holds, reconciling it with its
group leaves one for each plain flow port: the one with the lowest id, or a new one above all ids in
use. Besides the nodes that go and their links nothing changes, and reconciling once more changes
nothing at all. -/
namespace FlowGraph

namespace Graph

variable {g : Graph} {group : Node Graph} {side : Direction} {wanted : Bool}

/-! ### New boundary nodes -/

/-- A boundary node that is wanted and missing gets the id behind the last one in use. There is such
an id. -/
def HasRoom (g : Graph) (side : Direction) (wanted : Bool) : Prop :=
  wanted = true → g.boundaryIds side = [] → ∀ n ∈ g.nodes, n.id.toNat + 1 < UInt32.size

def HasRoomFor (g : Graph) (group : Node Graph) : Prop :=
  g.HasRoom .input (group.exposes .input) ∧
    (g.reconcileSide .input (group.exposes .input)).2.HasRoom .output (group.exposes .output)

theorem lt_nextId (hroom : ∀ n ∈ g.nodes, n.id.toNat + 1 < UInt32.size) {n : Node Graph}
    (hn : n ∈ g.nodes) : n.id < g.nextId := by
  have hlt : ∀ n ∈ g.nodes, n.id.toNat < UInt32.size - 1 :=
    fun n hn => Nat.lt_sub_of_add_lt (hroom n hn)
  exact UInt32.lt_iff_toNat_lt.2 ((nextId_bounds (by decide) (by decide) hlt).2 n hn)

theorem hasFreshId_of_room (hroom : ∀ n ∈ g.nodes, n.id.toNat + 1 < UInt32.size) :
    g.HasFreshId := by
  refine Bool.eq_false_iff.2 fun hcontains => ?_
  obtain ⟨n, hn, hid⟩ := contains_iff.1 hcontains
  exact UInt32.ne_of_lt (lt_nextId hroom hn) hid

theorem HasRoom.offers (hroom : g.HasRoom side wanted) : g.Offers side wanted := fun hwanted hnil =>
  hasFreshId_of_room (hroom hwanted hnil)

theorem HasRoomFor.reconcilable (hroom : g.HasRoomFor group) : g.Reconcilable group :=
  ⟨hroom.1.offers, hroom.2.offers⟩

/-- A boundary node that was missing is there, above the ids that were in use. -/
theorem exists_of_missing (hroom : g.HasRoom side true) (hnil : g.boundaryIds side = []) :
    ∃ id, .boundary side id ∈ (g.reconcileSide side true).2.nodes ∧ ∀ n ∈ g.nodes, n.id < id := by
  refine ⟨g.nextId, ?_, fun n hn => lt_nextId (hroom rfl hnil) hn⟩
  simp only [reconcileSide, hnil, insert_of_hasFreshId (hroom.offers rfl hnil)]
  exact mem_place.2 (.inl rfl)

theorem fst_reconcileSide (hasc : g.nodes.Pairwise (·.id < ·.id)) (hoffer : g.Offers side wanted) :
    (g.reconcileSide side wanted).1 = ((g.reconcileSide side wanted).2.boundaryIds side).head? := by
  rw [(boundaryIds_reconcileSide_self hasc hoffer).2]
  cases (g.reconcileSide side wanted).1 <;> rfl

/-! ### Boundary nodes that stay -/

section Stay

variable (hasc : g.nodes.Pairwise (·.id < ·.id))

include hasc

theorem boundary_reconcile (hgroup : g.Reconcilable group) :
    (g.reconcile group).2.boundary = (g.reconcile group).1 := by
  have hinput := fst_reconcileSide hasc hgroup.1
  have houtput :=
    fst_reconcileSide (ascending_reconcileSide hasc .input (group.exposes .input)) hgroup.2
  have hother :=
    boundaryIds_reconcileSide (ascending_reconcileSide hasc .input (group.exposes .input))
    (by simp : Direction.input ≠ .output) (group.exposes .output)
  rw [← hother] at hinput
  simp only [boundary, reconcile, hinput, houtput]

/-- Reconciling the second side takes no boundary node of the first away. -/
theorem mem_reconcile_of_input {n : Node Graph}
    (hn : n ∈ (g.reconcileSide .input (group.exposes .input)).2.nodes)
    (htype : n.type = Node.boundaryType .input) : n ∈ (g.reconcile group).2.nodes := by
  refine ((trimmed_second hasc group).kept n hn).2 fun hgone => ?_
  have hids :=
    boundaryIds_reconcileSide hasc (by simp : Direction.output ≠ .input) (group.exposes .input)
  have hside := mem_boundaryIds_of_surplus hgone
  rw [← hids] at hside
  have htype' :=
    type_of_mem_boundaryIds (ascending_reconcileSide hasc .input (group.exposes .input)) hn hside
  exact absurd (Node.boundaryType_injective (htype.symm.trans htype')) (by simp)

/-- The lowest id of a side is not too many where the side is wanted. -/
theorem not_mem_surplus_of_lowest {id : NodeId}
    (hlow : ∀ m ∈ g.nodes, m.type = Node.boundaryType side → id ≤ m.id) :
    id ∉ g.surplus side true := by
  intro hmem
  have hmem : id ∈ (g.boundaryIds side).tail := hmem
  have hascending := ascending_boundaryIds hasc side
  cases hids : g.boundaryIds side with
  | nil => simp [hids] at hmem
  | cons first rest =>
    rw [hids, List.tail_cons] at hmem
    rw [hids, List.pairwise_cons] at hascending
    obtain ⟨m, hm, hm', rfl⟩ : ∃ m ∈ g.nodes, m.type = Node.boundaryType side ∧ m.id = first :=
      mem_boundaryIds.1 (hids ▸ List.mem_cons_self)
    exact UInt32.not_lt.2 (hlow m hm hm') (hascending.1 id hmem)

theorem mem_reconcile_of_lowest (hwanted : group.exposes side = true) {n : Node Graph}
    (hn : n ∈ g.nodes) (htype : n.type = Node.boundaryType side)
    (hlow : ∀ m ∈ g.nodes, m.type = Node.boundaryType side → n.id ≤ m.id) :
    n ∈ (g.reconcile group).2.nodes := by
  refine (mem_reconcile_iff hasc group hn).2 fun hstale => ?_
  have hsurplus : ∃ other, n.id ∈ g.surplus other (group.exposes other) := by
    rcases List.mem_append.1 hstale with h | h
    · exact ⟨_, h⟩
    · exact ⟨_, h⟩
  obtain ⟨other, hsurplus⟩ := hsurplus
  have htype' := type_of_mem_boundaryIds hasc hn (mem_boundaryIds_of_surplus hsurplus)
  obtain rfl := Node.boundaryType_injective (htype.symm.trans htype')
  rw [hwanted] at hsurplus
  exact not_mem_surplus_of_lowest hasc hlow hsurplus

/-- A node that is no boundary node neither comes nor goes. -/
theorem mem_reconcile_of_plain {n : Node Graph} (hplain : n.isBoundary = false) :
    n ∈ (g.reconcile group).2.nodes ↔ n ∈ g.nodes := by
  have hnot : ∀ side, n.type ≠ Node.boundaryType side := fun side htype => by
    rw [Node.isBoundary_iff.2 ⟨side, htype⟩] at hplain
    cases hplain
  have hnew : ∀ side, n ≠ .boundary side n.id :=
    fun side heq => hnot side (heq ▸ type_boundary side n.id)
  constructor
  · intro hn
    have hn := ((trimmed_second hasc group).added n hn).resolve_right (hnew _)
    exact ((trimmed_reconcileSide g .input (group.exposes .input)).added n hn).resolve_right
      (hnew _)
  · intro hn
    refine (mem_reconcile_iff hasc group hn).2 fun hstale => ?_
    obtain ⟨side, hside⟩ := exists_of_mem_stale hstale
    exact hnot side (type_of_mem_boundaryIds hasc hn hside)

/-- What goes are nodes of the graph. -/
theorem mem_stale_iff {id : NodeId} :
    id ∈ g.stale group ↔ ∃ n ∈ g.nodes, n.id = id ∧ n ∉ (g.reconcile group).2.nodes := by
  constructor
  · intro hid
    obtain ⟨side, hside⟩ := exists_of_mem_stale hid
    obtain ⟨n, hn, -, rfl⟩ := mem_boundaryIds.1 hside
    exact ⟨n, hn, rfl, fun hkept => (mem_reconcile_iff hasc group hn).1 hkept hid⟩
  · rintro ⟨n, hn, rfl, hgone⟩
    rwa [mem_reconcile_iff hasc group hn, not_not] at hgone

end Stay

/-! ### Both sides -/

/-- What becomes of a graph `g` that is reconciled with a group: a graph `h`, of which `b` is
reported. -/
structure Reconciled (group : Node Graph) (g : Graph) (b : Boundary) (h : Graph) : Prop where
  ascending : h.nodes.Pairwise (·.id < ·.id)
  /-- One boundary node for each plain flow port, and no others. -/
  single : ∀ side, h.nodes.countP (·.type == Node.boundaryType side) = if Label.flow ∈
    group.ports side then 1 else 0
  lowest : ∀ side, Label.flow ∈ group.ports side → ∀ n ∈ g.nodes, n.type = Node.boundaryType side →
    (∀ m ∈ g.nodes, m.type = Node.boundaryType side → n.id ≤ m.id) → n ∈ h.nodes
  newInput : Label.flow ∈ group.inputs → g.boundaryIds .input = [] →
    ∃ id, .boundary .input id ∈ h.nodes ∧ ∀ n ∈ g.nodes, n.id < id
  /-- The node for the output comes last: all others are there by then. -/
  newOutput : Label.flow ∈ group.outputs → g.boundaryIds .output = [] →
    ∃ id, .boundary .output id ∈ h.nodes ∧ ∀ n ∈ h.nodes,
      n.type ≠ Node.boundaryType .output → n.id < id
  others : ∀ n : Node Graph, n.isBoundary = false → (n ∈ h.nodes ↔ n ∈ g.nodes)
  links : ∃ gone : List NodeId, (∀ id, id ∈ gone ↔ ∃ n ∈ g.nodes, n.id = id ∧ n ∉ h.nodes) ∧
    h.links = g.links.filter fun l => gone.all fun id => !l.touches id
  found : h.boundary = b
  again : h.reconcile group = (b, h)

/-- Reconciling puts any mixture of boundary nodes right, with no more changes than that takes. -/
theorem reconciled_reconcile (hasc : g.nodes.Pairwise (·.id < ·.id)) (group : Node Graph)
    (hroom : g.HasRoomFor group) :
    Reconciled group g (g.reconcile group).1 (g.reconcile group).2 := by
  have hinput := ascending_reconcileSide hasc .input (group.exposes .input)
  have hsync := inSync_reconcile hasc hroom.reconcilable
  have hfound := boundary_reconcile hasc hroom.reconcilable
  refine ⟨ascending_reconcileSide hinput .output _, hsync.countP_eq,
    fun side hport n hn htype hlow => ?_, ?_, ?_,
    fun n hplain => mem_reconcile_of_plain hasc hplain,
    ⟨g.stale group, fun id => mem_stale_iff hasc, links_reconcile hasc group⟩, hfound, ?_⟩
  · exact mem_reconcile_of_lowest hasc (Node.exposes_iff.2 hport) hn htype hlow
  · intro hport hnil
    have hexposes : group.exposes .input = true := Node.exposes_iff.2 hport
    have hroom := hroom.1
    rw [hexposes] at hroom
    obtain ⟨id, hmem, hlt⟩ := exists_of_missing hroom hnil
    rw [← hexposes] at hmem
    exact ⟨id, mem_reconcile_of_input hasc hmem (type_boundary _ _), hlt⟩
  · intro hport hnil
    have hexposes : group.exposes .output = true := Node.exposes_iff.2 hport
    have hroom := hroom.2
    rw [hexposes] at hroom
    rw [← boundaryIds_reconcileSide hasc (by simp : Direction.output ≠ .input)
      (group.exposes .input)] at hnil
    obtain ⟨id, hmem, hlt⟩ := exists_of_missing hroom hnil
    rw [← hexposes] at hmem
    refine ⟨id, hmem, fun n hn htype => ?_⟩
    rcases (trimmed_second hasc group).added n hn with hn | hnew
    · exact hlt n hn
    · exact absurd (hnew ▸ type_boundary _ _) htype
  · rw [hsync.reconcile_eq_boundary, hfound]

def passage : Node Graph := .group 1 "Passage" ["flow", "value"] ["flow:true", "flow"] .empty

/-- The flow input has two boundary nodes, one of them with the last id of all, and the flow output
has none. An input has two links, and a link comes from nowhere. -/
def crowded : Graph :=
  ⟨[.ofType 1 "log" ["flow", "message"] ["flow"], .boundary .input 2, .boundary .input 4294967295],
    [⟨⟨4294967295, 0⟩, ⟨1, 0⟩⟩, ⟨⟨9, 0⟩, ⟨1, 1⟩⟩, ⟨⟨2, 0⟩, ⟨1, 0⟩⟩]⟩

/-- The last id becomes free before an id is needed for the output. -/
theorem reconciled_reconcile_crowded :
    crowded.nodes.Pairwise (·.id < ·.id) ∧ crowded.HasRoomFor passage ∧
    (crowded.reconcile passage).2.ids = [1, 2, 3] ∧
    (crowded.reconcile passage).2.links = [⟨⟨9, 0⟩, ⟨1, 1⟩⟩, ⟨⟨2, 0⟩, ⟨1, 0⟩⟩] ∧
    Reconciled passage crowded ⟨some 2, some 3⟩ (crowded.reconcile passage).2 := by
  have hasc : crowded.nodes.Pairwise (·.id < ·.id) := by decide
  have hids : (crowded.reconcileSide .input (passage.exposes .input)).2.nodes.all
      (fun n => decide (n.id.toNat + 1 < UInt32.size)) = true := by decide
  have hroom : crowded.HasRoomFor passage := by
    refine ⟨fun _ hnil => ?_, fun _ _ n hn => by simpa using List.all_eq_true.1 hids n hn⟩
    exact absurd hnil (by decide)
  have hreported : (crowded.reconcile passage).1 = ⟨some 2, some 3⟩ := by decide
  exact ⟨hasc, hroom, by decide, by decide, hreported ▸ reconciled_reconcile hasc passage hroom⟩

end Graph
end FlowGraph
