import Mathlib.Logic.Basic
import FlowGraph.Session
import FlowGraph.Proofs.BoundaryNodes

/-! New ports for a group. Around the group those links go that no longer join what may be joined;
inside it those boundary nodes go, with their links, that stand for no port of the group any more.
Nothing else changes. -/
namespace FlowGraph
namespace Graph

/-! ### Boundary nodes that go -/

theorem links_eraseAll (g : Graph) (ids : List NodeId) :
    (ids.foldl erase g).links = g.links.filter fun l => ids.all fun id => !l.touches id := by
  induction ids generalizing g with
  | nil => exact (List.filter_eq_self.2 fun _ _ => rfl).symm
  | cons id ids ih =>
    rw [List.foldl_cons, ih, erase, List.filter_filter]
    congr 1
    funext l
    simp [Bool.and_comm]

def surplus (g : Graph) (side : Direction) (wanted : Bool) : List NodeId :=
  if wanted then (g.boundaryIds side).tail else g.boundaryIds side

theorem mem_boundaryIds_of_surplus {g : Graph} {side : Direction} {wanted : Bool} {id : NodeId}
    (h : id ∈ g.surplus side wanted) : id ∈ g.boundaryIds side := by
  unfold surplus at h
  split at h
  · exact List.mem_of_mem_tail h
  · exact h

/-- Nodes go with their links, and a boundary node of one side may come. -/
structure Trimmed (side : Direction) (gone : List NodeId) (g h : Graph) : Prop where
  kept : ∀ n ∈ g.nodes, n ∈ h.nodes ↔ n.id ∉ gone
  added : ∀ n ∈ h.nodes, n ∈ g.nodes ∨ n = .boundary side n.id
  links : h.links = g.links.filter fun l => gone.all fun id => !l.touches id

theorem trimmed_eraseAll (side : Direction) (g : Graph) (ids : List NodeId) :
    Trimmed side ids g (ids.foldl erase g) where
  kept n hn := by simp [nodes_eraseAll, hn]
  added n hn := by
    rw [nodes_eraseAll] at hn
    exact .inl (List.mem_filter.1 hn).1
  links := links_eraseAll g ids

theorem trimmed_self (side : Direction) (g : Graph) : Trimmed side [] g g :=
  trimmed_eraseAll side g []

theorem trimmed_reconcileSide (g : Graph) (side : Direction) (wanted : Bool) :
    Trimmed side (g.surplus side wanted) g (g.reconcileSide side wanted).2 := by
  cases hids : g.boundaryIds side with
  | nil =>
    have hnone : g.surplus side wanted = [] := by simp [surplus, hids]
    rw [hnone]
    cases wanted with
    | false => simpa [reconcileSide, hids] using trimmed_self side g
    | true =>
      cases hins : g.insert (.boundary side g.nextId) with
      | error e => simpa [reconcileSide, hids, hins] using trimmed_self side g
      | ok h =>
        obtain ⟨-, rfl⟩ := insert_eq_ok_iff.1 hins
        have hid : (Node.boundary side g.nextId : Node Graph).id = g.nextId := by cases side <;> rfl
        simp only [reconcileSide, hids, hins]
        refine ⟨fun n hn => by simp [mem_place, hn], fun n hn => ?_, (trimmed_self side g).links⟩
        rcases mem_place.1 hn with rfl | hn
        · exact .inr (by rw [hid])
        · exact .inl hn
  | cons first rest =>
    cases wanted with
    | false => simpa [reconcileSide, surplus, hids] using trimmed_eraseAll side g (first :: rest)
    | true => simpa [reconcileSide, surplus, hids] using trimmed_eraseAll side g rest

/-- Only boundary nodes go and come, and of the links those go that touch a node that goes. -/
structure Rebounded (g h : Graph) : Prop where
  removed : ∀ n ∈ g.nodes, n ∉ h.nodes → n.isBoundary = true
  added : ∀ n ∈ h.nodes, n ∉ g.nodes → ∃ side, n = .boundary side n.id
  order : h.links.Sublist g.links
  links : ∀ l ∈ g.links, l ∈ h.links ↔ ∀ n ∈ g.nodes, n ∉ h.nodes → l.touches n.id = false

/-- The boundary nodes that a group has no port for, or that are more than one for a port. -/
def stale (g : Graph) (group : Node Graph) : List NodeId :=
  g.surplus .input (group.exposes .input) ++ g.surplus .output (group.exposes .output)

theorem exists_of_mem_stale {g : Graph} {group : Node Graph} {id : NodeId}
    (h : id ∈ g.stale group) : ∃ side, id ∈ g.boundaryIds side := by
  rcases List.mem_append.1 h with h | h
  · exact ⟨_, mem_boundaryIds_of_surplus h⟩
  · exact ⟨_, mem_boundaryIds_of_surplus h⟩

section Reconcile

variable {g : Graph} (hasc : g.nodes.Pairwise (·.id < ·.id)) (group : Node Graph)

include hasc

theorem type_of_mem_boundaryIds {side : Direction} {n : Node Graph} (hn : n ∈ g.nodes)
    (h : n.id ∈ g.boundaryIds side) : n.type = Node.boundaryType side := by
  obtain ⟨m, hm, htype, hid⟩ := mem_boundaryIds.1 h
  rwa [← eq_of_mem_of_id_eq hasc hm hn hid]

/-- The second side finds the same nodes to take out, whatever the first did. -/
theorem trimmed_second : Trimmed .output (g.surplus .output (group.exposes .output))
    (g.reconcileSide .input (group.exposes .input)).2 (g.reconcile group).2 := by
  have h := trimmed_reconcileSide (g.reconcileSide .input (group.exposes .input)).2 .output
    (group.exposes .output)
  rwa [surplus, boundaryIds_reconcileSide hasc (by simp), ← surplus] at h

theorem mem_reconcile_iff {n : Node Graph} (hn : n ∈ g.nodes) :
    n ∈ (g.reconcile group).2.nodes ↔ n.id ∉ g.stale group := by
  have hfirst := trimmed_reconcileSide g .input (group.exposes .input)
  have hsecond := trimmed_second hasc group
  rw [stale, List.mem_append, not_or]
  by_cases hgone : n.id ∈ g.surplus .input (group.exposes .input)
  · have hnot : n ∉ (g.reconcileSide .input (group.exposes .input)).2.nodes :=
      fun hkept => (hfirst.kept n hn).1 hkept hgone
    -- What goes on the one side is no node that comes on the other.
    refine iff_of_false (fun hmem => ?_) fun h => h.1 hgone
    rcases hsecond.added n hmem with hmem | hnew
    · exact hnot hmem
    · have htype := type_of_mem_boundaryIds hasc hn (mem_boundaryIds_of_surplus hgone)
      rw [hnew, type_boundary] at htype
      exact absurd (Node.boundaryType_injective htype) (by simp)
  · rw [and_iff_right hgone]
    exact hsecond.kept n ((hfirst.kept n hn).2 hgone)

theorem links_reconcile : (g.reconcile group).2.links =
    g.links.filter fun l => (g.stale group).all fun id => !l.touches id := by
  rw [(trimmed_second hasc group).links,
    (trimmed_reconcileSide g .input (group.exposes .input)).links, List.filter_filter]
  simp [stale, List.all_append, Bool.and_comm]

end Reconcile

theorem rebounded_reconcile {g : Graph} (hg : g.WellFormed) (group : Node Graph) :
    g.Rebounded (g.reconcile group).2 where
  removed n hn hgone := by
    rw [mem_reconcile_iff hg.sound.ascending group hn, not_not] at hgone
    obtain ⟨side, hside⟩ := exists_of_mem_stale hgone
    exact Node.isBoundary_iff.2 ⟨side, type_of_mem_boundaryIds hg.sound.ascending hn hside⟩
  added n hn hnew := by
    rcases (trimmed_second hg.sound.ascending group).added n hn with hmem | heq
    · rcases (trimmed_reconcileSide g .input (group.exposes .input)).added n hmem with hmem | heq
      · exact absurd hmem hnew
      · exact ⟨_, heq⟩
    · exact ⟨_, heq⟩
  order := by
    rw [links_reconcile hg.sound.ascending group]
    exact List.filter_sublist
  links l hl := by
    simp only [links_reconcile hg.sound.ascending group, List.mem_filter, hl, true_and,
      List.all_eq_true, Bool.not_eq_true']
    constructor
    · intro hall n hn hgone
      rw [mem_reconcile_iff hg.sound.ascending group hn, not_not] at hgone
      exact hall n.id hgone
    · intro hall id hid
      obtain ⟨side, hside⟩ := exists_of_mem_stale hid
      obtain ⟨n, hn, -, rfl⟩ := mem_boundaryIds.1 hside
      exact hall n hn fun hkept => (mem_reconcile_iff hg.sound.ascending group hn).1 hkept hid

/-! ### Links that go -/

/-- A graph in which a group has new ports. Outside the group only links change: those stay, in
their order, that join an output and an input of one kind. -/
structure Repatched (group : Node Graph) (g h : Graph) : Prop where
  nodes : h.nodes = g.nodes.map fun n => if n.id = group.id then group else n
  order : h.links.Sublist g.links
  links : ∀ l ∈ g.links, l ∈ h.links ↔ h.Joins l

theorem repatched_prune {g : Graph} (hg : g.Sound) (group : Node Graph) :
    g.Repatched group (g.modify group.id fun _ => group).prune where
  nodes := by simp [modify]
  order := by
    rw [links_prune]
    exact List.filter_sublist
  links l hl := by
    have hasc : (g.modify group.id fun _ => group).nodes.Pairwise (·.id < ·.id) :=
      ascending_modify hg.ascending fun _ _ _ => rfl
    rw [prune_eq_filter]
    exact List.mem_filter.trans ((and_iff_right hl).trans ((fits_iff hasc).trans (joins_congr rfl)))

end Graph

def Node.refit (n : Node Graph) (inputs outputs : List String) : Node Graph :=
  { n with
    inputs, outputs,
    inner := some ((n.inner.getD .empty).reconcile { n with inputs, outputs }).2 }

namespace Graph

variable {g : Graph} {id : NodeId}

theorem setPorts_of_group (hg : g.WellFormed) {n : Node Graph} (hn : n ∈ g.nodes) (hid : n.id = id)
    (hgroup : n.isGroup = true) (inputs outputs : List String) :
    g.setPorts id inputs outputs =
      .ok (((n.inner.getD .empty).reconcile { n with inputs, outputs }).1,
      (g.modify id fun _ => n.refit inputs outputs).prune) := by
  have hinner := (WellFormed.getD fun _ hi => hg.nested hn hi).reconcile { n with inputs, outputs }
  have hprune := hinner.sound.prune_eq
  simp only [setPorts, (find?_eq_some_iff hg.sound.ascending).2 ⟨hn, hid⟩, hgroup,
    if_true] at hprune ⊢
  simp only [Node.refit, hgroup, hprune]

theorem setPorts_of_no_group (hnone : ∀ n ∈ g.nodes, n.id = id → n.isGroup = false)
    (inputs outputs : List String) :
    g.setPorts id inputs outputs =
      .error (if g.contains id then .notAGroup id else .nodeNotFound id) := by
  unfold setPorts contains
  cases hfind : g.find? id with
  | none => rfl
  | some n =>
    obtain ⟨hn, hid⟩ := find?_mem hfind
    simp [hnone n hn hid]

/-- New ports are refused for what is no group, and then nothing changes. A group gets them, and its
nested graph is reconciled with them; links that no longer fit go on both sides of the group, and
all else stays. -/
theorem WellFormed.setPorts_exact (hg : g.WellFormed) (id : NodeId) (inputs outputs : List String) :
    ((∀ n ∈ g.nodes, n.id = id → n.isGroup = false) → ∀ (catalog : Catalog) (s : Session),
      s.document.active = g → s.apply catalog (.setPorts id inputs outputs) =
        (s, .error (.edit (if g.contains id then .notAGroup id else .nodeNotFound id)))) ∧
    ∀ n ∈ g.nodes, n.id = id → n.isGroup = true → ∃ h,
      g.setPorts id inputs outputs =
      .ok (((n.inner.getD .empty).reconcile { n with inputs, outputs }).1, h) ∧
      g.Repatched (n.refit inputs outputs) h ∧
      (n.inner.getD .empty).Rebounded
      ((n.inner.getD .empty).reconcile { n with inputs, outputs }).2 ∧ h.WellFormed := by
  refine ⟨fun hnone catalog s hs => ?_, fun n hn hid hgroup => ?_⟩
  · simp [Session.apply, Document.setPorts, hs, setPorts_of_no_group hnone, Except.map,
      Session.settle]
  · have hset := setPorts_of_group hg hn hid hgroup inputs outputs
    subst hid
    exact ⟨_, hset, repatched_prune hg.sound (n.refit inputs outputs),
      rebounded_reconcile (WellFormed.getD fun _ hi => hg.nested hn hi) _, hg.setPorts hset⟩

def crossed : Node Graph :=
  .group 2 "Body" ["flow"] ["flow"]
    ⟨[.ofType 1 "text" [] ["value"], .ofType 2 "log" ["flow", "message"] ["flow"],
      .boundary .input 3], [⟨⟨3, 0⟩, ⟨2, 0⟩⟩, ⟨⟨1, 0⟩, ⟨2, 1⟩⟩]⟩

def crossing : Graph :=
  ⟨[.ofType 1 "on-start" [] ["flow"], crossed, .ofType 3 "log" ["flow", "message"] ["flow"]],
    [⟨⟨1, 0⟩, ⟨2, 0⟩⟩, ⟨⟨2, 0⟩, ⟨3, 0⟩⟩]⟩

theorem wellFormed_crossing : crossing.WellFormed := by
  refine .intro (sound_of_fits (by decide) (List.all_eq_true.1 (by decide)) (by decide))
    fun n hn k hk => ?_
  simp only [crossing, List.mem_cons, List.not_mem_nil, or_false] at hn
  rcases hn with rfl | rfl | rfl
  · cases hk
  · obtain rfl := Option.some.inj hk
    refine .intro (sound_of_fits (by decide) (List.all_eq_true.1 (by decide)) (by decide))
      fun n hn k hk => ?_
    simp only [List.mem_cons, List.not_mem_nil, or_false] at hn
    rcases hn with rfl | rfl | rfl <;> cases hk
  · cases hk

/-- The boundary node of the flow input goes, and the one of the flow output gets its id: the links
of the old node do not pass to the new one. -/
theorem WellFormed.setPorts_exact_reusedId : crossing.WellFormed ∧ ∃ h,
    crossing.setPorts 2 ["value"] ["flow"] = .ok (⟨none, some 3⟩, h) ∧
    crossing.Repatched (crossed.refit ["value"] ["flow"]) h ∧ h.links = [⟨⟨2, 0⟩, ⟨3, 0⟩⟩] ∧
    (crossed.refit ["value"] ["flow"]).inner.map (·.links) = some [⟨⟨1, 0⟩, ⟨2, 1⟩⟩] ∧
    h.WellFormed := by
  obtain ⟨h, hset, hpatched, -, hwf⟩ :=
    (wellFormed_crossing.setPorts_exact 2 ["value"] ["flow"]).2 crossed
    (List.mem_cons_of_mem _ List.mem_cons_self) rfl rfl
  have hlinks : (crossing.setPorts 2 ["value"] ["flow"]).toOption.map (fun r => (r.1, r.2.links)) =
      some (⟨none, some 3⟩, [⟨⟨2, 0⟩, ⟨3, 0⟩⟩]) := by decide +kernel
  rw [hset] at hlinks
  obtain ⟨hboundary, hlinks⟩ := Prod.mk.inj (Option.some.inj hlinks)
  exact ⟨wellFormed_crossing, h, by rw [hset, hboundary], hpatched, hlinks, by decide +kernel, hwf⟩

end Graph
end FlowGraph
