import FlowGraph.Proofs.OpenGroups

/-! Ports that change under their links. Nodes can be given other ports with nothing else looked
after; pruning then drops the links that join nothing any more and leaves a sound graph. Closing a
group prunes, so that what was done to the ports inside it never gets out. -/
namespace FlowGraph
namespace Graph

instance (g : Graph) : DecidablePred g.Joins := fun l =>
  decidable_of_iff ((g.nodes.any fun n => g.nodes.any fun m =>
      n.id == l.source.node && (m.id == l.target.node && (n.id != m.id &&
        n.outputs[l.source.port.toNat]?.any fun a => m.inputs[l.target.port.toNat]?.any fun b =>
          PortKind.ofLabel a == PortKind.ofLabel b))) = true) (by
    simp only [List.any_eq_true, Bool.and_eq_true, beq_iff_eq, bne_iff_ne,
      Option.any_eq_true, Joins]
    refine exists_congr fun n => and_congr_right fun _ => exists_congr fun m => ?_
    refine and_congr_right fun _ => and_congr_right fun _ => ?_
    refine and_congr_right fun _ => and_congr_right fun _ => ?_
    exact exists_congr fun a => exists_and_left.symm)

theorem fits_eq_joins {g : Graph} (hasc : g.nodes.Pairwise (·.id < ·.id)) (l : Link) :
    g.fits l = decide (g.Joins l) := by
  rw [Bool.eq_iff_iff, decide_eq_true_iff]
  exact fits_iff hasc

/-! ### Other ports -/

structure Relabeling where
  id : NodeId
  inputs : List String
  outputs : List String

/-- Replaces the ports of a node and does nothing about its links. -/
def relabel (g : Graph) (r : Relabeling) : Graph :=
  g.modify r.id fun n => { n with inputs := r.inputs, outputs := r.outputs }

def relabelAll (g : Graph) (rs : List Relabeling) : Graph := rs.foldl relabel g

variable {g : Graph}

theorem ascending_relabelAll (hasc : g.nodes.Pairwise (·.id < ·.id)) (rs : List Relabeling) :
    (g.relabelAll rs).nodes.Pairwise (·.id < ·.id) := by
  induction rs generalizing g with
  | nil => exact hasc
  | cons r rs ih =>
    have hstep : (g.relabel r).nodes.Pairwise (·.id < ·.id) :=
      ascending_modify hasc fun _ _ hid => hid
    exact ih hstep

theorem links_relabelAll (g : Graph) (rs : List Relabeling) :
    (g.relabelAll rs).links = g.links := by
  induction rs generalizing g with
  | nil => rfl
  | cons r rs ih => exact ih (g.relabel r)

/-! ### Links that go -/

theorem length_prune_add_staleCount (g : Graph) :
    g.prune.links.length + g.staleCount = g.links.length := by
  have hsplit := List.length_eq_countP_add_countP g.fits (l := g.links)
  simpa [links_prune, staleCount, staleLinks, List.countP_eq_length_filter] using hsplit.symm

theorem Sound.staleCount_eq_zero (hg : g.Sound) : g.staleCount = 0 := by
  have hlength := length_prune_add_staleCount g
  rw [hg.prune_eq] at hlength
  omega

/-- Of the links before, those are left in `h`, in their order, that join an output and an input of
one kind in `g`; `count` others are gone. -/
structure Pruned (before : List Link) (g : Graph) (count : Nat) (h : Graph) : Prop where
  nodes : h.nodes = g.nodes
  links : h.links = before.filter (g.Joins ·)
  dropped : h.links.length + count = before.length
  sound : h.Sound
  again : h.prune = h
  nothing : h.staleCount = 0

theorem pruned_prune (hasc : g.nodes.Pairwise (·.id < ·.id))
    (hsingle : g.links.Pairwise (·.target ≠ ·.target)) : Pruned g.links g g.staleCount g.prune where
  nodes := nodes_prune g
  links := (links_prune g).trans (List.filter_congr fun l _ => fits_eq_joins hasc l)
  dropped := length_prune_add_staleCount g
  sound := sound_prune hasc hsingle
  again := (sound_prune hasc hsingle).prune_eq
  nothing := (sound_prune hasc hsingle).staleCount_eq_zero

theorem close_of_held {frame : Frame} {group : Node Graph}
    (hheld : frame.parent.find? frame.group = some group) (active : Graph) (frames : List Frame) :
    (⟨active, frame :: frames⟩ : Focus).close = some
    (frame.viewport, ⟨frame.fill active.prune, frames⟩) ∧
      (frame.fill active.prune).find? frame.group =
      some { group with inner := some active.prune } := by
  refine ⟨rfl, ?_⟩
  rw [Frame.fill, find?_modify _ _ (fun n => { n with inner := some active.prune })
    fun _ => rfl, hheld]
  simp [(find?_mem hheld).2]

/-- Pruning repairs whatever was done to the ports of nodes, and so does closing the group that
holds them. -/
theorem pruned_relabelAll (hasc : g.nodes.Pairwise (·.id < ·.id))
    (hsingle : g.links.Pairwise (·.target ≠ ·.target)) (rs : List Relabeling) :
    Pruned g.links (g.relabelAll rs) (g.relabelAll rs).staleCount (g.relabelAll rs).prune ∧
    ∀ (frame : Frame) (frames : List Frame) (group : Node Graph),
      frame.parent.find? frame.group = some group →
      ∃ parent inner, (⟨g.relabelAll rs, frame :: frames⟩ : Focus).close =
        some (frame.viewport, ⟨parent, frames⟩) ∧
        parent.find? frame.group = some { group with inner := some inner } ∧
        Pruned g.links (g.relabelAll rs) (g.relabelAll rs).staleCount inner := by
  have hlinks := links_relabelAll g rs
  have hpruned := pruned_prune (ascending_relabelAll hasc rs) (hlinks.symm ▸ hsingle)
  rw [hlinks] at hpruned
  refine ⟨hpruned, fun frame frames group hheld => ?_⟩
  obtain ⟨hclose, hfilled⟩ := close_of_held hheld (g.relabelAll rs) frames
  exact ⟨_, _, hclose, hfilled, hpruned⟩

/-- Links of all kinds: one leads to a node from itself, one comes from nowhere. -/
def tangled : Graph :=
  ⟨[.ofType 1 "on-start" [] ["flow"], .ofType 2 "log" ["flow", "message"] ["flow"],
      .ofType 3 "log" ["flow", "message"] ["flow"], .ofType 4 "text" [] ["value"]],
    [⟨⟨1, 0⟩, ⟨2, 0⟩⟩, ⟨⟨2, 0⟩, ⟨3, 0⟩⟩, ⟨⟨9, 0⟩, ⟨3, 1⟩⟩, ⟨⟨4, 0⟩, ⟨2, 1⟩⟩, ⟨⟨3, 0⟩, ⟨3, 2⟩⟩]⟩

def swapped : List Relabeling :=
  [⟨2, ["message", "flow"], ["flow:true"]⟩, ⟨3, ["flow", "message", "flow"], ["flow"]⟩]

def hollow : Node Graph := { Node.group 5 "Body" [] [] Graph.empty with inner := none }

/-- Of the five links one fits its ports. -/
theorem pruned_relabelAll_swapped : tangled.nodes.Pairwise (·.id < ·.id) ∧
    tangled.links.Pairwise (·.target ≠ ·.target) ∧ (tangled.relabelAll swapped).staleCount = 4 ∧
    (tangled.relabelAll swapped).prune.links = [⟨⟨2, 0⟩, ⟨3, 0⟩⟩] ∧
    Pruned tangled.links (tangled.relabelAll swapped) 4 (tangled.relabelAll swapped).prune ∧
    (⟨[hollow], []⟩ : Graph).find? 5 = some hollow ∧ ∃ parent inner,
      (⟨tangled.relabelAll swapped, [⟨5, ⟨[hollow], []⟩, .standard⟩]⟩ : Focus).close = some
      (.standard, ⟨parent, []⟩) ∧ parent.find? 5 = some { hollow with inner := some inner } ∧
      Pruned tangled.links (tangled.relabelAll swapped) 4 inner := by
  have hasc : tangled.nodes.Pairwise (·.id < ·.id) := by decide
  have hsingle : tangled.links.Pairwise (·.target ≠ ·.target) := by decide
  have hcount : (tangled.relabelAll swapped).staleCount = 4 := by decide
  have hlinks : (tangled.relabelAll swapped).prune.links = [⟨⟨2, 0⟩, ⟨3, 0⟩⟩] := by decide
  have hpruned := pruned_relabelAll hasc hsingle swapped
  rw [hcount] at hpruned
  exact ⟨hasc, hsingle, hcount, hlinks, hpruned.1, rfl, hpruned.2 ⟨5, ⟨[hollow], []⟩, .standard⟩
    [] hollow rfl⟩

end Graph
end FlowGraph
