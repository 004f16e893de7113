import FlowGraph.Proofs.Snapshots

/-! Moving between the groups of a document. Along the open groups every graph has the boundary
nodes that its group asks for, and which of them is open changes nothing of the whole graph. -/
namespace FlowGraph

namespace Focus

/-- The open groups, innermost first: each with the graph that it holds. -/
def openGraphs (f : Focus) : List (Frame × Graph) :=
  f.frames.zip (f.active :: f.frames.map (·.parent))

theorem Anchored.openGraphs {f : Focus} (hf : Anchored f.active f.frames) :
    ∀ inside ∈ f.openGraphs, ∃ group, inside.1.parent.find? inside.1.group = some group ∧
      group.isGroup = true ∧ inside.2.InSync group := by
  obtain ⟨active, frames⟩ := f
  induction frames generalizing active with
  | nil => simp [Focus.openGraphs]
  | cons frame frames ih =>
    cases hf with
    | @inside _ _ _ group held isGroup _ sync around =>
      intro inside hinside
      rcases List.mem_cons.1 hinside with rfl | hinside
      · exact ⟨group, held, isGroup, sync⟩
      · exact ih frame.parent around inside hinside

/-- Closing the groups prunes their graphs on the way, which drops nothing from a well-formed
graph. -/
theorem WellFormed.closeFrames_eq_root {f : Focus} (hf : f.WellFormed) :
    Focus.closeFrames f.active f.frames = f.root := by
  obtain ⟨active, frames⟩ := f
  induction frames generalizing active with
  | nil => rfl
  | cons frame frames ih =>
    have hparent := hf.parents frame List.mem_cons_self
    rw [Focus.closeFrames, hf.active.sound.prune_eq, root_cons]
    exact ih (frame.fill active) ⟨Frame.wellFormed_fill hparent hf.active, fun k hk => hf.parents k
      (.tail _ hk)⟩

end Focus

namespace Session

variable {s : Session}

/-- Boundary nodes follow their group. Whatever a session did, the outermost graph has none, and the
graph in each open group has one for the plain flow inputs of the group if it has any, one for its
plain flow outputs if it has any, and no others. -/
theorem Run.boundary_nodes_of_open_groups {d₀ : Document} {capacity : Nat} (h₀ : d₀.Initial)
    (hrun : Run (fun s catalog e => e.Admissible ∧ s.FreshIds catalog e) (.start d₀ capacity) s) :
    (∀ n ∈ s.document.root.nodes, ∀ side, n.type ≠ Node.boundaryType side) ∧
      ∀ inside ∈ s.document.focus.openGraphs, ∃ group,
        inside.1.parent.find? inside.1.group = some group ∧ group.isGroup = true ∧
        ∀ side, inside.2.nodes.countP (·.type == Node.boundaryType side) =
          if Label.flow ∈ group.ports side then 1 else 0 := by
  have hd := (hrun.inOrder h₀).document
  constructor
  · intro n hn side htype
    have hplain := (Focus.plain_root hd.anchored).isBoundary hn
    rw [Node.isBoundary_iff.2 ⟨side, htype⟩] at hplain
    cases hplain
  · intro inside hinside
    obtain ⟨group, hheld, hgroup, hsync⟩ := hd.anchored.openGraphs inside hinside
    exact ⟨group, hheld, hgroup, hsync.countP_eq⟩

/-- A group whose nested graph is empty can be opened: ids are left for its boundary nodes. -/
theorem freshIds_openGroup {catalog : Catalog} {id : NodeId}
    (h : (s.document.active.find? id).all (fun n => (n.inner.getD .empty).isEmpty) = true) :
    s.FreshIds catalog (.openGroup id) := by
  intro n hn
  rw [hn, Option.all_some, Graph.isEmpty, List.isEmpty_iff] at h
  exact Graph.reconcilable_of_lt (k := 1) (by decide) (by decide) (by simp [h]) n

/-- A group in a group, both open; the inner one has no plain flow output. -/
theorem Run.boundary_nodes_of_open_groups_nested :
    let s := (Session.start (.blank (.ofName "Module")) 3).applyAll .standard
      [.add (.group 1 "Outer" ["flow"] ["flow"] .empty), .openGroup 1,
        .add (.group 7 "Inner" ["flow", "flow:again"] ["flow:done"] .empty), .openGroup 7]
    s.document.focus.path = [1, 7] ∧ s.document.active.roster = [(1, "group-input")] ∧
      (∀ n ∈ s.document.root.nodes, ∀ side, n.type ≠ Node.boundaryType side) ∧
      ∀ inside ∈ s.document.focus.openGraphs, ∃ group,
        inside.1.parent.find? inside.1.group = some group ∧ group.isGroup = true ∧
        ∀ side, inside.2.nodes.countP (·.type == Node.boundaryType side) =
          if Label.flow ∈ group.ports side then 1 else 0 := by
  have hadd : ∀ id name inputs outputs,
      (Edit.add (.group id name inputs outputs .empty)).Admissible := by
    intro id name inputs outputs inner hi
    rw [← Option.some.inj hi]
    exact Graph.wellFormed_empty
  exact ⟨by decide +kernel, by decide +kernel, Run.boundary_nodes_of_open_groups (.blank _)
    (.edit (.edit (.edit (.edit .start _ _ ⟨hadd _ _ _ _, trivial⟩) _ _
      ⟨trivial, freshIds_openGroup (by decide +kernel)⟩) _ _ ⟨hadd _ _ _ _, trivial⟩) _ _
      ⟨trivial, freshIds_openGroup (by decide +kernel)⟩)⟩

end Session

/-! ### Saving -/

namespace Document

/-- The viewport of the outermost graph: while a group is open, the one that the outermost frame
keeps. -/
def rootViewport (d : Document) : Viewport :=
  (d.focus.frames.getLast?.map (·.viewport)).getD d.viewport

theorem root_closeAll {d : Document} (hd : d.focus.WellFormed) : d.closeAll.root = d.root :=
  hd.closeFrames_eq_root

end Document

/-- A file of the document with its groups closed differs in the viewport at most. -/
theorem ProjectFile.ofDocument_closeAll {d : Document} (hd : d.focus.WellFormed) :
    ofDocument d.closeAll = { ofDocument d with viewport := d.rootViewport } := by
  rw [ofDocument, Document.root_closeAll hd]
  rfl

namespace Session

/-- What is saved does not depend on the groups that are open, but for the viewport: the file has
the one of the innermost open group, and that of the outermost graph once the groups are closed. So
the two files are the same exactly if these viewports are. -/
theorem Run.file_of_closed_groups {s₀ s : Session} (h₀ : s₀.document.Initial)
    (hrun : Run (fun _ _ e => e.Admissible) s₀ s) :
    ProjectFile.ofDocument s.document.closeAll =
        { ProjectFile.ofDocument s.document with viewport := s.document.rootViewport } ∧
      (ProjectFile.ofDocument s.document = ProjectFile.ofDocument s.document.closeAll ↔
        s.document.viewport = s.document.rootViewport) := by
  have hfile := ProjectFile.ofDocument_closeAll (hrun.wellFormed h₀)
  refine ⟨hfile, ?_⟩
  rw [hfile]
  exact ⟨fun h => congrArg ProjectFile.viewport h, fun h => by rw [← h]; rfl⟩

def zoomed : Session :=
  let s := (Session.start (.blank (.ofName "Module")) 3).applyAll .standard
    [.add (.group 1 "Body" ["flow"] ["flow"] .empty)]
  (s.setDocument { s.document with viewport := ⟨.ofNat 5, .ofNat 6, .ofNat 2⟩ }).applyAll .standard
    [.openGroup 1]

theorem run_zoomed :
    Run (fun _ _ e => e.Admissible) (.start (.blank (.ofName "Module")) 3) zoomed :=
  .edit (.view (.edit .start .standard _ admissible_newGroup) _) .standard (.openGroup 1) trivial

theorem Run.file_of_closed_groups_zoomed :
    let d := zoomed.document
    d.focus.path = [1] ∧
      ProjectFile.ofDocument d.closeAll =
        { ProjectFile.ofDocument d with viewport := d.rootViewport } ∧
      (ProjectFile.ofDocument d = ProjectFile.ofDocument d.closeAll ↔
        d.viewport = d.rootViewport) :=
  ⟨by decide +kernel, Run.file_of_closed_groups (.blank _) run_zoomed⟩

/-- The file that is saved inside the group has lost the viewport of the outermost graph. -/
theorem file_inside_group_loses_viewport :
    (ProjectFile.ofDocument zoomed.document).viewport = .standard ∧
      (ProjectFile.ofDocument zoomed.document.closeAll).viewport = ⟨.ofNat 5, .ofNat 6, .ofNat 2⟩ ∧
      ProjectFile.ofDocument zoomed.document ≠ ProjectFile.ofDocument zoomed.document.closeAll := by
  have hinside : (ProjectFile.ofDocument zoomed.document).viewport = .standard := by decide +kernel
  have hclosed : (ProjectFile.ofDocument zoomed.document.closeAll).viewport =
      ⟨.ofNat 5, .ofNat 6, .ofNat 2⟩ := by decide +kernel
  refine ⟨hinside, hclosed, fun h => ?_⟩
  rw [h, hclosed] at hinside
  revert hinside
  decide +kernel

end Session
end FlowGraph
