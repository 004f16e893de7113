import FlowGraph.Proofs.Navigation

/-! Opening and closing groups. The graph around an open group keeps the node of the group with its
nested graph taken out, so that the graphs of a document are the whole graph torn at the open
groups: closing puts the pieces together again, and opening changes no more than the boundary nodes
of the group. -/
namespace FlowGraph

def Graph.modifyInner (f : Graph → Graph) : List NodeId → Graph → Graph
  | [], g => f g
  | id :: path, g => g.modify id fun n => { n with inner := n.inner.map (Graph.modifyInner f path) }

theorem Graph.modifyInner_concat (f : Graph → Graph) (path : List NodeId) (id : NodeId)
    (g : Graph) :
    g.modifyInner f (path ++ [id]) =
      g.modifyInner (fun h => h.modify id fun n => { n with inner := n.inner.map f }) path := by
  induction path generalizing g with
  | nil => rfl
  | cons x path ih =>
    have hrest : Graph.modifyInner f (path ++ [id]) =
        Graph.modifyInner (fun h => h.modify id fun n => { n with inner := n.inner.map f }) path :=
      funext ih
    rw [List.cons_append, modifyInner, modifyInner, hrest]

/-- Opening a group: its nested graph gets the boundary nodes that the group asks for. A group
without a nested graph starts from an empty one. -/
def Graph.withBoundary (g : Graph) (id : NodeId) : Graph :=
  g.modify id fun n => { n with inner := some ((n.inner.getD .empty).reconcile n).2 }

/-- The node of the open group is in the graph around it, and its nested graph is not. -/
def Frame.IsHollow (frame : Frame) : Prop :=
  ∃ group, frame.parent.find? frame.group = some group ∧ group.isGroup = true ∧ group.inner = none

namespace Focus

/-- A change of the graph being edited is a change of the whole graph at the end of the open
groups. -/
theorem root_modifyInner (f : Graph → Graph) (active : Graph) (frames : List Frame) :
    root ⟨f active, frames⟩ = (root ⟨active, frames⟩).modifyInner f (path ⟨active, frames⟩) := by
  induction frames generalizing f active with
  | nil => rfl
  | cons frame frames ih =>
    have hfill : frame.fill (f active) =
        (frame.fill active).modify frame.group fun n => { n with inner := n.inner.map f } := by
      rw [Frame.fill, Frame.fill, Graph.modify_modify _ _ (by exact fun _ => rfl)]
      rfl
    have hpath : path ⟨active, frame :: frames⟩ = path ⟨frame.fill active, frames⟩ ++
        [frame.group] := by
      simp [path]
    rw [root_cons, root_cons, hpath, Graph.modifyInner_concat, hfill]
    exact ih (fun h => h.modify frame.group fun n => { n with inner := n.inner.map f })
      (frame.fill active)

/-- The open groups lead from the whole graph to the one being edited. -/
theorem inner?_root {active : Graph} {frames : List Frame}
    (hframes : ∀ frame ∈ frames, frame.IsHollow) :
    (root ⟨active, frames⟩).inner? (path ⟨active, frames⟩) = some active := by
  induction frames generalizing active with
  | nil => rfl
  | cons frame frames ih =>
    obtain ⟨group, hheld, -, -⟩ := hframes frame List.mem_cons_self
    have hpath : path ⟨active, frame :: frames⟩ = path ⟨frame.fill active, frames⟩ ++
        [frame.group] := by
      simp [path]
    have hfind : (frame.fill active).find? frame.group =
        some { group with inner := some active } := by
      rw [Frame.fill, Graph.find?_modify _ _ (fun n => { n with inner := some active })
        fun _ => rfl, hheld]
      simp [(Graph.find?_mem hheld).2]
    have hrest : (root ⟨frame.fill active, frames⟩).inner? (path ⟨frame.fill active, frames⟩) =
        some (frame.fill active) := ih fun k hk => hframes k (.tail _ hk)
    rw [root_cons, hpath, Graph.inner?_append, hrest]
    simp [Graph.inner?, hfind]

end Focus

namespace Document

variable {d e : Document}

def IsHollow (d : Document) : Prop := ∀ frame ∈ d.focus.frames, frame.IsHollow

theorem IsHollow.congr (hd : d.IsHollow) (h : e.focus.frames = d.focus.frames) : e.IsHollow := by
  intro frame hframe
  rw [h] at hframe
  exact hd frame hframe

theorem frames_reconcile (d : Document) : d.reconcile.2.focus.frames = d.focus.frames :=
  Focus.frames_reconcile d.focus

theorem IsHollow.openGroup (hd : d.IsHollow) {id : NodeId} {b : Boundary}
    (h : d.openGroup id = .ok (b, e)) : e.IsHollow := by
  obtain ⟨group, hfind, hgroup, hfocus⟩ := openGroup_eq_ok h
  intro frame hframe
  rw [hfocus] at hframe
  rcases List.mem_cons.1 hframe with rfl | hframe
  · exact ⟨{ group with inner := none }, Focus.find?_emptied hfind, hgroup, rfl⟩
  · exact hd frame hframe

theorem IsHollow.closeGroup (hd : d.IsHollow) (h : d.closeGroup = some e) : e.IsHollow := by
  obtain ⟨frame, frames, hframes, rfl⟩ := closeGroup_eq_some h
  intro k hk
  apply hd k
  rw [hframes]
  exact .tail _ hk

theorem root_closeGroup (hd : d.focus.WellFormed) (h : d.closeGroup = some e) :
    e.root = d.root := by
  obtain ⟨frame, frames, hframes, rfl⟩ := closeGroup_eq_some h
  have hprune : d.active.prune = d.active := hd.active.sound.prune_eq
  show Focus.root ⟨frame.fill d.active.prune, frames⟩ = Focus.root ⟨d.active, d.focus.frames⟩
  rw [hframes, Focus.root_cons, hprune]

theorem root_openGroup (hd : d.focus.WellFormed) {id : NodeId} {b : Boundary}
    (h : d.openGroup id = .ok (b, e)) :
    e.root = d.root.modifyInner (Graph.withBoundary · id) d.focus.path := by
  obtain ⟨group, hfind, -, hfocus⟩ := openGroup_eq_ok h
  have hactive : d.active.withBoundary id =
      d.active.modify id
        fun n => { n with inner := some ((group.inner.getD .empty).reconcile group).2 } := by
    simp only [Graph.withBoundary, Graph.modify, Graph.mk.injEq, and_true]
    refine List.map_congr_left fun n hn => ?_
    by_cases hid : n.id = id
    · have hsame : d.active.find? id = some n :=
        (Graph.find?_eq_some_iff hd.active.sound.ascending).2 ⟨hn, hid⟩
      rw [hfind] at hsame
      rw [Option.some.inj hsame]
    · simp [hid]
  have hfill : Frame.fill ⟨id, d.active.modify id fun n => { n with inner := none }, d.viewport⟩
      ((group.inner.getD .empty).reconcile group).2 = d.active.withBoundary id :=
    (Graph.modify_modify _ _ (by exact fun _ => rfl) _).trans hactive.symm
  calc e.root
      = Focus.root ⟨d.active.withBoundary id, d.focus.frames⟩ := by
        rw [Document.root, hfocus, Focus.root_cons, hfill]
    _ = d.root.modifyInner (Graph.withBoundary · id) d.focus.path :=
        Focus.root_modifyInner (Graph.withBoundary · id) d.active d.focus.frames

end Document

/-! ### Sessions -/

/-- Only opening a group adds a frame. -/
theorem Document.kept_isHollow : Document.Kept Document.IsHollow where
  stored _ _ _ := fun frame hframe => by cases hframe
  setActive hd _ := hd
  openGroup hd h := hd.openGroup h
  closeGroup hd h := hd.closeGroup h
  closeAll _ := fun frame hframe => by cases hframe
  reconcile hd := hd.congr (frames_reconcile _)
  interpret catalog script hd := hd.congr (Script.frames_interpret catalog script _)
  view _ hd := hd
  describe _ hd := hd

namespace Session

variable {s : Session}

theorem Run.isHollow {s₀ : Session} (h₀ : s₀.document.Initial)
    (hrun : Run (fun _ _ e => e.Admissible) s₀ s) : s.document.IsHollow :=
  Document.kept_isHollow.run h₀ hrun

/-- Moving between groups leaves the whole graph alone. -/
structure MovesFreely (s : Session) (catalog : Catalog) : Prop where
  /-- The open groups lead to the graph being edited. -/
  located : s.document.root.inner? s.document.focus.path = some s.document.active
  /-- Every graph around an open group has the node of the group, without its nested graph. -/
  hollow : ∀ frame ∈ s.document.focus.frames, ∃ group, frame.parent.find? frame.group = some group ∧
    group.isGroup = true ∧ group.inner = none
  /-- Closing a group keeps the whole graph and restores the viewport of the innermost frame. -/
  closed : ∀ t, s.apply catalog .closeGroup = (t, .ok (.truth true)) →
    t.document.root = s.document.root ∧
      some t.document.viewport = s.document.focus.frames.head?.map (·.viewport)
  /-- Closing all groups makes the whole graph the one being edited, at the viewport of the
  outermost frame. -/
  allClosed : s.document.focus.frames ≠ [] → ∀ t answer, s.apply catalog .closeAll = (t, answer) →
    t.document.active = s.document.root ∧ t.document.focus.frames = [] ∧
      some t.document.viewport = s.document.focus.frames.getLast?.map (·.viewport)
  /-- Opening a group changes the whole graph at that group alone, whose nested graph is
  reconciled. -/
  opened : ∀ id t answer, s.apply catalog (.openGroup id) = (t, .ok answer) →
    t.document.root = s.document.root.modifyInner (Graph.withBoundary · id) s.document.focus.path
  /-- Where opening a group is refused, nothing changes. -/
  refused : ∀ id t cause, s.apply catalog (.openGroup id) = (t, .error cause) → t = s

/-- Navigation never changes the graph, whatever a session did before. -/
theorem Run.movesFreely {s₀ : Session} (h₀ : s₀.document.Initial)
    (hrun : Run (fun _ _ e => e.Admissible) s₀ s) (catalog : Catalog) : s.MovesFreely catalog where
  located := Focus.inner?_root (hrun.isHollow h₀)
  hollow := hrun.isHollow h₀
  closed t ht := by
    have hwf := hrun.wellFormed h₀
    simp only [apply] at ht
    split at ht
    · next d hclose =>
      obtain ⟨rfl, -⟩ := Prod.mk.inj ht
      refine ⟨Document.root_closeGroup hwf hclose, ?_⟩
      obtain ⟨frame, frames, hframes, rfl⟩ := Document.closeGroup_eq_some hclose
      rw [hframes]
      rfl
    · cases (Prod.mk.inj ht).2
  allClosed hopen t answer ht := by
    have hwf := hrun.wellFormed h₀
    obtain ⟨rfl, -⟩ := Prod.mk.inj ht
    refine ⟨hwf.closeFrames_eq_root, rfl, ?_⟩
    cases hlast : s.document.focus.frames.getLast? with
    | none => exact absurd (List.getLast?_eq_none_iff.1 hlast) hopen
    | some frame =>
      show some ((s.document.focus.frames.getLast?.map (·.viewport)).getD s.document.viewport) = _
      rw [hlast]
      rfl
  opened id t answer ht := by
    simp only [apply] at ht
    cases hopen : s.document.openGroup id with
    | error cause =>
      rw [hopen] at ht
      cases (Prod.mk.inj ht).2
    | ok a =>
      rw [hopen] at ht
      obtain ⟨rfl, -⟩ := Prod.mk.inj ht
      exact Document.root_openGroup (hrun.wellFormed h₀) hopen
  refused id t cause ht := by
    simp only [apply] at ht
    cases hopen : s.document.openGroup id with
    | error cause =>
      rw [hopen] at ht
      exact (Prod.mk.inj ht).1.symm
    | ok a =>
      rw [hopen] at ht
      cases (Prod.mk.inj ht).2

def twiceOpened : Session :=
  let outside := (Session.start (.blank (.ofName "Module")) 3).applyAll .standard
    [.add (.group 1 "Outer" ["flow"] ["flow"] .empty)]
  let inside := (outside.setDocument
    { outside.document with viewport := ⟨.ofNat 5, .ofNat 6, .ofNat 2⟩ }).applyAll .standard
      [.openGroup 1, .add (.group 7 "Inner" ["flow"] [] .empty)]
  (inside.setDocument
    { inside.document with viewport := ⟨.ofNat 7, .ofNat 8, .ofNat 3⟩ }).applyAll .standard
      [.openGroup 7]

theorem Run.movesFreely_twiceOpened :
    twiceOpened.document.focus.path = [1, 7] ∧
      twiceOpened.document.focus.frames.map (·.viewport) =
        [⟨.ofNat 7, .ofNat 8, .ofNat 3⟩, ⟨.ofNat 5, .ofNat 6, .ofNat 2⟩] ∧
      twiceOpened.MovesFreely .standard := by
  have hadd : ∀ id name inputs outputs,
      (Edit.add (.group id name inputs outputs .empty)).Admissible := by
    intro id name inputs outputs inner hi
    rw [← Option.some.inj hi]
    exact Graph.wellFormed_empty
  have hrun : Run (fun _ _ e => e.Admissible) (.start (.blank (.ofName "Module")) 3) twiceOpened :=
    .edit (.view (.edit (.edit (.view (.edit .start
      .standard _ (hadd _ _ _ _)) _)
      .standard (.openGroup 1) trivial)
      .standard _ (hadd _ _ _ _)) _)
      .standard (.openGroup 7) trivial
  exact ⟨by decide +kernel, by decide +kernel, Run.movesFreely (.blank _) hrun .standard⟩

end Session
end FlowGraph
