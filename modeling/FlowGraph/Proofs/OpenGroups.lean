import FlowGraph.Proofs.BoundaryNodes
import FlowGraph.Proofs.EditingSession

/-! Open groups. The node of an open group stays in the graph around it, without its nested graph,
and the nested graph has the boundary nodes that the group asks for; the outermost graph has
none. -/
namespace FlowGraph

theorem Graph.find?_modify (g : Graph) (id : NodeId) (f : Node Graph → Node Graph)
    (hf : ∀ n, (f n).id = n.id) (x : NodeId) :
    (g.modify id f).find? x = (g.find? x).map fun n => if n.id = id then f n else n := by
  simp only [find?, modify, List.find?_map, beq_iff_eq]
  congr 2
  funext n
  by_cases hn : n.id = id <;> simp [hn, hf]

theorem Graph.modify_modify (g : Graph) (id : NodeId) {f : Node Graph → Node Graph}
    (hf : ∀ n, (f n).id = n.id) (f' : Node Graph → Node Graph) :
    (g.modify id f).modify id f' = g.modify id fun n => f' (f n) := by
  simp only [modify, List.map_map, beq_iff_eq, Graph.mk.injEq, and_true]
  refine List.map_congr_left fun n _ => ?_
  by_cases hn : n.id = id <;> simp [hn, hf]

theorem Graph.modify_eq_self {g : Graph} (hasc : g.nodes.Pairwise (·.id < ·.id)) {id : NodeId}
    {n : Node Graph} (hfind : g.find? id = some n) {f : Node Graph → Node Graph} (hf : f n = n) :
    g.modify id f = g := by
  have hnodes : g.nodes.map (fun m => if m.id == id then f m else m) = g.nodes := by
    refine (List.map_congr_left fun m hm => ?_).trans (List.map_id _)
    by_cases hid : m.id = id
    · have hsame := (find?_eq_some_iff hasc).2 ⟨hm, hid⟩
      rw [hfind] at hsame
      obtain rfl := Option.some.inj hsame
      rw [if_pos (beq_iff_eq.2 hid), hf]
      rfl
    · rw [if_neg (by simpa using hid)]
      rfl
  rw [modify, hnodes]
  cases g with
  | mk nodes links => rfl

namespace Focus

/-- A graph and the frames around it fit together, and the boundary nodes are as they should be. -/
inductive Anchored : Graph → List Frame → Prop
  | outermost {g : Graph} (plain : g.Plain) : Anchored g []
  | inside {g : Graph} {frame : Frame} {frames : List Frame} {group : Node Graph}
      (held : frame.parent.find? frame.group = some group) (isGroup : group.isGroup = true)
      (emptied : group.inner = none) (sync : g.InSync group)
      (around : Anchored frame.parent frames) :
      Anchored g (frame :: frames)

namespace Anchored

theorem congr {g h : Graph} {frames : List Frame} (hg : Anchored g frames)
    (hids : ∀ side, h.boundaryIds side = g.boundaryIds side) : Anchored h frames := by
  cases hg with
  | outermost plain => exact .outermost (plain.congr hids)
  | inside held isGroup emptied sync around =>
    exact .inside held isGroup emptied (sync.congr hids) around

theorem congr_roster {g h : Graph} {frames : List Frame} (hg : Anchored g frames)
    (hroster : h.roster = g.roster) : Anchored h frames :=
  hg.congr (Graph.boundaryIds_congr hroster)

end Anchored

theorem roster_fill (frame : Frame) (inner : Graph) :
    (frame.fill inner).roster = frame.parent.roster := Graph.roster_modify fun _ _ _ => ⟨rfl, rfl⟩

/-- Moving out of a group leaves the graphs around it as they were. -/
theorem Anchored.fill {g inner : Graph} {frame : Frame} {frames : List Frame}
    (hg : Anchored g (frame :: frames)) : Anchored (frame.fill inner) frames := by
  cases hg with
  | inside _ _ _ _ around => exact around.congr_roster (roster_fill frame inner)

theorem Anchored.closeFrames {g : Graph} {frames : List Frame} (hg : Anchored g frames) :
    (Focus.closeFrames g frames).Plain := by
  induction frames generalizing g with
  | nil =>
    cases hg with
    | outermost plain => exact plain
  | cons frame frames ih => exact ih hg.fill

theorem reconcile_inside {active : Graph} {frame : Frame} {frames : List Frame} {group : Node Graph}
    (hheld : frame.parent.find? frame.group = some group) :
    (reconcile ⟨active, frame :: frames⟩).2 = ⟨(active.reconcile group).2, frame :: frames⟩ := by
  simp [reconcile, currentGroup?, hheld]

/-- What is in order is reconciled already. -/
theorem Anchored.reconcile_eq {f : Focus} (hf : Anchored f.active f.frames) :
    f.reconcile.2 = f := by
  obtain ⟨active, frames⟩ := f
  cases hf with
  | outermost plain => rfl
  | inside held _ _ sync _ => rw [reconcile_inside held, sync.reconcile_eq]

/-- Opening a group takes its nested graph out of it. -/
theorem find?_emptied {g : Graph} {id : NodeId} {n : Node Graph} (hfind : g.find? id = some n) :
    (g.modify id fun n => { n with inner := none }).find? id = some { n with inner := none } := by
  rw [Graph.find?_modify g id (fun n => { n with inner := none }) (fun _ => rfl)]
  simp [hfind, (Graph.find?_mem hfind).2]

end Focus

/-! ### Documents -/

namespace Document

variable {d e : Document}

/-- What opening a group does: a frame is added that keeps the graph without what was nested in the
group. -/
theorem openGroup_eq_ok {id : NodeId} {b : Boundary} (h : d.openGroup id = .ok (b, e)) :
    ∃ group, d.active.find? id = some group ∧ group.isGroup = true ∧
      e.focus = ⟨((group.inner.getD .empty).reconcile group).2,
        ⟨id, d.active.modify id fun n => { n with inner := none }, d.viewport⟩ ::
          d.focus.frames⟩ := by
  obtain ⟨inside, henter, hfocus⟩ := exists_enter_of_openGroup h
  obtain ⟨group, hfind, hgroup, rfl⟩ := Focus.enter_eq_ok henter
  rw [Focus.reconcile_inside (Focus.find?_emptied hfind)] at hfocus
  exact ⟨group, hfind, hgroup, hfocus⟩

/-- What closing a group does. -/
theorem closeGroup_eq_some (h : d.closeGroup = some e) :
    ∃ frame frames, d.focus.frames = frame :: frames ∧
    e = { d with focus := ⟨frame.fill d.active.prune, frames⟩, viewport := frame.viewport } := by
  obtain ⟨⟨viewport, f⟩, hclose, rfl⟩ := Option.map_eq_some_iff.1 h
  unfold Focus.close at hclose
  split at hclose
  · cases hclose
  · next frame frames hframes =>
    obtain ⟨rfl, rfl⟩ := Prod.mk.inj (Option.some.inj hclose)
    exact ⟨frame, frames, hframes, rfl⟩

def Anchored (d : Document) : Prop := Focus.Anchored d.focus.active d.focus.frames

theorem anchored_openGroup (hwf : d.focus.WellFormed) (hd : d.Anchored) {id : NodeId} {b : Boundary}
    (hfresh : ∀ n, d.active.find? id = some n → (n.inner.getD .empty).Reconcilable n)
    (h : d.openGroup id = .ok (b, e)) : e.Anchored := by
  obtain ⟨n, hfind, hgroup, hfocus⟩ := openGroup_eq_ok h
  have hinner : (n.inner.getD .empty).WellFormed :=
    Graph.WellFormed.getD fun _ hi => hwf.active.nested (Graph.find?_mem hfind).1 hi
  rw [Anchored, hfocus]
  exact .inside (Focus.find?_emptied hfind) hgroup
    rfl (Graph.inSync_reconcile hinner.sound.ascending (hfresh n hfind))
    (hd.congr_roster (Graph.roster_modify fun _ _ _ => ⟨rfl, rfl⟩))

theorem anchored_closeGroup (hd : d.Anchored) (h : d.closeGroup = some e) : e.Anchored := by
  obtain ⟨frame, frames, hframes, rfl⟩ := closeGroup_eq_some h
  have hd : Focus.Anchored d.focus.active (frame :: frames) := hframes ▸ hd
  exact hd.fill

theorem anchored_closeAll (hd : d.Anchored) : d.closeAll.Anchored := .outermost hd.closeFrames

theorem focus_reconcile (d : Document) : d.reconcile.2.focus = d.focus.reconcile.2 := rfl

theorem anchored_reconcile (hd : d.Anchored) : d.reconcile.2.Anchored := by
  rw [Anchored, focus_reconcile, Focus.Anchored.reconcile_eq hd]
  exact hd

end Document

/-! ### Stored graphs -/

theorem GraphRecord.plain_toGraph (r : GraphRecord) : r.toGraph.Plain := by
  refine addLinks_keeps (addNodes_keeps Graph.plain_empty fun n _ g h hg hok => ?_)
    fun l _ g h hg hok => ?_
  · exact hg.congr (Graph.boundaryIds_add hok)
  · obtain ⟨k, hk⟩ := connectLink_eq_ok hok
    obtain ⟨-, rfl⟩ := Graph.connect_eq_ok hk
    exact hg

theorem Document.Initial.anchored {d : Document} (hd : d.Initial) : d.Anchored := by
  cases hd with
  | blank metadata => exact .outermost Graph.plain_empty
  | opened h =>
    unfold ProjectFile.toDocument at h
    split at h
    · obtain rfl := Except.ok.inj h
      exact .outermost (GraphRecord.plain_toGraph _)
    · cases h

/-! ### Scripts -/

/-- The outermost of a graph and the frames around it has no boundary nodes. -/
def Focus.PlainOutside (g : Graph) : List Frame → Prop
  | [] => g.Plain
  | frame :: frames => PlainOutside frame.parent frames

theorem Focus.PlainOutside.congr {g h : Graph} {frames : List Frame} (hg : PlainOutside g frames)
    (hids : ∀ side, h.boundaryIds side = g.boundaryIds side) : PlainOutside h frames := by
  cases frames with
  | nil => exact Graph.Plain.congr hg hids
  | cons frame frames => exact hg

theorem Focus.PlainOutside.closeFrames {g : Graph} {frames : List Frame}
    (hg : PlainOutside g frames) : (Focus.closeFrames g frames).Plain := by
  induction frames generalizing g with
  | nil => exact hg
  | cons frame frames ih =>
    have hparent : PlainOutside frame.parent frames := hg
    exact ih (hparent.congr (Graph.boundaryIds_congr (roster_fill frame g.prune)))

theorem Focus.PlainOutside.root {g : Graph} {frames : List Frame} (hg : PlainOutside g frames) :
    (Focus.root ⟨g, frames⟩).Plain := by
  induction frames generalizing g with
  | nil => exact hg
  | cons frame frames ih =>
    have hparent : PlainOutside frame.parent frames := hg
    exact ih (hparent.congr (Graph.boundaryIds_congr (roster_fill frame g)))

namespace Script.Workbench

/-- A script at the outermost level: no boundary node is ever taken there. -/
structure Outermost (w : Workbench) : Prop where
  enclosing : w.enclosing = none
  plain : Focus.PlainOutside w.focus.active w.focus.frames

variable {w w' : Workbench}

theorem outermost_setGraph (hw : w.Outermost) {g : Graph}
    (hids : ∀ side, g.boundaryIds side = w.focus.active.boundaryIds side) :
    (w.setGraph g).Outermost := ⟨hw.enclosing, hw.plain.congr hids⟩

theorem outermost_addNode (hw : w.Outermost) {n : Node Graph} (h : w.addNode n = .ok w') :
    w'.Outermost := by
  unfold Workbench.addNode at h
  split at h
  · obtain ⟨g, hadd, rfl⟩ := Except.map_eq_ok_iff.1 h
    exact outermost_setGraph hw (Graph.boundaryIds_add hadd)
  · split at h
    · next side _ htaken =>
      obtain ⟨g, -, rfl⟩ := Except.map_eq_ok_iff.1 h
      obtain ⟨metadata, ⟨active, frames⟩, enclosing⟩ := w
      obtain ⟨henclosing, hplain⟩ := hw
      cases frames with
      | nil =>
        -- Nothing is open: there is no group that could ask for the node.
        obtain rfl : enclosing = none := henclosing
        simp [group?, Focus.currentGroup?] at htaken
      | cons frame frames => exact ⟨henclosing, hplain⟩
    · cases h

theorem outermost_exitGroup (hw : w.Outermost) : w.exitGroup.Outermost := by
  obtain ⟨metadata, ⟨active, frames⟩, enclosing⟩ := w
  obtain ⟨henclosing, hplain⟩ := hw
  cases frames with
  | nil => exact ⟨henclosing, hplain⟩
  | cons frame frames =>
    simp only [exitGroup, Focus.close, Focus.frames_reconcile]
    exact ⟨henclosing, Focus.PlainOutside.congr hplain
      (Graph.boundaryIds_congr (Focus.roster_fill _ _))⟩

theorem keeps_outermost : Target.Keeps fun w : Workbench => w.Outermost where
  setName _ _ hw := ⟨hw.enclosing, hw.plain⟩
  setSpace _ _ hw := ⟨hw.enclosing, hw.plain⟩
  setDescription _ _ hw := ⟨hw.enclosing, hw.plain⟩
  setFlag _ _ _ hw := ⟨hw.enclosing, hw.plain⟩
  addNode w n hn hw := by
    simp only [Target.addNode, settled]
    split
    · next h => exact outermost_addNode hw h
    · exact hw
  connect w a b hw := by
    simp only [Target.connect, settled]
    split
    · next h =>
      obtain ⟨⟨l, w'⟩, hcon, rfl⟩ := Except.map_eq_ok_iff.1 h
      obtain ⟨⟨k, g⟩, hg, heq⟩ := Except.map_eq_ok_iff.1 hcon
      obtain ⟨rfl, rfl⟩ := Prod.mk.inj heq
      obtain ⟨-, rfl⟩ := Graph.connect_eq_ok hg
      exact outermost_setGraph hw fun side => rfl
    · exact hw
  enterGroup w id hw := by
    simp only [Target.enterGroup, settled]
    split
    · next h =>
      obtain ⟨f, henter, rfl⟩ := Except.map_eq_ok_iff.1 h
      obtain ⟨n, -, -, rfl⟩ := Focus.enter_eq_ok henter
      exact ⟨hw.enclosing, hw.plain.congr
        (Graph.boundaryIds_congr (Graph.roster_modify fun _ _ _ => ⟨rfl, rfl⟩))⟩
    · exact hw
  exitGroup _ hw := outermost_exitGroup hw

end Script.Workbench

namespace Script

theorem frames_interpret (catalog : Catalog) (script : List Statement) (d : Document) :
    (interpret catalog script d).1.focus.frames = d.focus.frames := rfl

theorem plain_interpret {d : Document} (hd : d.active.Plain) (houter : d.focus.frames = [])
    (catalog : Catalog) (script : List Statement) :
    (interpret catalog script d).1.active.Plain := by
  have hstart : (Workbench.ofDocument d).Outermost :=
    ⟨by simp [Workbench.ofDocument, Focus.currentGroup?, houter], hd⟩
  have hrun := Workbench.keeps_outermost.runStatements hstart catalog .none script
  exact hrun.plain.closeFrames

/-- Where a script that succeeded leaves boundary nodes to make, they can be made. -/
def FreshIds (catalog : Catalog) (text : String) (d : Document) : Prop :=
  ∀ script built stats group, parse text = .ok script →
    interpret catalog script (d.setActive .empty) = (built, .ok stats) →
    d.focus.currentGroup? = some group → built.active.Reconcilable group

theorem anchored_reconcile_interpret {d built : Document} {catalog : Catalog}
    {script : List Statement} {stats : Stats} (hwf : d.focus.WellFormed) (hd : d.Anchored)
    (hint : interpret catalog script (d.setActive .empty) = (built, .ok stats))
    (hfresh : ∀ group, d.focus.currentGroup? = some group → built.active.Reconcilable group) :
    built.reconcile.2.Anchored := by
  have hstart : (d.setActive .empty).focus.WellFormed := hwf.setActive Graph.wellFormed_empty
  have hbuilt := wellFormed_interpret hstart catalog script
  have hframes := frames_interpret catalog script (d.setActive .empty)
  rw [hint] at hbuilt hframes
  obtain ⟨metadata, viewport, ⟨active, frames⟩⟩ := built
  obtain rfl : frames = d.focus.frames := hframes
  cases hall : d.focus.frames with
  | nil =>
    have hactive := plain_interpret (d := d.setActive .empty) Graph.plain_empty hall catalog script
    rw [hint] at hactive
    exact .outermost hactive
  | cons frame frames =>
    rw [Document.Anchored, hall] at hd
    cases hd with
    | inside held isGroup emptied sync around =>
      rw [Document.Anchored, Document.focus_reconcile, Focus.reconcile_inside held]
      refine .inside held isGroup emptied
        (Graph.inSync_reconcile hbuilt.active.sound.ascending (hfresh _ ?_)) around
      simp [Focus.currentGroup?, hall, held]

end Script

/-! ### Outermost graphs -/

/-- Boundary nodes come and go with the ports of groups, and with no other edit. -/
theorem Graph.WellFormed.boundaryIds_editStep {g h : Graph} (hg : g.WellFormed)
    (hstep : g.EditStep h) (side : Direction) : h.boundaryIds side = g.boundaryIds side := by
  cases hstep with
  | add _ hadd => exact boundaryIds_add hadd side
  | remove hremove => exact boundaryIds_remove hg hremove side
  | connect hconnect =>
    rw [(connect_eq_ok hconnect).2]
    rfl
  | disconnect select => rfl
  | move hset | setField hset =>
    refine boundaryIds_congr ?_ side
    rw [update_eq_ok hset]
    exact roster_modify fun _ _ _ => ⟨rfl, rfl⟩
  | prune => exact boundaryIds_congr (roster_prune g) side
  | setPorts hset => exact boundaryIds_congr (roster_setPorts hg hset) side

namespace Document

variable {d e : Document}

def PlainOutside (d : Document) : Prop := Focus.PlainOutside d.focus.active d.focus.frames

theorem PlainOutside.openGroup (hd : d.PlainOutside) {id : NodeId} {b : Boundary}
    (h : d.openGroup id = .ok (b, e)) : e.PlainOutside := by
  obtain ⟨group, -, -, hfocus⟩ := openGroup_eq_ok h
  have houtside : Focus.PlainOutside (d.active.modify id fun n => { n with inner := none })
      d.focus.frames :=
    Focus.PlainOutside.congr hd
      (Graph.boundaryIds_congr (Graph.roster_modify fun _ _ _ => ⟨rfl, rfl⟩))
  rw [PlainOutside, hfocus]
  exact houtside

theorem PlainOutside.closeGroup (hd : d.PlainOutside) (h : d.closeGroup = some e) :
    e.PlainOutside := by
  obtain ⟨frame, frames, hframes, rfl⟩ := closeGroup_eq_some h
  rw [PlainOutside, hframes] at hd
  have hparent : Focus.PlainOutside frame.parent frames := hd
  exact hparent.congr (Graph.boundaryIds_congr (Focus.roster_fill frame _))

/-- What is done to a graph inside a group does not show outside. -/
theorem PlainOutside.inside (hd : d.PlainOutside) (hopen : d.focus.frames ≠ [])
    (hframes : e.focus.frames = d.focus.frames) : e.PlainOutside := by
  rw [PlainOutside, hframes]
  rw [PlainOutside] at hd
  cases hall : d.focus.frames with
  | nil => exact absurd hall hopen
  | cons frame frames =>
    rw [hall] at hd
    exact hd

theorem PlainOutside.reconcile (hd : d.PlainOutside) : d.reconcile.2.PlainOutside := by
  cases hall : d.focus.frames with
  | nil =>
    have hsame : d.focus.reconcile.2 = d.focus := by
      simp [Focus.reconcile, Focus.currentGroup?, hall]
    rw [PlainOutside, focus_reconcile, hsame]
    exact hd
  | cons frame frames => exact hd.inside (by simp [hall]) (Focus.frames_reconcile d.focus)

theorem PlainOutside.interpret (hd : d.PlainOutside) (catalog : Catalog)
    (script : List Script.Statement) :
    (Script.interpret catalog script (d.setActive .empty)).1.PlainOutside := by
  have hframes := Script.frames_interpret catalog script (d.setActive .empty)
  cases hall : d.focus.frames with
  | nil =>
    have hplain :=
      Script.plain_interpret (d := d.setActive .empty) Graph.plain_empty hall catalog script
    rw [PlainOutside, hframes.trans hall]
    exact hplain
  | cons frame frames => exact hd.inside (by simp [hall]) hframes

theorem kept_plainOutside : Document.Kept fun d => d.focus.WellFormed ∧ d.PlainOutside where
  stored metadata viewport r := ⟨kept_wellFormed.stored metadata viewport r, r.plain_toGraph⟩
  setActive hd hstep :=
    ⟨kept_wellFormed.setActive hd.1 hstep, hd.2.congr (hd.1.active.boundaryIds_editStep hstep)⟩
  openGroup hd h := ⟨kept_wellFormed.openGroup hd.1 h, hd.2.openGroup h⟩
  closeGroup hd h := ⟨kept_wellFormed.closeGroup hd.1 h, hd.2.closeGroup h⟩
  closeAll hd := ⟨kept_wellFormed.closeAll hd.1, hd.2.closeFrames⟩
  reconcile hd := ⟨kept_wellFormed.reconcile hd.1, hd.2.reconcile⟩
  interpret catalog script hd :=
    ⟨kept_wellFormed.interpret catalog script hd.1, hd.2.interpret catalog script⟩
  view _ hd := hd
  describe _ hd := hd

end Document

/-- The outermost graph of a session never has boundary nodes. -/
theorem Session.Run.plain_root {s₀ s : Session} (h₀ : s₀.document.Initial)
    (hrun : Run (fun _ _ e => e.Admissible) s₀ s) : s.document.root.Plain :=
  (Document.kept_plainOutside.run h₀ hrun).2.root

end FlowGraph
