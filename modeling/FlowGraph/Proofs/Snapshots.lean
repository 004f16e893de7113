import Mathlib.Control.Monad.Basic
import FlowGraph.Proofs.ImageLayout
import FlowGraph.Proofs.Regroup

/-! Snapshots. Restoring the snapshot of a document brings back the document with the links of its
graphs regrouped, for every document that a session can reach; a failed load restores one. -/
namespace FlowGraph

/-! ### Regrouping documents -/

def Frame.regroup (frame : Frame) : Frame := { frame with parent := frame.parent.regroup }

def Focus.regroup (f : Focus) : Focus := ⟨f.active.regroup, f.frames.map Frame.regroup⟩

def Document.regroup (d : Document) : Document := { d with focus := d.focus.regroup }

theorem Frame.fill_regroup (frame : Frame) (inner : Graph) :
    frame.regroup.fill inner.regroup = (frame.fill inner).regroup := by
  have htouches := Graph.touchesBoundary_congr (Focus.roster_fill frame inner)
  have hinner : (frame.fill inner).innerLinks = frame.parent.innerLinks := by
    simp only [Graph.innerLinks, htouches]
    rfl
  have hboundary : (frame.fill inner).boundaryLinks = frame.parent.boundaryLinks :=
    List.filter_congr fun l _ => htouches l
  rw [Graph.regroup_eq (frame.fill inner), hinner, hboundary, ← Graph.links_regroup]
  simp only [fill, regroup, Graph.modify, Graph.nodes_regroup, List.map_map,
    Graph.mk.injEq, and_true]
  refine List.map_congr_left fun n _ => ?_
  by_cases hn : n.id = frame.group <;> simp [hn]

namespace Focus

theorem root_cons (active : Graph) (frame : Frame) (frames : List Frame) :
    root ⟨active, frame :: frames⟩ = root ⟨frame.fill active, frames⟩ := rfl

theorem root_regroup (f : Focus) : f.regroup.root = f.root.regroup := by
  obtain ⟨active, frames⟩ := f
  induction frames generalizing active with
  | nil => rfl
  | cons frame frames ih =>
    have hfill := frame.fill_regroup active
    have hrest := ih (frame.fill active)
    simp only [regroup, List.map_cons, root_cons, hfill] at hrest ⊢
    exact hrest

theorem WellFormed.regroup {f : Focus} (hf : f.WellFormed) : f.regroup.WellFormed := by
  refine ⟨hf.active.regroup, fun frame hframe => ?_⟩
  obtain ⟨k, hk, rfl⟩ := List.mem_map.1 hframe
  exact (hf.parents k hk).regroup

theorem Anchored.regroup {g : Graph} {frames : List Frame} (hg : Anchored g frames) :
    Anchored g.regroup (frames.map Frame.regroup) := by
  induction frames generalizing g with
  | nil => exact hg.congr_roster g.roster_regroup
  | cons frame frames ih =>
    cases hg with
    | @inside _ _ _ group held isGroup emptied sync around =>
      have hheld : frame.regroup.parent.find? frame.regroup.group = some group := by
        rw [Frame.regroup, Graph.find?_regroup, held, Option.map_some, emptied, Option.map_none,
          ← emptied]
      exact .inside hheld isGroup emptied (sync.congr (Graph.boundaryIds_congr g.roster_regroup))
        (ih around)

theorem plain_root {f : Focus} (hf : Anchored f.active f.frames) : f.root.Plain := by
  obtain ⟨active, frames⟩ := f
  induction frames generalizing active with
  | nil =>
    cases hf with
    | outermost plain => exact plain
  | cons frame frames ih => exact ih (frame.fill active) hf.fill

/-- Taking the nested graph out again undoes putting it back. -/
theorem emptied_fill {frame : Frame} (hasc : frame.parent.nodes.Pairwise (·.id < ·.id))
    {group : Node Graph} (hheld : frame.parent.find? frame.group = some group)
    (hemptied : group.inner = none) (inner : Graph) :
    ((frame.fill inner).modify frame.group fun n => { n with inner := none }) = frame.parent := by
  have hnode : { group with inner := none } = group := by rw [← hemptied]
  exact (Graph.modify_modify _ _ (by exact fun _ => rfl) _).trans
    (Graph.modify_eq_self hasc hheld hnode)

/-- Moving out of a group and into it again changes nothing. -/
theorem openGroup_fill {active : Graph} {frame : Frame} {frames : List Frame}
    (hasc : frame.parent.nodes.Pairwise (·.id < ·.id)) (hf : Anchored active (frame :: frames)) :
    ∃ b, openGroup ⟨frame.fill active, frames⟩ frame.group frame.viewport =
      .ok (b, ⟨active, frame :: frames⟩) := by
  cases hf with
  | @inside _ _ _ group held isGroup emptied sync around =>
    have hfind : (frame.fill active).find? frame.group =
        some { group with inner := some active } := by
      rw [Frame.fill, Graph.find?_modify _ _ (fun n => { n with inner := some active })
        (fun _ => rfl), held]
      simp [(Graph.find?_mem held).2]
    have henter : enter ⟨frame.fill active, frames⟩ frame.group frame.viewport =
        .ok ⟨active, frame :: frames⟩ := by
      simp only [enter, hfind, isGroup, if_true, Option.getD_some]
      rw [emptied_fill hasc held emptied]
    refine ⟨(reconcile ⟨active, frame :: frames⟩).1, ?_⟩
    have hreconcile : (reconcile ⟨active, frame :: frames⟩).2 = ⟨active, frame :: frames⟩ := by
      rw [reconcile_inside held, sync.reconcile_eq]
    rw [openGroup, henter]
    exact congrArg Except.ok (Prod.ext rfl hreconcile)

end Focus

/-! ### Restoring -/

namespace Image

/-- Opening the groups again, from the outermost on, leads back to where the document was. -/
theorem reopen_frames (metadata : Metadata) {active : Graph} {frames : List Frame}
    (hwf : Focus.WellFormed ⟨active, frames⟩) (hf : Focus.Anchored active frames)
    (viewport : Viewport) (rest : List (NodeId × Viewport)) :
    ∃ v, reopen ⟨metadata, viewport, .ofGraph (Focus.root ⟨active, frames⟩)⟩
        ((frames.map fun f => (f.group, f.viewport)).reverse ++ rest) =
      reopen ⟨metadata, v, ⟨active, frames⟩⟩ rest := by
  induction frames generalizing active rest with
  | nil => exact ⟨viewport, rfl⟩
  | cons frame frames ih =>
    have hparent := hwf.parents frame List.mem_cons_self
    have hwf' : Focus.WellFormed ⟨frame.fill active, frames⟩ :=
      ⟨Frame.wellFormed_fill hparent hwf.active, fun k hk => hwf.parents k (.tail _ hk)⟩
    obtain ⟨v, hv⟩ := ih hwf' hf.fill ((frame.group, frame.viewport) :: rest)
    obtain ⟨b, hopen⟩ := Focus.openGroup_fill hparent.sound.ascending hf
    refine ⟨.standard, ?_⟩
    rw [List.map_cons, List.reverse_cons, List.append_assoc, List.singleton_append,
      Focus.root_cons, hv, reopen, Document.openGroup, hopen]
    rfl

theorem toDocument_ofDocument {d : Document} (hwf : d.focus.WellFormed) (hd : d.Anchored) :
    (ofDocument d).toDocument = d.regroup := by
  obtain ⟨metadata, viewport, f⟩ := d
  have hroot : (GraphRecord.ofGraph f.root).toGraph = f.regroup.root := by
    rw [GraphRecord.toGraph_ofGraph hwf.root (Focus.plain_root hd), Focus.root_regroup]
  have hgroups : (f.frames.map fun f => (f.group, f.viewport)).reverse =
      (f.regroup.frames.map fun f => (f.group, f.viewport)).reverse ++ [] := by
    simp [Focus.regroup, Frame.regroup, Function.comp_def]
  obtain ⟨v, hv⟩ := reopen_frames metadata hwf.regroup hd.regroup .standard []
  simp only [toDocument, ofDocument, Document.ofGraph, Document.root, hroot, hgroups,
    Document.regroup]
  rw [show f.regroup.root = Focus.root ⟨f.active.regroup, f.frames.map Frame.regroup⟩ from rfl,
    show f.regroup.frames = f.frames.map Frame.regroup from rfl, hv]
  rfl

end Image

namespace Snapshot

theorem restore_capture {d : Document} (hwf : d.focus.WellFormed) (hd : d.Anchored) :
    (capture d).restore = .ok d.regroup := by
  rw [restore, capture, Image.ofBytes?_toBytes]
  exact congrArg Except.ok (Image.toDocument_ofDocument hwf hd)

/-- Regrouping does not show in a snapshot. -/
theorem capture_regroup (d : Document) : capture d.regroup = capture d := by
  have hroot : GraphRecord.ofGraph d.regroup.root = GraphRecord.ofGraph d.root := by
    rw [Document.root, Document.root, Document.regroup, Focus.root_regroup,
      GraphRecord.ofGraph_regroup]
  have himage : Image.ofDocument d.regroup = Image.ofDocument d := by
    simp only [Image.ofDocument, hroot]
    simp [Document.regroup, Focus.regroup, Frame.regroup, Function.comp_def]
  rw [capture, himage, capture]

end Snapshot

/-! ### Sessions -/

structure Document.InOrder (d : Document) : Prop where
  wellFormed : d.focus.WellFormed
  anchored : d.Anchored

theorem Document.InOrder.regroup {d : Document} (hd : d.InOrder) : d.regroup.InOrder :=
  ⟨hd.wellFormed.regroup, hd.anchored.regroup⟩

/-- Every snapshot that a history keeps was taken of a document with a property. -/
def History.TakenOf (P : Document → Prop) (h : History) : Prop :=
  ∀ s ∈ h.undoStack ++ h.redoStack, ∃ d, P d ∧ s = .capture d

theorem History.evict_suffix (capacity : Nat) (stack : List Snapshot) :
    evict capacity stack <:+ stack := by
  induction stack with
  | nil => exact List.suffix_rfl
  | cons oldest rest ih =>
    rw [evict]
    split
    · exact ih.trans (List.suffix_cons oldest rest)
    · exact List.suffix_rfl

namespace History.TakenOf

variable {P : Document → Prop} {h h' : History} {d : Document}

theorem start (hd : P d) (capacity : Nat) : (History.start d capacity).TakenOf P := by
  intro s hs
  obtain rfl : s = .capture d := by simpa [History.start] using hs
  exact ⟨d, hd, rfl⟩

theorem save (hh : h.TakenOf P) (hd : P d) : (h.save d).TakenOf P := by
  intro s hs
  have hkept : s ∈ h.undoStack ++ [.capture d] :=
    (evict_suffix _ _).subset (by simpa [History.save, History.push] using hs)
  rcases List.mem_append.1 hkept with hs | hs
  · exact hh s (List.mem_append_left _ hs)
  · exact ⟨d, hd, List.mem_singleton.1 hs⟩

theorem moves (hh : h.TakenOf P) (hmoves : h.Moves d h') : h'.TakenOf P := by
  intro s hs
  rw [hmoves.entries] at hs
  exact hh s hs

theorem restore (hh : h.TakenOf Document.InOrder) {s : Snapshot}
    (hs : s ∈ h.undoStack ++ h.redoStack) (hrestore : s.restore = .ok d) :
    d.InOrder ∧ Snapshot.capture d = s := by
  obtain ⟨k, hk, rfl⟩ := hh s hs
  rw [Snapshot.restore_capture hk.wellFormed hk.anchored] at hrestore
  obtain rfl := Except.ok.inj hrestore
  exact ⟨hk.regroup, Snapshot.capture_regroup k⟩

end History.TakenOf

/-- What loading a script into a document in order can come to: the script is malformed, it fails
and the document is restored, or it succeeds. -/
theorem Script.load_cases {d : Document} (hd : d.InOrder) (catalog : Catalog) (text : String)
    (h : History) :
    (∃ e, parse text = .error e ∧ load catalog text d h = (d, h, .error (.script e))) ∨
    (∃ script built e, parse text = .ok script ∧
      interpret catalog script (d.setActive .empty) = (built, .error e) ∧
      load catalog text d h = (d.regroup, h, .error (.script e))) ∨
    ∃ script built stats, parse text = .ok script ∧
      interpret catalog script (d.setActive .empty) = (built, .ok stats) ∧
      load catalog text d h = (built.reconcile.2, h.save built.reconcile.2,
        .ok ⟨stats, d.active.nodes.length⟩) := by
  have hrestore := Snapshot.restore_capture hd.wellFormed hd.anchored
  cases hparse : parse text with
  | error e => exact .inl ⟨e, rfl, by simp [load, hparse]⟩
  | ok script =>
    cases hint : interpret catalog script (d.setActive .empty) with
    | mk built result =>
      cases result with
      | error e =>
        exact .inr (.inl ⟨script, built, e, rfl, hint, by simp [load, hparse, hint, hrestore]⟩)
      | ok stats =>
        exact .inr (.inr ⟨script, built, stats, rfl, hint, by simp [load, hparse, hint]⟩)

namespace Session

structure InOrder (s : Session) : Prop where
  document : s.document.InOrder
  history : s.history.TakenOf Document.InOrder

/-- Where an edit makes boundary nodes, there are ids for them. Behind the last id they start again
from zero; a boundary node that would get an id in use is not made, and is missing from then on. -/
def FreshIds (s : Session) (catalog : Catalog) : Edit → Prop
  | .openGroup id => ∀ n, s.document.active.find? id = some n → (n.inner.getD .empty).Reconcilable n
  | .load text => Script.FreshIds catalog text s.document
  | _ => True

variable {s : Session}

theorem InOrder.setDocument (hs : s.InOrder) {d : Document} (hd : d.InOrder) :
    (s.setDocument d).InOrder := ⟨hd, hs.history⟩

theorem InOrder.travel (hs : s.InOrder) {step : Except FileError (Option (Document × History))}
    (hstep : ∀ d h, step = .ok (some (d, h)) → s.history.Moves d h) :
    (s.travel step).1.InOrder := by
  refine settle_keeps (P := InOrder) hs fun a ha => ?_
  cases a with
  | none => exact hs
  | some dh =>
    have hmoves := hstep dh.1 dh.2 ha
    obtain ⟨image, himage, hrestore⟩ := hmoves.present
    have hrestored := hs.history.restore (hmoves.mem_of_present himage) hrestore
    exact ⟨hrestored.1, hs.history.moves hmoves⟩

theorem InOrder.load (hs : s.InOrder) {catalog : Catalog} {text : String}
    (hfresh : Script.FreshIds catalog text s.document) :
    (s.apply catalog (.load text)).1.InOrder := by
  have hwf := hs.document.wellFormed
  simp only [apply]
  rcases Script.load_cases hs.document catalog text s.history with
    ⟨e, -, heq⟩ | ⟨script, built, e, -, -, heq⟩ | ⟨script, built, stats, hparse, hint, heq⟩
  · rw [heq]
    exact hs
  · rw [heq]
    exact ⟨hs.document.regroup, hs.history⟩
  · have hbuilt := Script.wellFormed_interpret (d := s.document.setActive .empty)
      (hwf.setActive Graph.wellFormed_empty) catalog script
    rw [hint] at hbuilt
    have hdone : built.reconcile.2.InOrder :=
      ⟨hbuilt.reconcile, Script.anchored_reconcile_interpret hwf hs.document.anchored hint
        fun group hgroup => hfresh script built stats group hparse hint hgroup⟩
    rw [heq]
    exact ⟨hdone, hs.history.save hdone⟩

theorem InOrder.editStep (hs : s.InOrder) {g : Graph} (hstep : s.document.active.EditStep g) :
    (s.setActive g).InOrder :=
  have hactive := hs.document.wellFormed.active
  hs.setDocument ⟨hs.document.wellFormed.setActive (hactive.editStep hstep),
    hs.document.anchored.congr (hactive.boundaryIds_editStep hstep)⟩

/-- What one edit keeps. -/
theorem InOrder.apply (hs : s.InOrder) {catalog : Catalog} {e : Edit} (he : e.Admissible)
    (hfresh : s.FreshIds catalog e) : (s.apply catalog e).1.InOrder := by
  have hwf := hs.document.wellFormed
  have hanchored := hs.document.anchored
  cases e with
  | add node => exact settle_keeps (P := InOrder) hs fun g hg => hs.editStep (.add he hg)
  | remove id => exact settle_keeps (P := InOrder) hs fun a ha => hs.editStep (.remove ha)
  | connect a b => exact settle_keeps (P := InOrder) hs fun r hr => hs.editStep (.connect hr)
  | disconnect select => exact hs.editStep (.disconnect select)
  | move id position => exact settle_keeps (P := InOrder) hs fun g hg => hs.editStep (.move hg)
  | setField id name value =>
    exact settle_keeps (P := InOrder) hs fun g hg => hs.editStep (.setField hg)
  | prune => exact hs.editStep .prune
  | openGroup id =>
    refine settle_keeps (P := InOrder) hs fun a ha => hs.setDocument ?_
    exact ⟨Document.wellFormed_openGroup hwf ha,
      Document.anchored_openGroup hwf hanchored hfresh ha⟩
  | closeGroup =>
    simp only [Session.apply]
    split
    · next d hclose =>
      exact hs.setDocument ⟨Document.wellFormed_closeGroup hwf hclose,
        Document.anchored_closeGroup hanchored hclose⟩
    · exact hs
  | closeAll => exact hs.setDocument ⟨hwf.closeAll, Document.anchored_closeAll hanchored⟩
  | setPorts id inputs outputs =>
    refine settle_keeps (P := InOrder) hs fun a ha => ?_
    obtain ⟨⟨b, g⟩, hset, rfl⟩ := Except.map_eq_ok_iff.1 ha
    exact hs.editStep (.setPorts hset)
  | reconcile => exact hs.setDocument ⟨hwf.reconcile, Document.anchored_reconcile hanchored⟩
  | save => exact ⟨hs.document, hs.history.save hs.document⟩
  | undo => exact hs.travel fun _ _ => History.moves_of_undo
  | redo => exact hs.travel fun _ _ => History.moves_of_redo
  | clearHistory => exact ⟨hs.document, .start hs.document s.history.capacity⟩
  | load text => exact hs.load hfresh

/-- What a whole session keeps. -/
theorem InOrder.run {d₀ : Document} {capacity : Nat} (hd : d₀.InOrder)
    (hrun : Run (fun s catalog e => e.Admissible ∧ s.FreshIds catalog e) (.start d₀ capacity) s) :
    s.InOrder := by
  induction hrun with
  | start => exact ⟨hd, .start hd capacity⟩
  | edit _ catalog e he ih => exact ih.apply he.1 he.2
  | view _ viewport ih => exact ih.setDocument ⟨ih.document.wellFormed, ih.document.anchored⟩
  | describe _ metadata ih => exact ih.setDocument ⟨ih.document.wellFormed, ih.document.anchored⟩

theorem Run.inOrder {d₀ : Document} {capacity : Nat} (h₀ : d₀.Initial)
    (hrun : Run (fun s catalog e => e.Admissible ∧ s.FreshIds catalog e) (.start d₀ capacity) s) :
    s.InOrder :=
  .run ⟨h₀.wellFormed, h₀.anchored⟩ hrun

theorem admissible_newGroup : (Edit.add (.group 1 "Body" ["flow"] ["flow"] .empty)).Admissible := by
  intro inner hi
  rw [← Option.some.inj hi]
  exact Graph.wellFormed_empty

theorem freshIds_openNewGroup (metadata : Metadata) (capacity : Nat) (catalog : Catalog) :
    FreshIds ((Session.start (.blank metadata) capacity).apply catalog
      (.add (.group 1 "Body" ["flow"] ["flow"] .empty))).1 catalog (.openGroup 1) := by
  intro n hn
  obtain rfl := Option.some.inj hn
  exact Graph.reconcilable_of_lt (k := 1) (by decide) (by decide) (fun n hn => by cases hn) _

/-- Two nodes in a new group, and two links. -/
theorem Run.twoInGroup (type : String) (inputs outputs : List String) (metadata : Metadata)
    (capacity : Nat) (catalog : Catalog) (a b c d : Port) :
    Run (fun s catalog e => e.Admissible ∧ s.FreshIds catalog e) (.start (.blank metadata) capacity)
      ((Session.start (.blank metadata) capacity).applyAll catalog
        [.add (.group 1 "Body" ["flow"] ["flow"] .empty), .openGroup 1,
          .add (.ofType 3 type inputs outputs), .add (.ofType 4 type inputs outputs),
          .connect a b, .connect c d]) := by
  have hadd : ∀ id, (Edit.add (.ofType id type inputs outputs)).Admissible :=
    fun id inner hi => by cases hi
  exact .edit (.edit (.edit (.edit (.edit (.edit .start
    catalog _ ⟨admissible_newGroup, trivial⟩)
    catalog _ ⟨trivial, freshIds_openNewGroup metadata capacity catalog⟩)
    catalog _ ⟨hadd 3, trivial⟩)
    catalog _ ⟨hadd 4, trivial⟩)
    catalog _ ⟨trivial, trivial⟩)
    catalog _ ⟨trivial, trivial⟩

theorem Run.twoRelays (metadata : Metadata) (capacity : Nat) (catalog : Catalog) :
    Run (fun s catalog e => e.Admissible ∧ s.FreshIds catalog e) (.start (.blank metadata) capacity)
      ((Session.start (.blank metadata) capacity).applyAll catalog
        [.add (.group 1 "Body" ["flow"] ["flow"] .empty), .openGroup 1,
          .add (.ofType 3 "relay" ["flow"] ["flow"]), .add (.ofType 4 "relay" ["flow"] ["flow"]),
          .connect ⟨1, .output, 0⟩ ⟨3, .input, 0⟩, .connect ⟨3, .output, 0⟩ ⟨4, .input, 0⟩]) :=
  .twoInGroup "relay" ["flow"] ["flow"] metadata capacity catalog _ _ _ _

end Session

/-! ### Failed loads -/

namespace Document

structure Settled (d : Document) : Prop where
  active : d.active.Settled
  parents : ∀ frame ∈ d.focus.frames, frame.parent.Settled

theorem regroup_eq_self_iff {d : Document} : d.regroup = d ↔ d.Settled := by
  obtain ⟨metadata, viewport, active, frames⟩ := d
  constructor
  · intro h
    obtain ⟨hactive, hframes⟩ := Focus.mk.inj (congrArg Document.focus h)
    refine ⟨Graph.regroup_eq_self_iff.1 hactive, fun frame hframe => ?_⟩
    have hmap : frames.map Frame.regroup = frames.map id := hframes.trans (List.map_id _).symm
    have hparent := congrArg Frame.parent (List.map_inj_left.1 hmap frame hframe)
    exact Graph.regroup_eq_self_iff.1 hparent
  · intro h
    have hactive : active.regroup = active := Graph.regroup_eq_self_iff.2 h.active
    have hframes : frames.map Frame.regroup = frames := by
      refine (List.map_congr_left fun frame hframe => ?_).trans (List.map_id _)
      rw [Frame.regroup, Graph.regroup_eq_self_iff.2 (h.parents frame hframe)]
      rfl
    simp only [Document.regroup, Focus.regroup, hactive, hframes]

end Document

/-- A load that fails leaves the history alone. The document stays as it was if the script is
malformed; else it is restored from a snapshot, which regroups the links of its graphs. So the
document comes out unchanged exactly if the script is malformed or the links were regrouped
before. -/
theorem Session.Run.failed_load_regroups {s : Session} {d₀ : Document} {capacity : Nat}
    (h₀ : d₀.Initial)
    (hrun : Run (fun s catalog e => e.Admissible ∧ s.FreshIds catalog e) (.start d₀ capacity) s)
    {catalog : Catalog} {text : String} {h : History} {e : Script.LoadError}
    (hload : (Script.load catalog text s.document h).2.2 = .error e) :
    (Script.load catalog text s.document h).2.1 = h ∧
      ((∃ cause, Script.parse text = .error cause) →
        (Script.load catalog text s.document h).1 = s.document) ∧
      ((∃ script, Script.parse text = .ok script) →
        (Script.load catalog text s.document h).1 = s.document.regroup) ∧
      ((Script.load catalog text s.document h).1 = s.document ↔
        (∃ cause, Script.parse text = .error cause) ∨ s.document.Settled) := by
  have hd := (hrun.inOrder h₀).document
  rcases Script.load_cases hd catalog text h with
    ⟨cause, hparse, heq⟩ | ⟨script, built, cause, hparse, -, heq⟩ |
      ⟨script, built, stats, -, -, heq⟩
  · simp [heq, hparse]
  · simp [heq, hparse, Document.regroup_eq_self_iff]
  · rw [heq] at hload
    cases hload

/-- A script with a type that is not in the catalog, loaded inside a group. -/
theorem Session.Run.failed_load_regroups_unknown_type :
    let s := (Session.start (.blank (.ofName "Module")) 3).applyAll .standard
      [.add (.group 1 "Body" ["flow"] ["flow"] .empty), .openGroup 1,
        .add (.ofType 3 "relay" ["flow"] ["flow"]), .add (.ofType 4 "relay" ["flow"] ["flow"]),
        .connect ⟨1, .output, 0⟩ ⟨3, .input, 0⟩, .connect ⟨3, .output, 0⟩ ⟨4, .input, 0⟩]
    let loaded := Script.load .standard "node 9 \"no-such-type\";" s.document s.history
    loaded.2.2 = .error (.script (.unknownType 1 "no-such-type")) ∧ loaded.2.1 = s.history ∧
      ((∃ cause, Script.parse "node 9 \"no-such-type\";" = .error cause) → loaded.1 = s.document) ∧
      ((∃ script, Script.parse "node 9 \"no-such-type\";" = .ok script) →
        loaded.1 = s.document.regroup) ∧
      (loaded.1 = s.document ↔
        (∃ cause, Script.parse "node 9 \"no-such-type\";" = .error cause) ∨ s.document.Settled) :=
  ⟨by decide +kernel,
    Run.failed_load_regroups (.blank _) (Run.twoRelays (.ofName "Module") 3 .standard)
    (by decide +kernel : _ = Except.error (.script (.unknownType 1 "no-such-type")))⟩

/-- The link from the boundary node, made first, is last after the load that fails. -/
theorem Script.failed_load_moves_link :
    let s := (Session.start (.blank (.ofName "Module")) 3).applyAll .standard
      [.add (.group 1 "Body" ["flow"] ["flow"] .empty), .openGroup 1,
        .add (.ofType 3 "relay" ["flow"] ["flow"]), .add (.ofType 4 "relay" ["flow"] ["flow"]),
        .connect ⟨1, .output, 0⟩ ⟨3, .input, 0⟩, .connect ⟨3, .output, 0⟩ ⟨4, .input, 0⟩]
    let loaded := load .standard "node 9 \"no-such-type\";" s.document s.history
    loaded.2.2 = .error (.script (.unknownType 1 "no-such-type")) ∧
      s.document.active.links = [⟨⟨1, 0⟩, ⟨3, 0⟩⟩, ⟨⟨3, 0⟩, ⟨4, 0⟩⟩] ∧
      loaded.1.active.links = [⟨⟨3, 0⟩, ⟨4, 0⟩⟩, ⟨⟨1, 0⟩, ⟨3, 0⟩⟩] :=
  ⟨by decide +kernel, by decide +kernel, by decide +kernel⟩

end FlowGraph
