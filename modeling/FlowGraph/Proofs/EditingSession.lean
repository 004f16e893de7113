import FlowGraph.Document.ProjectFile
import FlowGraph.Session
import FlowGraph.Proofs.ScriptRun

/-! Editing sessions keep their graphs well-formed: the graph being edited, the graphs around the
open groups, and the whole graph that they make up. -/
namespace FlowGraph

/-! ### Stored graphs -/

namespace GraphRecord

/-- Induction over nested records. -/
theorem nestedInduction {P : GraphRecord → Prop}
    (step : ∀ r : GraphRecord, (∀ n ∈ r.nodes, ∀ inner, n.inner = some inner → P inner) → P r) :
    ∀ r : GraphRecord, P r
  | ⟨nodes, links, boundaryLinks⟩ => step ⟨nodes, links, boundaryLinks⟩ fun n hn inner hi =>
    have hsize : sizeOf inner < sizeOf (⟨nodes, links, boundaryLinks⟩ : GraphRecord) := by
      have hmem := List.sizeOf_lt_of_mem hn
      cases n
      simp_all
      omega
    nestedInduction step inner
termination_by r => sizeOf r
decreasing_by exact hsize

/-- What every node that is taken keeps holds of the graph of all that are taken. -/
theorem addNodes_keeps {add : Graph → Node Graph → Except EditError Graph} {P : Graph → Prop}
    (hempty : P .empty) {nodes : List (Node Graph)}
    (hstep : ∀ n ∈ nodes, ∀ g h, P g → add g n = .ok h → P h) : P (addNodes add nodes) := by
  refine List.foldlRecOn nodes _ hempty fun g hg n hn => ?_
  split
  · next h hok => exact hstep n hn g h hg hok
  · exact hg

/-- What every link that is taken keeps holds of the graph with all that are taken. -/
theorem addLinks_keeps {P : Graph → Prop} {g : Graph} (hg : P g) {links : List Link}
    (hstep : ∀ l ∈ links, ∀ g h, P g → g.connectLink l = .ok h → P h) : P (addLinks g links) := by
  refine List.foldlRecOn links _ hg fun g hg l hl => ?_
  split
  · next h hok => exact hstep l hl g h hg hok
  · exact hg

/-- Whatever is refused on the way, the nodes that were taken make a well-formed graph. -/
theorem wellFormed_addNodes {add : Graph → Node Graph → Except EditError Graph}
    (hadd : ∀ g n h, add g n = .ok h → g.insert n = .ok h) {nodes : List (Node Graph)}
    (hnodes : ∀ n ∈ nodes, ∀ inner, n.inner = some inner → inner.WellFormed) :
    (addNodes add nodes).WellFormed :=
  addNodes_keeps Graph.wellFormed_empty fun n hn _ _ hg hok => hg.insert (hnodes n hn)
    (hadd _ _ _ hok)

theorem connectLink_eq_ok {g h : Graph} {l : Link} (hcon : g.connectLink l = .ok h) :
    ∃ k, g.connect ⟨l.source.node, .output, l.source.port⟩
      ⟨l.target.node, .input, l.target.port⟩ = .ok (k, h) := by
  obtain ⟨⟨k, h'⟩, hk, rfl⟩ := Except.map_eq_ok_iff.1 hcon
  exact ⟨k, hk⟩

theorem wellFormed_addLinks {g : Graph} (hg : g.WellFormed) (links : List Link) :
    (addLinks g links).WellFormed :=
  addLinks_keeps hg fun _ _ _ _ hg hok => by
    obtain ⟨k, hk⟩ := connectLink_eq_ok hok
    exact hg.connect hk

theorem wellFormed_toNestedGraph (r : GraphRecord) : r.toNestedGraph.WellFormed := by
  induction r using nestedInduction with
  | step r ih =>
    rw [toNestedGraph, fold_eq]
    refine wellFormed_addLinks (wellFormed_addNodes (fun _ _ _ h => h) ?_) _
    simp only [List.map_map, List.mem_map, Function.comp_apply]
    rintro _ ⟨n, hn, rfl⟩ inner hi
    obtain ⟨record, hrecord, rfl⟩ := Option.map_eq_some_iff.1 hi
    exact ih n hn record hrecord

theorem wellFormed_toGraph (r : GraphRecord) : r.toGraph.WellFormed := by
  refine wellFormed_addLinks (wellFormed_addNodes (fun _ _ _ h => (Graph.insert_of_add h).2) ?_) _
  simp only [List.map_map, List.mem_map, Function.comp_apply]
  rintro _ ⟨n, -, rfl⟩ inner hi
  obtain ⟨record, -, rfl⟩ := Option.map_eq_some_iff.1 hi
  exact wellFormed_toNestedGraph record

end GraphRecord

/-! ### Documents -/

namespace Document

variable {d e : Document}

/-- Opening a group moves into it and reconciles its boundary nodes. -/
theorem exists_enter_of_openGroup {id : NodeId} {b : Boundary} (h : d.openGroup id = .ok (b, e)) :
    ∃ inside, d.focus.enter id d.viewport = .ok inside ∧ e.focus = inside.reconcile.2 := by
  obtain ⟨⟨b', f⟩, hopen, heq⟩ := Except.map_eq_ok_iff.1 h
  obtain ⟨inside, henter, hrec⟩ := Except.map_eq_ok_iff.1 hopen
  obtain ⟨-, rfl⟩ := Prod.mk.inj heq
  exact ⟨inside, henter, (congrArg Prod.snd hrec).symm⟩

theorem wellFormed_openGroup (hd : d.focus.WellFormed) {id : NodeId} {b : Boundary}
    (h : d.openGroup id = .ok (b, e)) : e.focus.WellFormed := by
  obtain ⟨inside, henter, hfocus⟩ := exists_enter_of_openGroup h
  rw [hfocus]
  exact (hd.enter henter).reconcile

theorem wellFormed_closeGroup (hd : d.focus.WellFormed) (h : d.closeGroup = some e) :
    e.focus.WellFormed := by
  obtain ⟨⟨viewport, f⟩, hclose, rfl⟩ := Option.map_eq_some_iff.1 h
  exact hd.close hclose

end Document

namespace History

/-- What a step back can come to: there is one snapshot at most, or the one before the present one
is restored. -/
theorem undo_cases (h : History) :
    (h.undoStack.length ≤ 1 ∧ h.undo = .ok none) ∨
    ∃ rest previous present, h.undoStack = rest ++ [previous, present] ∧
      h.undo = previous.restore.map fun d =>
        some (d, ⟨rest ++ [previous], present :: h.redoStack, h.capacity⟩) := by
  rcases List.eq_nil_or_concat h.undoStack with hnil | ⟨older, present, hstack⟩
  · exact .inl (by simp [undo, hnil])
  rcases List.eq_nil_or_concat older with rfl | ⟨rest, previous, rfl⟩
  · exact .inl (by simp [undo, hstack])
  · refine .inr ⟨rest, previous, present, by simp [hstack], ?_⟩
    simp [undo, History.present, hstack]

theorem redo_cases (h : History) :
    (h.redoStack = [] ∧ h.redo = .ok none) ∨
    ∃ next rest, h.redoStack = next :: rest ∧
      h.redo = next.restore.map fun d => some (d, ⟨h.undoStack ++ [next], rest, h.capacity⟩) := by
  cases hstack : h.redoStack with
  | nil => exact .inl ⟨rfl, by simp [redo, hstack]⟩
  | cons next rest => exact .inr ⟨next, rest, rfl, by simp [redo, hstack]⟩

/-- A step in a history cuts the same snapshots in two at another place. The document comes from the
one that is present then. -/
structure Moves (h : History) (d : Document) (h' : History) : Prop where
  capacity : h'.capacity = h.capacity
  entries : h'.undoStack ++ h'.redoStack = h.undoStack ++ h.redoStack
  present : ∃ image, h'.present = some image ∧ image.restore = .ok d

variable {h h' : History} {d : Document}

theorem moves_of_undo (hundo : h.undo = .ok (some (d, h'))) : h.Moves d h' := by
  rcases h.undo_cases with ⟨-, heq⟩ | ⟨rest, previous, present, hstack, heq⟩
  · rw [heq] at hundo
    cases hundo
  · obtain ⟨e, he, hpair⟩ := Except.map_eq_ok_iff.1 (heq.symm.trans hundo)
    obtain ⟨rfl, rfl⟩ := Prod.mk.inj (Option.some.inj hpair)
    exact ⟨rfl, by simp [hstack], previous, by simp [History.present], he⟩

theorem moves_of_redo (hredo : h.redo = .ok (some (d, h'))) : h.Moves d h' := by
  rcases h.redo_cases with ⟨-, heq⟩ | ⟨next, rest, hstack, heq⟩
  · rw [heq] at hredo
    cases hredo
  · obtain ⟨e, he, hpair⟩ := Except.map_eq_ok_iff.1 (heq.symm.trans hredo)
    obtain ⟨rfl, rfl⟩ := Prod.mk.inj (Option.some.inj hpair)
    exact ⟨rfl, by simp [hstack], next, by simp [History.present], he⟩

theorem Moves.mem_of_present (hmoves : h.Moves d h') {image : Snapshot}
    (himage : h'.present = some image) : image ∈ h.undoStack ++ h.redoStack :=
  hmoves.entries ▸ List.mem_append_left _ (List.mem_of_getLast? himage)

end History

namespace Script

theorem wellFormed_interpret {d : Document} (hd : d.focus.WellFormed) (catalog : Catalog)
    (script : List Statement) : (interpret catalog script d).1.focus.WellFormed := by
  have hstart : (Workbench.ofDocument d).focus.WellFormed := .ofGraph hd.active
  have hrun := Workbench.keeps_wellFormed.runStatements hstart catalog .none script
  exact hd.setActive hrun.closeAll.active

end Script

/-! ### Sessions -/

/-- The documents that sessions start from: new ones, and those of project files. -/
inductive Document.Initial : Document → Prop
  | blank (metadata : Metadata) : Initial (.blank metadata)
  | opened {file : ProjectFile} {d : Document} (h : file.toDocument = .ok d) : Initial d

/-- A node comes without a nested graph, or with a well-formed one. -/
def Edit.Admissible : Edit → Prop
  | .add node => ∀ inner, node.inner = some inner → inner.WellFormed
  | _ => True

namespace Session

/-- What edits that are allowed make of a session, refused ones included. Every edit may come with a
catalog of its own, and the viewport and the metadata may be set at any time. -/
inductive Run (allowed : Session → Catalog → Edit → Prop) (s₀ : Session) : Session → Prop
  | start : Run allowed s₀ s₀
  | edit {s : Session} (hrun : Run allowed s₀ s) (catalog : Catalog) (e : Edit)
      (he : allowed s catalog e) : Run allowed s₀ (s.apply catalog e).1
  | view {s : Session} (hrun : Run allowed s₀ s) (viewport : Viewport) :
      Run allowed s₀ (s.setDocument { s.document with viewport })
  | describe {s : Session} (hrun : Run allowed s₀ s) (metadata : Metadata) :
      Run allowed s₀ (s.setDocument { s.document with metadata })

theorem Run.mono {allowed allowed' : Session → Catalog → Edit → Prop} {s₀ s : Session}
    (hallowed : ∀ s catalog e, allowed s catalog e → allowed' s catalog e)
    (hrun : Run allowed s₀ s) : Run allowed' s₀ s := by
  induction hrun with
  | start => exact .start
  | edit _ catalog e he ih => exact ih.edit catalog e (hallowed _ _ _ he)
  | view _ viewport ih => exact ih.view viewport
  | describe _ metadata ih => exact ih.describe metadata

theorem Run.applyAll {allowed : Session → Catalog → Edit → Prop} {s₀ s : Session}
    (hrun : Run allowed s₀ s) (catalog : Catalog) (edits : List Edit)
    (hedits : ∀ e ∈ edits, ∀ s, allowed s catalog e) :
    Run allowed s₀ (s.applyAll catalog edits) := by
  induction edits generalizing s with
  | nil => exact hrun
  | cons e edits ih =>
    exact ih (hrun.edit catalog e (hedits e List.mem_cons_self s)) fun e he => hedits e (.tail _ he)

theorem settle_keeps {P : Session → Prop} {ε α : Type} {s : Session} {refuse : ε → Refusal}
    {result : Except ε α} {accept : α → Session × Answer} (hs : P s)
    (hok : ∀ a, result = .ok a → P (accept a).1) : P (s.settle refuse result accept).1 := by
  cases result with
  | ok a => exact hok a rfl
  | error e => exact hs

end Session

/-! ### What every edit keeps -/

inductive Graph.EditStep (g : Graph) : Graph → Prop
  | add {n : Node Graph} {h : Graph} (hn : ∀ inner, n.inner = some inner → inner.WellFormed)
      (hadd : g.add n = .ok h) : EditStep g h
  | remove {id : NodeId} {n : Node Graph} {h : Graph} (hremove : g.remove id = .ok (n, h)) :
      EditStep g h
  | connect {a b : Port} {l : Link} {h : Graph} (hconnect : g.connect a b = .ok (l, h)) :
      EditStep g h
  | disconnect (select : Link → Bool) : EditStep g (g.disconnect select).2
  | move {id : NodeId} {position : Position} {h : Graph} (hmove : g.move id position = .ok h) :
      EditStep g h
  | setField {id : NodeId} {name : String} {value : Value} {h : Graph}
      (hset : g.setField id name value = .ok h) : EditStep g h
  | prune : EditStep g g.prune
  | setPorts {id : NodeId} {inputs outputs : List String} {b : Boundary} {h : Graph}
      (hset : g.setPorts id inputs outputs = .ok (b, h)) : EditStep g h

theorem Graph.WellFormed.editStep {g h : Graph} (hg : g.WellFormed) (hstep : g.EditStep h) :
    h.WellFormed := by
  cases hstep with
  | add hn hadd => exact hg.insert hn (insert_of_add hadd).2
  | remove hremove =>
    obtain ⟨-, -, rfl⟩ := remove_eq_ok hremove
    exact hg.erase _
  | connect hconnect => exact hg.connect hconnect
  | disconnect select => exact hg.disconnect select
  | move hmove => exact hg.move hmove
  | setField hset => exact hg.setField hset
  | prune => exact hg.prune
  | setPorts hset => exact hg.setPorts hset

/-- A property that a document has however it was stored, and that every edit keeps. -/
structure Document.Kept (P : Document → Prop) : Prop where
  stored : ∀ metadata viewport (r : GraphRecord), P (.ofGraph metadata viewport r.toGraph)
  setActive : ∀ {d : Document} {g : Graph}, P d → d.active.EditStep g → P (d.setActive g)
  openGroup : ∀ {d e : Document} {id : NodeId} {b : Boundary}, P d →
    d.openGroup id = .ok (b, e) → P e
  closeGroup : ∀ {d e : Document}, P d → d.closeGroup = some e → P e
  closeAll : ∀ {d : Document}, P d → P d.closeAll
  reconcile : ∀ {d : Document}, P d → P d.reconcile.2
  interpret : ∀ {d : Document} (catalog : Catalog) (script : List Script.Statement), P d →
    P (Script.interpret catalog script (d.setActive .empty)).1
  view : ∀ {d : Document} (viewport : Viewport), P d → P { d with viewport }
  describe : ∀ {d : Document} (metadata : Metadata), P d → P { d with metadata }

namespace Document.Kept

variable {P : Document → Prop} (hP : Document.Kept P)

include hP

theorem initial {d : Document} (hd : d.Initial) : P d := by
  cases hd with
  | blank metadata => exact hP.stored metadata .standard ⟨[], [], []⟩
  | opened h =>
    unfold ProjectFile.toDocument at h
    split at h
    · obtain rfl := Except.ok.inj h
      exact hP.stored _ _ _
    · cases h

/-- Whatever an image holds, the groups are opened one by one. -/
theorem reopen {d : Document} (hd : P d) (groups : List (NodeId × Viewport)) :
    P (Image.reopen d groups) := by
  induction groups generalizing d with
  | nil => exact hd
  | cons group groups ih =>
    rw [Image.reopen]
    split
    · next b inside hopen => exact ih (hP.openGroup (hP.view group.2 hd) hopen)
    · exact hd

theorem restore {image : Snapshot} {d : Document} (h : image.restore = .ok d) : P d := by
  unfold Snapshot.restore at h
  split at h
  · next i _ =>
    obtain rfl := Except.ok.inj h
    exact hP.view _ (hP.reopen (hP.stored _ _ _) i.openGroups)
  · cases h

theorem load {d : Document} (hd : P d) (catalog : Catalog) (text : String) (h : History) :
    P (Script.load catalog text d h).1 := by
  unfold Script.load
  split
  · exact hd
  · next script _ =>
    have hbuilt := hP.interpret catalog script hd
    split
    · next heq =>
      rw [heq] at hbuilt
      exact hP.reconcile hbuilt
    · next heq =>
      rw [heq] at hbuilt
      split
      · next hrestore => exact hP.restore hrestore
      · exact hbuilt

theorem travel {s : Session} (hs : P s.document)
    {step : Except FileError (Option (Document × History))}
    (hstep : ∀ d h, step = .ok (some (d, h)) → s.history.Moves d h) :
    P (s.travel step).1.document := by
  refine Session.settle_keeps (P := fun t => P t.document) hs fun a ha => ?_
  cases a with
  | none => exact hs
  | some dh =>
    obtain ⟨image, -, hrestore⟩ := (hstep dh.1 dh.2 ha).present
    exact hP.restore hrestore

theorem apply {s : Session} (hs : P s.document) (catalog : Catalog) {e : Edit} (he : e.Admissible) :
    P (s.apply catalog e).1.document := by
  cases e with
  | add node =>
    exact Session.settle_keeps (P := fun t => P t.document) hs
      fun g hg => hP.setActive hs (.add he hg)
  | remove id =>
    exact Session.settle_keeps (P := fun t => P t.document) hs
      fun a ha => hP.setActive hs (.remove ha)
  | connect a b =>
    exact Session.settle_keeps (P := fun t => P t.document) hs
      fun r hr => hP.setActive hs (.connect hr)
  | disconnect select => exact hP.setActive hs (.disconnect select)
  | move id position =>
    exact Session.settle_keeps (P := fun t => P t.document) hs
      fun g hg => hP.setActive hs (.move hg)
  | setField id name value =>
    exact Session.settle_keeps (P := fun t => P t.document) hs
      fun g hg => hP.setActive hs (.setField hg)
  | prune => exact hP.setActive hs .prune
  | openGroup id =>
    exact Session.settle_keeps (P := fun t => P t.document) hs fun a ha => hP.openGroup hs ha
  | closeGroup =>
    simp only [Session.apply]
    split
    · next d hclose => exact hP.closeGroup hs hclose
    · exact hs
  | closeAll => exact hP.closeAll hs
  | setPorts id inputs outputs =>
    refine Session.settle_keeps (P := fun t => P t.document) hs fun a ha => ?_
    obtain ⟨⟨b, g⟩, hset, rfl⟩ := Except.map_eq_ok_iff.1 ha
    exact hP.setActive hs (.setPorts hset)
  | reconcile => exact hP.reconcile hs
  | save | clearHistory => exact hs
  | undo => exact hP.travel hs fun _ _ => History.moves_of_undo
  | redo => exact hP.travel hs fun _ _ => History.moves_of_redo
  | load text =>
    have hload := hP.load hs catalog text s.history
    simp only [Session.apply]
    split <;> next heq => rwa [heq] at hload

theorem run {s₀ s : Session} (h₀ : s₀.document.Initial)
    (hrun : Session.Run (fun _ _ e => e.Admissible) s₀ s) : P s.document := by
  induction hrun with
  | start => exact hP.initial h₀
  | edit _ catalog e he ih => exact hP.apply ih catalog he
  | view _ viewport ih => exact hP.view viewport ih
  | describe _ metadata ih => exact hP.describe metadata ih

end Document.Kept

theorem Document.kept_wellFormed : Document.Kept fun d => d.focus.WellFormed where
  stored _ _ r := .ofGraph (GraphRecord.wellFormed_toGraph r)
  setActive hd hstep := hd.setActive (hd.active.editStep hstep)
  openGroup hd h := wellFormed_openGroup hd h
  closeGroup hd h := wellFormed_closeGroup hd h
  closeAll hd := hd.closeAll
  reconcile hd := hd.reconcile
  interpret catalog script hd :=
    Script.wellFormed_interpret (d := Document.setActive _ _) (hd.setActive Graph.wellFormed_empty)
      catalog script
  view _ hd := hd
  describe _ hd := hd

theorem Document.Initial.wellFormed {d : Document} (hd : d.Initial) : d.focus.WellFormed :=
  kept_wellFormed.initial hd

namespace Session

theorem Run.wellFormed {s₀ s : Session} (h₀ : s₀.document.Initial)
    (hrun : Run (fun _ _ e => e.Admissible) s₀ s) : s.document.focus.WellFormed :=
  Document.kept_wellFormed.run h₀ hrun

/-- Well-formed graphs at every moment of a session, whatever its history held at the start. -/
theorem Run.graphs_wellFormed {s₀ s : Session} (h₀ : s₀.document.Initial)
    (hrun : Run (fun _ _ e => e.Admissible) s₀ s) :
    s.document.active.WellFormed ∧ (∀ frame ∈ s.document.focus.frames, frame.parent.WellFormed) ∧
      s.document.root.WellFormed := by
  have hs := hrun.wellFormed h₀
  exact ⟨hs.active, hs.parents, hs.root⟩

/-- A session that links the boundary nodes of an open group, goes back and forth in its history and
is refused the removal of one of them. -/
theorem Run.graphs_wellFormed_inside_group :
    let s := (Session.start (.blank (.ofName "Module")) 3).applyAll .standard
      [.add (.group 1 "Body" ["flow"] ["flow"] .empty), .openGroup 1,
        .connect ⟨1, .output, 0⟩ ⟨2, .input, 0⟩, .save, .undo, .redo, .remove 2]
    s.document.focus.path = [1] ∧ s.document.active.links = [⟨⟨1, 0⟩, ⟨2, 0⟩⟩] ∧
      s.document.active.WellFormed ∧ (∀ frame ∈ s.document.focus.frames, frame.parent.WellFormed) ∧
      s.document.root.WellFormed := by
  refine ⟨by decide +kernel, by decide +kernel, Run.graphs_wellFormed (.blank (.ofName "Module"))
    (Run.start.applyAll _ _ ?_)⟩
  intro e he _
  simp only [List.mem_cons, List.not_mem_nil, or_false] at he
  rcases he with rfl | rfl | rfl | rfl | rfl | rfl | rfl
  · intro inner hi
    rw [← Option.some.inj hi]
    exact Graph.wellFormed_empty
  all_goals trivial

end Session
end FlowGraph
