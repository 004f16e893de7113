import FlowGraph.Proofs.ScriptBuild

/-! Scripts of graphs load back. The script of a document, loaded into it or into a new one, brings
back its metadata and its graph with all numbers in canonical form. -/
namespace FlowGraph

/-! ### Metadata -/

/-- What the statements of `m` make of metadata: they leave alone what is empty in `m`. -/
def Metadata.overlay (base m : Metadata) : Metadata where
  name := m.name
  space := if m.space.isEmpty then base.space else m.space
  description := if m.description.isEmpty then base.description else m.description
  flags := base.flags.insertAll m.flags.entries

theorem Metadata.overlay_self (m : Metadata) : m.overlay m = m := by
  have hflags : m.flags.insertAll m.flags.entries = m.flags := NameMap.insertAll_eq fun _ h => h
  simp only [overlay, ite_self, hflags]

theorem Metadata.overlay_ofName (name : String) (m : Metadata) : (ofName name).overlay m = m := by
  have hflags : NameMap.empty.insertAll m.flags.entries = m.flags := NameMap.ofList_entries m.flags
  have hempty : ∀ s : String, (if s.isEmpty then "" else s) = s := fun s => by
    split
    · next h => exact (String.isEmpty_iff.1 h).symm
    · rfl
  simp only [overlay, ofName, hempty, hflags]

namespace Script

theorem runStatements_flags (catalog : Catalog) (entries : List (String × Bool)) (w : Workbench)
    (stats : Stats) :
    runStatements catalog stats w (entries.map fun (name, value) => .flag 0 name value) =
      ({ w with metadata := { w.metadata with flags := w.metadata.flags.insertAll entries } },
        .ok stats) := by
  induction entries generalizing w with
  | nil => rfl
  | cons entry entries ih =>
    rw [List.map_cons, runStatements]
    exact ih _

theorem runStatements_metadata (catalog : Catalog) (m : Metadata) (w : Workbench) (stats : Stats) :
    runStatements catalog stats w (metadataStatements m) =
      ({ w with metadata := w.metadata.overlay m }, .ok stats) := by
  unfold metadataStatements Metadata.overlay
  cases m.space.isEmpty <;> cases m.description.isEmpty <;>
    exact runStatements_flags catalog m.flags.entries _ stats

end Script

/-! ### Graphs that scripts can build -/

/-- What a script can build a node from: a plain node of a registered type with the ports and the
fields of its template, or a group with a name whose nested graph has the boundary nodes for its
ports. -/
inductive Node.Representable (catalog : Catalog) (n : Node Graph) : Prop
  | plain {template : Template} (isGroup : n.isGroup = false) (type : n.type ≠ groupType)
      (registered : catalog.find? n.type = some template) (inputs : n.inputs = template.inputs)
      (outputs : n.outputs = template.outputs)
      (defaults : ∀ name, template.defaults.contains name = true → n.fields.contains name = true)
      (inner : n.inner = none)
  | group {name : String} {nested : Graph} (isGroup : n.isGroup = true) (type : n.type = groupType)
      (named : n.text? "name" = some name) (inner : n.inner = some nested)
      (inSync : nested.InSync n)

/-- What a script can build at one level. A script writes ports as numbers, which hold every index
below 2^53 exactly. The index of a linked port is less than the number of ports of its node, so that
only a node with more than 2^53 ports could have a link that is not exact: no machine holds the
labels of such a node, and every graph that is held in memory meets the last condition. -/
structure Graph.RepresentableHere (catalog : Catalog) (g : Graph) : Prop where
  sound : g.Sound
  nodes : ∀ n ∈ g.nodes, n.Representable catalog
  exact : ∀ l ∈ g.links, l.IsExact

def Graph.Representable (catalog : Catalog) (g : Graph) : Prop :=
  g.Everywhere (RepresentableHere catalog)

/-- The boundary nodes are those for the ports of the group around the graph, if there is one. -/
def Graph.Housed (g : Graph) : Option (Node Graph) → Prop
  | none => g.Plain
  | some group => g.InSync group

theorem Graph.Housed.allowedIn {g : Graph} {group : Option (Node Graph)} (h : g.Housed group) :
    g.AllowedIn group := by
  cases group with
  | none => exact h
  | some group => exact InSync.allowed h

theorem Graph.Housed.canonical {g : Graph} {group : Option (Node Graph)} (h : g.Housed group) :
    g.canonical.Housed group := by
  cases group with
  | none => exact Plain.congr h (boundaryIds_congr g.roster_canonical)
  | some group => exact InSync.congr h (boundaryIds_congr g.roster_canonical)

theorem Node.Representable.declared {catalog : Catalog} {n : Node Graph}
    (h : n.Representable catalog) : n.Declared catalog := by
  cases h with
  | plain isGroup type registered inputs outputs defaults inner =>
    exact .plain isGroup type registered inputs outputs defaults inner
  | group isGroup type _ inner inSync => exact .group isGroup type inner inSync.allowed

namespace Graph.Representable

variable {catalog : Catalog} {g : Graph}

theorem declared (h : g.Representable catalog) : g.Declared catalog :=
  h.imp fun _ here => ⟨here.sound, fun n hn => (here.nodes n hn).declared,
    fun l hl => Script.readablePorts_of_isExact (here.exact l hl)⟩

theorem faithful (h : g.Representable catalog) : g.Faithful := by
  refine h.imp fun _ here n hn isGroup => ?_
  cases here.nodes n hn with
  | plain isPlain => rw [isGroup] at isPlain; cases isPlain
  | group _ _ named inner inSync =>
    refine ⟨⟨_, named⟩, fun nested hi => ?_⟩
    rw [← Option.some.inj (inner.symm.trans hi)]
    exact inSync.tended

theorem reloaded_canonical (h : g.Representable catalog) : g.canonical.reloaded = g.canonical :=
  h.declared.canonical.reloaded_eq_self_iff.2 (faithful_canonical_iff.2 h.faithful)

end Graph.Representable

/-! ### Loading -/

/-- The active graph of the document is one that a script can build in its place. -/
structure Document.Representable (catalog : Catalog) (d : Document) : Prop where
  active : d.active.Representable catalog
  housed : d.active.Housed d.focus.currentGroup?

theorem Document.reconcile_of_housed {d : Document} (h : d.active.Housed d.focus.currentGroup?) :
    d.reconcile.2 = d := by
  obtain ⟨metadata, viewport, active, frames⟩ := d
  simp only [reconcile, Focus.reconcile]
  cases hgroup : (⟨active, frames⟩ : Focus).currentGroup? with
  | none => rfl
  | some group =>
    rw [hgroup] at h
    have hsync : active.InSync group := h
    simp only [hsync.reconcile_eq]

namespace Script

/-- Loading the script of a graph reads it back, and reconciles it with the group that it is loaded
into. -/
theorem load_render_reloaded {catalog : Catalog} {g : Graph} (hg : g.Declared catalog)
    (m : Metadata) {d : Document} (hallowed : g.AllowedIn d.focus.currentGroup?) (h : History) :
    ∃ report,
    let done := Document.reconcile
      ⟨d.metadata.overlay m, d.viewport, ⟨g.canonical.reloaded, d.focus.frames⟩⟩
    load catalog (render m g) d h = (done.2, h.save done.2, .ok report) := by
  obtain ⟨script, hparse, hbare⟩ := parse_render m hg.isReadable
  have hmetadata :=
    runStatements_metadata catalog m (Workbench.ofDocument (d.setActive .empty)) .none
  obtain ⟨stats, hgraph⟩ := rebuilds_of_declared hg.canonical
    { Workbench.ofDocument (d.setActive .empty) with metadata := d.metadata.overlay m } .none rfl
    (hallowed.congr (Graph.boundaryIds_congr g.roster_canonical))
  have hrun : run catalog script (Workbench.ofDocument (d.setActive .empty)) =
      (⟨d.metadata.overlay m, .ofGraph g.canonical.reloaded, d.focus.currentGroup?⟩, .ok stats) :=
    runStatements_eq_ok catalog hbare ((runStatements_append catalog hmetadata).trans hgraph)
  refine ⟨⟨stats, d.active.nodes.length⟩, ?_⟩
  rw [load, hparse]
  simp only [interpret, hrun]
  rfl

/-- Loading the script of a graph builds the graph. -/
theorem load_render {catalog : Catalog} {g : Graph} (hg : g.Representable catalog) (m : Metadata)
    {d : Document} (hhoused : g.Housed d.focus.currentGroup?) (h : History) : ∃ report,
    load catalog (render m g) d h =
      (⟨d.metadata.overlay m, d.viewport, ⟨g.canonical, d.focus.frames⟩⟩,
        h.save ⟨d.metadata.overlay m, d.viewport, ⟨g.canonical, d.focus.frames⟩⟩, .ok report) := by
  obtain ⟨report, hload⟩ := load_render_reloaded hg.declared m hhoused.allowedIn h
  have hdone := Document.reconcile_of_housed
    (d := ⟨d.metadata.overlay m, d.viewport, ⟨g.canonical, d.focus.frames⟩⟩)
    hhoused.canonical
  simp only [hg.reloaded_canonical, hdone] at hload
  exact ⟨report, hload⟩

end Script

/-- The script of a document loads: into the document itself, which it leaves as it is but for the
form of its numbers, and, if no group is open, into any new document, which gets the same metadata
and graph. -/
theorem Document.Representable.load_ofDocument {catalog : Catalog} {d : Document}
    (hd : d.Representable catalog) (h : History) :
    (∃ report, Script.load catalog (Script.ofDocument d) d h =
      (d.setActive d.active.canonical, h.save (d.setActive d.active.canonical), .ok report)) ∧
    (d.focus.frames = [] → ∀ name, ∃ report,
      Script.load catalog (Script.ofDocument d) (.blank (.ofName name)) h =
        (.ofGraph d.metadata .standard d.active.canonical,
          h.save (.ofGraph d.metadata .standard d.active.canonical), .ok report)) := by
  constructor
  · obtain ⟨report, hload⟩ := Script.load_render hd.active d.metadata hd.housed h
    rw [Metadata.overlay_self] at hload
    exact ⟨report, hload⟩
  · intro hframes name
    have hplain : d.active.Housed (Document.blank (.ofName name)).focus.currentGroup? := by
      have hhoused := hd.housed
      rw [Focus.currentGroup?, hframes] at hhoused
      exact hhoused
    obtain ⟨report, hload⟩ := Script.load_render hd.active d.metadata hplain h
    have hmetadata : (Document.blank (.ofName name)).metadata.overlay d.metadata = d.metadata :=
      Metadata.overlay_ofName name d.metadata
    rw [hmetadata] at hload
    exact ⟨report, hload⟩

/-! ### A group with names, texts and numbers of all kinds -/

def Graph.sample : Graph where
  nodes := [.boundary .input 1,
    { (.ofType 2 "log" ["flow", "message"] ["flow"] : Node Graph) with
      position := ⟨Number.zero.neg, .infinity true⟩
      fields := .ofList [("message", .text "one\n\"two\""), ("node", .number .nan),
        ("two words", .vector [Number.zero.neg, .infinity false])] }]
  links := [⟨⟨1, 0⟩, ⟨2, 0⟩⟩]

def Node.sample : Node Graph :=
  { (.group 3 "in\\ner" ["flow"] ["value"] .sample : Node Graph) with size := ⟨.nan, .ofNat 1⟩ }

def Document.sample : Document where
  metadata := ⟨"flow", "", "a\\b", .ofList [("true", false)]⟩
  viewport := .standard
  focus :=
    { active := ⟨[.boundary .input 1, .boundary .output 2, .sample], [⟨⟨1, 0⟩, ⟨3, 0⟩⟩]⟩
      frames := [⟨7,
        ⟨[{ (.group 7 "Outer" ["flow"] ["flow"] .empty : Node Graph) with inner := none }], []⟩,
        .standard⟩] }

theorem Node.representable_boundary (side : Direction) (id : NodeId) :
    (Node.boundary side id : Node Graph).Representable .standard := by
  cases side with
  | input =>
    have hfind : Catalog.standard.find? "group-input" =
        some (Template.structural "group-input" [] ["flow"]) := rfl
    exact .plain rfl (by simp [boundary, ofType, boundaryType, groupType]) hfind
      rfl rfl (fun _ h => by cases h) rfl
  | output =>
    have hfind : Catalog.standard.find? "group-output" =
        some (Template.structural "group-output" ["flow"] []) := rfl
    exact .plain rfl (by simp [boundary, ofType, boundaryType, groupType]) hfind
      rfl rfl (fun _ h => by cases h) rfl

theorem Graph.representable_sample : Graph.sample.Representable .standard := by
  refine .intro
    ⟨sound_of_fits (by decide +kernel) (by decide +kernel) (by decide +kernel), ?_, ?_⟩ ?_
  · have hlog : Catalog.standard.find? "log" = some Template.log := rfl
    refine List.forall_mem_cons.2
      ⟨Node.representable_boundary .input 1, List.forall_mem_singleton.2 ?_⟩
    refine .plain rfl (by decide) hlog rfl rfl (fun name hname => ?_) rfl
    have hmessage : name = "message" := by
      simpa [Template.log, NameMap.ofList, NameMap.insertAll, NameMap.contains,
        NameMap.get?_insert] using hname
    rw [hmessage]
    decide +kernel
  · exact List.forall_mem_singleton.2 ⟨by decide, by decide⟩
  · exact List.forall_mem_cons.2
      ⟨(fun _ hi => by cases hi), List.forall_mem_singleton.2 (fun _ hi => by cases hi)⟩

theorem Node.representable_sample : Node.sample.Representable .standard :=
  .group rfl rfl (by decide +kernel : _ = some "in\\ner")
    rfl (fun side => by cases side <;> decide +kernel)

theorem Graph.representable_inner_sample : ∀ inner, Node.sample.inner = some inner →
    inner.Representable .standard := by
  rintro inner ⟨⟩
  exact Graph.representable_sample

theorem Document.representable_sample : Document.sample.Representable .standard := by
  refine ⟨.intro ⟨Graph.sound_of_fits (by decide +kernel) (by decide +kernel) (by decide +kernel),
    ?_, ?_⟩ ?_, ?_⟩
  · exact List.forall_mem_cons.2 ⟨Node.representable_boundary .input 1, List.forall_mem_cons.2
      ⟨Node.representable_boundary .output 2,
        List.forall_mem_singleton.2 Node.representable_sample⟩⟩
  · exact List.forall_mem_singleton.2 ⟨by decide, by decide⟩
  · exact List.forall_mem_cons.2 ⟨(fun _ hi => by cases hi), List.forall_mem_cons.2
      ⟨(fun _ hi => by cases hi), List.forall_mem_singleton.2 Graph.representable_inner_sample⟩⟩
  · intro side
    cases side <;> decide +kernel

theorem Document.representable_root_sample (m : Metadata) :
    (Document.ofGraph m .standard ⟨[.sample], []⟩).Representable .standard := by
  have hsound : (⟨[.sample], []⟩ : Graph).Sound :=
    ⟨List.pairwise_singleton _ _, (fun l hl => by cases hl), .nil⟩
  refine ⟨.intro ⟨hsound, ?_, fun l hl => by cases hl⟩ ?_, ?_⟩
  · exact List.forall_mem_singleton.2 Node.representable_sample
  · exact List.forall_mem_singleton.2 Graph.representable_inner_sample
  · intro side
    cases side <;> rfl

/-- Inside the open group, and with the group alone in a document without open groups. -/
theorem Document.Representable.load_ofDocument_sample :
    (Document.sample.Representable .standard ∧ ∃ report,
      Script.load .standard (Script.ofDocument .sample) .sample (.start .sample 2) =
        (Document.sample.setActive Document.sample.active.canonical,
          (History.start .sample 2).save
          (Document.sample.setActive Document.sample.active.canonical), .ok report)) ∧
    (∃ report, Script.load .standard
        (Script.ofDocument (.ofGraph (.ofName "Root") .standard ⟨[.sample], []⟩))
        (.blank (.ofName "New")) (.start .sample 2) =
      (.ofGraph (.ofName "Root") .standard (⟨[.sample], []⟩ : Graph).canonical,
        (History.start .sample 2).save
          (.ofGraph (.ofName "Root") .standard (⟨[.sample], []⟩ : Graph).canonical), .ok report)) :=
  ⟨⟨Document.representable_sample,
      (Document.Representable.load_ofDocument Document.representable_sample (.start .sample 2)).1⟩,
    (Document.Representable.load_ofDocument (Document.representable_root_sample (.ofName "Root"))
      (.start .sample 2)).2 rfl "New"⟩

end FlowGraph
