import FlowGraph.Proofs.WellFormed
import FlowGraph.Script.Load

/-! What running a script keeps. A property of the target that every single operation keeps holds
after the whole script, however it ends, and so does a relation between two targets; for documents
this gives well-formed graphs. -/
namespace FlowGraph

theorem Except.map_eq_ok_iff {ε α β : Type} {f : α → β} {x : Except ε α} {b : β} :
    x.map f = .ok b ↔ ∃ a, x = .ok a ∧ f a = b := by
  cases x <;> simp [Except.map]

/-! ### Open groups -/

structure Focus.WellFormed (f : Focus) : Prop where
  active : f.active.WellFormed
  parents : ∀ frame ∈ f.frames, frame.parent.WellFormed

theorem Frame.wellFormed_fill {frame : Frame} {inner : Graph} (hparent : frame.parent.WellFormed)
    (hinner : inner.WellFormed) : (frame.fill inner).WellFormed :=
  hparent.setInner fun h hi => by
    rw [← Option.some.inj hi]
    exact hinner

theorem Focus.enter_eq_ok {f h : Focus} {id : NodeId} {viewport : Viewport}
    (henter : f.enter id viewport = .ok h) : ∃ n, f.active.find? id = some n ∧ n.isGroup = true ∧
      h = ⟨n.inner.getD .empty,
        ⟨id, f.active.modify id fun n => { n with inner := none }, viewport⟩ :: f.frames⟩ := by
  unfold enter at henter
  split at henter
  · cases henter
  · next n hfind =>
    split at henter
    · next hgroup => exact ⟨n, hfind, hgroup, (Except.ok.inj henter).symm⟩
    · cases henter

theorem Focus.frames_reconcile (f : Focus) : f.reconcile.2.frames = f.frames := by
  unfold reconcile
  split <;> rfl

namespace Focus.WellFormed

variable {f : Focus}

theorem ofGraph {g : Graph} (hg : g.WellFormed) : (Focus.ofGraph g).WellFormed :=
  ⟨hg, by simp [Focus.ofGraph]⟩

theorem setActive (hf : f.WellFormed) {g : Graph} (hg : g.WellFormed) :
    ({ f with active := g } : Focus).WellFormed := ⟨hg, hf.parents⟩

theorem reconcile (hf : f.WellFormed) : f.reconcile.2.WellFormed := by
  unfold Focus.reconcile
  split
  · exact hf
  · exact hf.setActive (hf.active.reconcile _)

theorem enter (hf : f.WellFormed) {id : NodeId} {viewport : Viewport} {h : Focus}
    (henter : f.enter id viewport = .ok h) : h.WellFormed := by
  obtain ⟨n, hfind, -, rfl⟩ := Focus.enter_eq_ok henter
  refine ⟨Graph.WellFormed.getD fun _ hi => hf.active.nested (Graph.find?_mem hfind).1 hi, ?_⟩
  intro frame hframe
  rcases List.mem_cons.1 hframe with rfl | hframe
  · exact hf.active.setInner (by simp)
  · exact hf.parents frame hframe

theorem close (hf : f.WellFormed) {viewport : Viewport} {h : Focus}
    (hclose : f.close = some (viewport, h)) : h.WellFormed := by
  unfold Focus.close at hclose
  split at hclose
  · cases hclose
  · next frame frames hframes =>
    simp only [Option.some.injEq, Prod.mk.injEq] at hclose
    obtain ⟨-, rfl⟩ := hclose
    have hparents : ∀ k ∈ frame :: frames, k.parent.WellFormed := hframes ▸ hf.parents
    exact ⟨Frame.wellFormed_fill (hparents frame List.mem_cons_self) hf.active.prune,
      fun k hk => hparents k (.tail _ hk)⟩

theorem closeFrames {active : Graph} {frames : List Frame} (hactive : active.WellFormed)
    (hparents : ∀ frame ∈ frames, frame.parent.WellFormed) :
    (Focus.closeFrames active frames).WellFormed := by
  induction frames generalizing active with
  | nil => exact hactive
  | cons frame frames ih =>
    exact ih (Frame.wellFormed_fill (hparents frame List.mem_cons_self) hactive.prune)
      fun k hk => hparents k (.tail _ hk)

theorem closeAll (hf : f.WellFormed) : f.closeAll.2.WellFormed :=
  ofGraph (closeFrames hf.active hf.parents)

theorem root (hf : f.WellFormed) : f.root.WellFormed := by
  obtain ⟨active, frames⟩ := f
  obtain ⟨hactive, hparents⟩ := hf
  simp only [Focus.root]
  induction frames generalizing active with
  | nil => exact hactive
  | cons frame frames ih =>
    exact ih _ (Frame.wellFormed_fill (hparents frame List.mem_cons_self) hactive)
      fun k hk => hparents k (.tail _ hk)

end Focus.WellFormed

/-! ### Scripts -/

namespace Script

/-- The operations of a target keep `P`. The nodes that scripts add have no nested graph or an empty
one. -/
structure Target.Keeps {σ : Type} [Target σ] (P : σ → Prop) : Prop where
  setName : ∀ t name, P t → P (Target.setName t name)
  setSpace : ∀ t name, P t → P (Target.setSpace t name)
  setDescription : ∀ t text, P t → P (Target.setDescription t text)
  setFlag : ∀ t name value, P t → P (Target.setFlag t name value)
  addNode : ∀ t (n : Node Graph), n.inner.getD .empty = .empty → P t → P (Target.addNode t n).1
  connect : ∀ t a b, P t → P (Target.connect t a b).1
  enterGroup : ∀ t id, P t → P (Target.enterGroup t id).1
  exitGroup : ∀ t, P t → P (Target.exitGroup t)

theorem NodeDecl.inner_node? {catalog : Catalog} {decl : NodeDecl} {index : Nat} {n : Node Graph}
    (h : decl.node? catalog index = some n) : n.inner.getD .empty = .empty := by
  simp only [NodeDecl.node?, Catalog.instantiate?, Option.map_eq_some_iff] at h
  obtain ⟨_, ⟨t, -, rfl⟩, rfl⟩ := h
  simp only [settle, Node.overlay]
  split <;> rfl

section Run

variable {σ : Type} [Target σ] {P : σ → Prop}

mutual

theorem Target.Keeps.runStatement (hP : Target.Keeps P) {target : σ} (ht : P target)
    (catalog : Catalog) (stats : Stats) (s : Statement) :
    P (runStatement catalog stats target s).1 := by
  cases s with
  | title line name => exact hP.setName _ _ ht
  | space line name => exact hP.setSpace _ _ ht
  | description line text => exact hP.setDescription _ _ ht
  | flag line name value => exact hP.setFlag _ _ _ ht
  | node line decl =>
    rw [Script.runStatement]
    split
    · exact ht
    · next n hn =>
      have hadd := hP.addNode target n (decl.inner_node? hn) ht
      split <;> next heq => rwa [heq] at hadd
  | group line decl body =>
    rw [Script.runStatement]
    have hadd := hP.addNode target (decl.node stats.nodes) rfl ht
    split
    · next heq => rwa [heq] at hadd
    · next added _ heq =>
      rw [heq] at hadd
      have henter := hP.enterGroup added decl.id hadd
      split
      · next heq' => rwa [heq'] at henter
      · next inside _ heq' =>
        rw [heq'] at henter
        exact hP.exitGroup _ (Target.Keeps.runStatements hP henter catalog _ body)
  | connect line link =>
    rw [Script.runStatement]
    have hcon := hP.connect target ⟨link.source.node, .output, link.source.port⟩
      ⟨link.target.node, .input, link.target.port⟩ ht
    split <;> next heq => rwa [heq] at hcon
termination_by structural s

theorem Target.Keeps.runStatements (hP : Target.Keeps P) {target : σ} (ht : P target)
    (catalog : Catalog) (stats : Stats) (script : List Statement) :
    P (runStatements catalog stats target script).1 := by
  cases script with
  | nil => exact ht
  | cons s rest =>
    rw [Script.runStatements]
    have hs := Target.Keeps.runStatement hP ht catalog stats s
    split
    · next heq =>
      rw [heq] at hs
      exact Target.Keeps.runStatements hP hs catalog _ rest
    · next heq => rwa [heq] at hs
termination_by structural script

end

end Run

/-! ### Targets in step -/

def Matches {σ τ α : Type} (R : σ → τ → Prop) (x : σ × α) (y : τ × α) : Prop :=
  R x.1 y.1 ∧ x.2 = y.2

theorem Matches.cases {σ τ ε α : Type} {R : σ → τ → Prop} {x : σ × Except ε α} {y : τ × Except ε α}
    (h : Matches R x y) : (∃ s t e, x = (s, .error e) ∧ y = (t, .error e) ∧ R s t) ∨
      ∃ s t a, x = (s, .ok a) ∧ y = (t, .ok a) ∧ R s t := by
  obtain ⟨s, result⟩ := x
  obtain ⟨t, result'⟩ := y
  obtain ⟨hst, rfl⟩ := h
  cases result with
  | error e => exact .inl ⟨s, t, e, rfl, rfl, hst⟩
  | ok a => exact .inr ⟨s, t, a, rfl, rfl, hst⟩

/-- The operations of two targets keep a relation between them, and have the same results. -/
structure Target.InStep {σ τ : Type} [Target σ] [Target τ] (R : σ → τ → Prop) : Prop where
  setName : ∀ s t name, R s t → R (Target.setName s name) (Target.setName t name)
  setSpace : ∀ s t name, R s t → R (Target.setSpace s name) (Target.setSpace t name)
  setDescription : ∀ s t text, R s t →
    R (Target.setDescription s text) (Target.setDescription t text)
  setFlag : ∀ s t name value, R s t → R (Target.setFlag s name value) (Target.setFlag t name value)
  addNode : ∀ s t n, R s t → Matches R (Target.addNode s n) (Target.addNode t n)
  connect : ∀ s t a b, R s t → Matches R (Target.connect s a b) (Target.connect t a b)
  enterGroup : ∀ s t id, R s t → Matches R (Target.enterGroup s id) (Target.enterGroup t id)
  exitGroup : ∀ s t, R s t → R (Target.exitGroup s) (Target.exitGroup t)

section InStep

variable {σ τ : Type} [Target σ] [Target τ] {R : σ → τ → Prop}

mutual

theorem Target.InStep.runStatement (hR : Target.InStep R) {s : σ} {t : τ} (h : R s t)
    (catalog : Catalog) (stats : Stats) (statement : Statement) :
    Matches R (runStatement catalog stats s statement)
      (runStatement catalog stats t statement) := by
  cases statement with
  | title line name => exact ⟨hR.setName _ _ _ h, rfl⟩
  | space line name => exact ⟨hR.setSpace _ _ _ h, rfl⟩
  | description line text => exact ⟨hR.setDescription _ _ _ h, rfl⟩
  | flag line name value => exact ⟨hR.setFlag _ _ _ _ h, rfl⟩
  | node line decl =>
    rw [Script.runStatement, Script.runStatement]
    cases decl.node? catalog stats.nodes with
    | none => exact ⟨h, rfl⟩
    | some n =>
      rcases (hR.addNode s t n h).cases with ⟨s', t', e, hs, ht, hst⟩ | ⟨s', t', _, hs, ht, hst⟩ <;>
        simp only [hs, ht] <;> exact ⟨hst, rfl⟩
  | group line decl body =>
    rw [Script.runStatement, Script.runStatement]
    rcases (hR.addNode s t (decl.node stats.nodes) h).cases with
      ⟨s', t', e, hs, ht, hst⟩ | ⟨s', t', _, hs, ht, hst⟩ <;> simp only [hs, ht]
    · exact ⟨hst, rfl⟩
    rcases (hR.enterGroup s' t' decl.id hst).cases with
      ⟨s', t', e, hs, ht, hst⟩ | ⟨s', t', _, hs, ht, hst⟩ <;> simp only [hs, ht]
    · exact ⟨hst, rfl⟩
    obtain ⟨hbody, hresult⟩ := Target.InStep.runStatements hR hst catalog stats.addGroup body
    exact ⟨hR.exitGroup _ _ hbody, hresult⟩
  | connect line link =>
    rw [Script.runStatement, Script.runStatement]
    rcases (hR.connect s t ⟨link.source.node, .output, link.source.port⟩
        ⟨link.target.node, .input, link.target.port⟩ h).cases with
      ⟨s', t', e, hs, ht, hst⟩ | ⟨s', t', _, hs, ht, hst⟩ <;> simp only [hs, ht] <;>
        exact ⟨hst, rfl⟩
termination_by structural statement

/-- Targets in step are in step after a script, however it ends. -/
theorem Target.InStep.runStatements (hR : Target.InStep R) {s : σ} {t : τ} (h : R s t)
    (catalog : Catalog) (stats : Stats) (script : List Statement) :
    Matches R (runStatements catalog stats s script) (runStatements catalog stats t script) := by
  cases script with
  | nil => exact ⟨h, rfl⟩
  | cons statement rest =>
    rw [Script.runStatements, Script.runStatements]
    rcases (Target.InStep.runStatement hR h catalog stats statement).cases with
      ⟨s', t', e, hs, ht, hst⟩ | ⟨s', t', stats', hs, ht, hst⟩ <;> simp only [hs, ht]
    · exact ⟨hst, rfl⟩
    · exact Target.InStep.runStatements hR hst catalog stats' rest
termination_by structural script

end

end InStep

/-! ### Documents as targets -/

namespace Workbench

variable {w w' : Workbench}

theorem addNode_eq_ok {n : Node Graph} (h : w.addNode n = .ok w') :
    ∃ g, w.focus.active.insert n = .ok g ∧ w' = w.setGraph g := by
  unfold Workbench.addNode at h
  split at h
  · obtain ⟨g, hg, rfl⟩ := Except.map_eq_ok_iff.1 h
    exact ⟨g, (Graph.insert_of_add hg).2, rfl⟩
  · split at h
    · obtain ⟨g, hg, rfl⟩ := Except.map_eq_ok_iff.1 h
      exact ⟨g, hg, rfl⟩
    · cases h

theorem wellFormed_addNode (hw : w.focus.WellFormed) {n : Node Graph}
    (hn : n.inner.getD .empty = .empty) (h : w.addNode n = .ok w') : w'.focus.WellFormed := by
  obtain ⟨g, hg, rfl⟩ := addNode_eq_ok h
  refine hw.setActive (hw.active.insert (fun inner hi => ?_) hg)
  rw [hi, Option.getD_some] at hn
  exact hn ▸ Graph.wellFormed_empty

theorem wellFormed_connect (hw : w.focus.WellFormed) {a b : Port} {l : Link}
    (h : w.connect a b = .ok (l, w')) : w'.focus.WellFormed := by
  obtain ⟨⟨k, g⟩, hg, heq⟩ := Except.map_eq_ok_iff.1 h
  obtain ⟨rfl, rfl⟩ := Prod.mk.inj heq
  exact hw.setActive (hw.active.connect hg)

theorem wellFormed_exitGroup (hw : w.focus.WellFormed) : w.exitGroup.focus.WellFormed := by
  unfold Workbench.exitGroup
  split
  · next hclose => exact hw.reconcile.close hclose
  · exact hw

theorem keeps_wellFormed : Target.Keeps fun w : Workbench => w.focus.WellFormed where
  setName _ _ hw := hw
  setSpace _ _ hw := hw
  setDescription _ _ hw := hw
  setFlag _ _ _ hw := hw
  addNode w n hn hw := by
    simp only [Target.addNode, settled]
    split
    · next h => exact wellFormed_addNode hw hn h
    · exact hw
  connect w a b hw := by
    simp only [Target.connect, settled]
    split
    · next h =>
      obtain ⟨⟨l, w'⟩, hcon, rfl⟩ := Except.map_eq_ok_iff.1 h
      exact wellFormed_connect hw hcon
    · exact hw
  enterGroup w id hw := by
    simp only [Target.enterGroup, settled]
    split
    · next h =>
      obtain ⟨f, henter, rfl⟩ := Except.map_eq_ok_iff.1 h
      exact hw.enter henter
    · exact hw
  exitGroup _ hw := wellFormed_exitGroup hw

end Workbench
end Script
end FlowGraph
