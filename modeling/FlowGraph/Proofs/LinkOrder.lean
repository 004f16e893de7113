import Mathlib.Data.List.Forall2
import FlowGraph.Proofs.Outlines
import FlowGraph.Proofs.Regroup

/-! Generated source does not depend on the order of links, but for the order in which a flow output
leads to nodes that are written. Two runs over a graph and over a reordering of it stay in step:
they differ at most in the nodes that stand for the flow outputs of a group, and those are not
written. -/
namespace FlowGraph

/-! ### Reorderings -/

/-- The same node, but for what its nested graph is. -/
structure Node.Alike (n m : Node Graph) : Prop where
  same : { n with inner := m.inner } = m
  nested : n.inner.isSome = m.inner.isSome

namespace Graph

def isExit (g : Graph) (id : NodeId) : Bool :=
  (g.find? id).any fun n => n.type == Node.boundaryType .output

/-- The links of an output, without those that end where the flow leaves a group. -/
def passing (g : Graph) (id : NodeId) (port : Nat) : List Link :=
  (g.outgoing id port).filter fun l => !g.isExit l.target.node

/-- The same graph with its links in another order, at every level. The links of a flow output that
do not end where the flow leaves a group keep their order. -/
inductive Reordered : Graph → Graph → Prop
  | intro {g h : Graph} (nodes : List.Forall₂ Node.Alike g.nodes h.nodes)
      (links : g.links.Perm h.links)
      (flow : ∀ n ∈ g.nodes, ∀ port label, n.outputs[port]? = some label →
        Label.isFlow label = true → g.passing n.id port = h.passing n.id port)
      (inside : ∀ p ∈ g.nodes.zip h.nodes, ∀ a b, p.1.inner = some a → p.2.inner = some b →
        Reordered a b) : Reordered g h

/-- Boundary nodes are no groups and have the ports that they are made with. -/
def PlainBoundary (g : Graph) : Prop :=
  ∀ n ∈ g.nodes, ∀ side, n.type = Node.boundaryType side →
    n.isGroup = false ∧ ∀ d, n.ports d = (Node.boundary side n.id : Node Graph).ports d

end Graph

namespace Node.Alike

variable {n m : Node Graph}

theorem eq_withInner (h : n.Alike m) : m = { n with inner := m.inner } := h.same.symm

theorem id_eq (h : n.Alike m) : n.id = m.id := by rw [h.eq_withInner]

theorem type_eq (h : n.Alike m) : n.type = m.type := by rw [h.eq_withInner]

theorem inputs_eq (h : n.Alike m) : n.inputs = m.inputs := by rw [h.eq_withInner]

theorem outputs_eq (h : n.Alike m) : n.outputs = m.outputs := by rw [h.eq_withInner]

theorem isGroup_eq (h : n.Alike m) : n.isGroup = m.isGroup := by rw [h.eq_withInner]

/-- What is made of the nested graphs is the same if it is the same for both. -/
theorem map_inner_eq {α : Type} (h : n.Alike m) {f : Graph → α}
    (hf : ∀ a b, n.inner = some a → m.inner = some b → f a = f b) :
    n.inner.map f = m.inner.map f := by
  have hsome := h.nested
  cases hi : n.inner <;> cases hj : m.inner
  · rfl
  · simp [hi, hj] at hsome
  · simp [hi, hj] at hsome
  · rw [Option.map_some, Option.map_some, hf _ _ hi hj]

end Node.Alike

theorem map_eq_of_forall₂ {α β γ : Type} {R : α → β → Prop} {as : List α} {bs : List β}
    (h : List.Forall₂ R as bs) {f : α → γ} {f' : β → γ} (hf : ∀ a b, R a b → f a = f' b) :
    as.map f = bs.map f' := by
  rw [← List.forall₂_eq_eq_eq, List.forall₂_map_left_iff, List.forall₂_map_right_iff]
  exact h.imp hf

/-! ### Templates -/

namespace Template

structure Shallow (t : Template) : Prop where
  anchor : ∀ {n m : Node Graph}, n.Alike m → t.anchor n = t.anchor m
  emit : ∀ {n m : Node Graph}, n.Alike m → t.emit n = t.emit m
  access : ∀ {n m : Node Graph}, n.Alike m → t.access n = t.access m
  property : ∀ {n m : Node Graph}, n.Alike m → t.property n = t.property m

theorem shallow_of_inner {t : Template} (h : ∀ (n : Node Graph) inner,
    t.anchor n = t.anchor { n with inner } ∧ t.emit n = t.emit { n with inner } ∧
      t.access n = t.access { n with inner } ∧ t.property n = t.property { n with inner }) :
        t.Shallow := by
  refine ⟨?_, ?_, ?_, ?_⟩ <;> intro n m hnm <;> rw [hnm.eq_withInner]
  · exact (h n m.inner).1
  · exact (h n m.inner).2.1
  · exact (h n m.inner).2.2.1
  · exact (h n m.inner).2.2.2

theorem shallow_standard : ∀ t ∈ standard, t.Shallow := by
  simp only [standard, List.forall_mem_cons, List.not_mem_nil, false_imp_iff,
    implies_true, and_true]
  and_intros <;> exact shallow_of_inner fun n inner => ⟨rfl, rfl, rfl, rfl⟩

end Template

theorem Catalog.shallow_of_find? {type : String} {t : Template}
    (h : Catalog.standard.find? type = some t) : t.Shallow :=
  Template.shallow_standard t (find?_eq_some_iff.1 h).1

namespace Graph

/-! ### One level -/

section Level

variable {g h : Graph}

theorem ids_eq_of_alike (hnodes : List.Forall₂ Node.Alike g.nodes h.nodes) : g.ids = h.ids :=
  map_eq_of_forall₂ hnodes fun _ _ hnm => hnm.id_eq

/-- Nodes that are found under one id stand at one place. -/
theorem find?_alike (hnodes : List.Forall₂ Node.Alike g.nodes h.nodes) (id : NodeId) :
    (g.find? id = none ∧ h.find? id = none) ∨
      ∃ n m, g.find? id = some n ∧ h.find? id = some m ∧ (n, m) ∈ g.nodes.zip h.nodes ∧
        n.Alike m := by
  unfold find?
  induction hg : g.nodes generalizing g h with
  | nil =>
    rw [hg, List.forall₂_nil_left_iff] at hnodes
    exact .inl ⟨rfl, by rw [hnodes]; rfl⟩
  | cons n ns ih =>
    rw [hg] at hnodes
    obtain ⟨m, ms, hnm, hrest, hh⟩ := List.forall₂_cons_left_iff.1 hnodes
    rw [hh, List.find?_cons, List.find?_cons, hnm.id_eq, List.zip_cons_cons]
    cases m.id == id with
    | true => exact .inr ⟨n, m, rfl, rfl, List.mem_cons_self, hnm⟩
    | false =>
      rcases ih (g := ⟨ns, []⟩) (h := ⟨ms, []⟩) hrest rfl with hnone | ⟨n', m', hn, hm, hpair, hnm'⟩
      · exact .inl hnone
      · exact .inr ⟨n', m', hn, hm, List.mem_cons_of_mem _ hpair, hnm'⟩

theorem isExit_eq (hnodes : List.Forall₂ Node.Alike g.nodes h.nodes) (id : NodeId) :
    g.isExit id = h.isExit id := by
  unfold isExit
  rcases find?_alike hnodes id with ⟨hn, hm⟩ | ⟨n, m, hn, hm, -, hnm⟩
  · rw [hn, hm]
  · rw [hn, hm, Option.any_some, Option.any_some, hnm.type_eq]

theorem incoming?_eq_of_perm (hg : g.Sound) (hlinks : g.links.Perm h.links) (id : NodeId)
    (port : Nat) : g.incoming? id port = h.incoming? id port := by
  have hsingle : h.links.Pairwise (·.target ≠ ·.target) := hlinks.pairwise hg.single Ne.symm
  ext l
  rw [incoming?_eq_some_iff hg.single, incoming?_eq_some_iff hsingle, hlinks.mem_iff]

theorem hasIncomingFlow_eq (hg : g.Sound) (hlinks : g.links.Perm h.links) {n m : Node Graph}
    (hnm : n.Alike m) : g.hasIncomingFlow n = h.hasIncomingFlow m := by
  have hport : n.flowPort? .input = m.flowPort? .input := by
    rw [Node.flowPort?, Node.flowPort?, Node.ports, Node.ports, hnm.inputs_eq]
  simp only [hasIncomingFlow, hport, hnm.id_eq, incoming?_eq_of_perm hg hlinks]

end Level

structure SameLevel (g h : Graph) : Prop where
  sound : g.Sound
  nodes : List.Forall₂ Node.Alike g.nodes h.nodes
  links : g.links.Perm h.links
  flow : ∀ n ∈ g.nodes, ∀ port label, n.outputs[port]? = some label → Label.isFlow label = true →
    g.passing n.id port = h.passing n.id port
  boundary : g.PlainBoundary

theorem SameLevel.exists_alike {g h : Graph} (hlevel : g.SameLevel h) {m : Node Graph}
    (hm : m ∈ h.nodes) : ∃ n ∈ g.nodes, n.Alike m := by
  have hsnd : (g.nodes.zip h.nodes).map Prod.snd = h.nodes :=
    List.map_snd_zip (Nat.le_of_eq hlevel.nodes.length_eq.symm)
  rw [← hsnd] at hm
  obtain ⟨p, hp, rfl⟩ := List.mem_map.1 hm
  exact ⟨p.1, (List.of_mem_zip hp).1, List.forall₂_zip hlevel.nodes hp⟩

theorem SameLevel.boundary' {g h : Graph} (hlevel : g.SameLevel h) : h.PlainBoundary := by
  intro m hm side htype
  obtain ⟨n, hn, hnm⟩ := hlevel.exists_alike hm
  obtain ⟨hgroup, hports⟩ := hlevel.boundary n hn side (hnm.type_eq.trans htype)
  refine ⟨hnm.isGroup_eq ▸ hgroup, fun d => ?_⟩
  rw [hnm.eq_withInner]
  exact hports d

end Graph

namespace Scope

/-! ### Expressions -/

section Expressions

variable {g h : Graph} {stem : String}

theorem inputs_alike (hg : g.Sound) (hlinks : g.links.Perm h.links) {n m : Node Graph}
    (hnm : n.Alike m) {value value' : Endpoint → Option String} (hvalue : ∀ e, value e = value' e) :
    inputs ⟨.standard, g, stem⟩ n value = inputs ⟨.standard, h, stem⟩ m value' := by
  simp only [inputs, hnm.inputs_eq, hnm.id_eq, Graph.incoming?_eq_of_perm hg hlinks, hvalue]

/-- Expressions follow links backwards, and an input has one link at most. -/
theorem expression_eq (hg : g.Sound) (hnodes : List.Forall₂ Node.Alike g.nodes h.nodes)
    (hlinks : g.links.Perm h.links) (left : List NodeId) (output : Endpoint) :
    expression ⟨.standard, g, stem⟩ left output = expression ⟨.standard, h, stem⟩ left output := by
  induction hlen : left.length using Nat.strongRecOn generalizing left output with
  | ind k ih =>
    rw [expression, expression]
    rcases Graph.find?_alike hnodes output.node with ⟨hn, hm⟩ | ⟨n, m, hn, hm, -, hnm⟩
    · simp only [hn, hm, Option.bind_eq_bind, Option.bind_none]
    simp only [hn, hm, Option.bind_eq_bind, Option.bind_some, hnm.outputs_eq, hnm.type_eq]
    cases m.outputs[output.port.toNat]? with
    | none => simp only [Option.bind_none]
    | some label =>
      cases htemplate : Catalog.standard.find? m.type with
      | none => simp only [Option.bind_some, Option.bind_none]
      | some template =>
        have hshallow := Catalog.shallow_of_find? htemplate
        have hdata : n.dataOutputs = m.dataOutputs := by
          rw [Node.dataOutputs, Node.dataOutputs, hnm.outputs_eq]
        simp only [Option.bind_some, hshallow.emit hnm, hshallow.access hnm, hnm.id_eq,
          hdata, varName]
        by_cases hleft : output.node ∈ left
        · have hshorter : (left.erase output.node).length < k := by
            rw [List.length_erase_of_mem hleft, hlen]
            have := List.length_pos_of_mem hleft
            omega
          have hinputs : inputs ⟨.standard, g, stem⟩ n (expression ⟨.standard, g, stem⟩ _) =
              inputs ⟨.standard, h, stem⟩ m (expression ⟨.standard, h, stem⟩ _) :=
            inputs_alike hg hlinks hnm fun e => ih _ hshorter _ e rfl
          simp only [dif_pos hleft, hinputs]
        · simp only [dif_neg hleft]

theorem inputExpressions_alike (hg : g.Sound) (hnodes : List.Forall₂ Node.Alike g.nodes h.nodes)
    (hlinks : g.links.Perm h.links) {n m : Node Graph} (hnm : n.Alike m) :
    inputExpressions ⟨.standard, g, stem⟩ n = inputExpressions ⟨.standard, h, stem⟩ m := by
  refine inputs_alike hg hlinks hnm fun e => ?_
  rw [expression_eq hg hnodes hlinks, Graph.ids_eq_of_alike hnodes]

end Expressions

end Scope

namespace Outline

/-! ### Runs in step -/

def visible (os : List Outline) : List String := (texts os).filter (!Text.isBlankText ·)

theorem source_eq (os : List Outline) : source os = Text.joinLines (visible os) := rfl

theorem visible_append (os os' : List Outline) :
    visible (os ++ os') = visible os ++ visible os' := by
  simp [visible, texts_eq_map]

end Outline

/-- Two lists of ids left that differ in exits only. -/
structure Agree (exit : NodeId → Bool) (left left' : List NodeId) : Prop where
  nodup : left.Nodup
  nodup' : left'.Nodup
  mem_iff : ∀ id, exit id = false → (id ∈ left ↔ id ∈ left')

namespace Agree

variable {exit : NodeId → Bool} {left left' left'' : List NodeId}

theorem refl (h : left.Nodup) : Agree exit left left := ⟨h, h, fun _ _ => Iff.rfl⟩

theorem symm (h : Agree exit left left') : Agree exit left' left :=
  ⟨h.nodup', h.nodup, fun id hid => (h.mem_iff id hid).symm⟩

theorem trans (h : Agree exit left left') (h' : Agree exit left' left'') : Agree exit left left'' :=
  ⟨h.nodup, h'.nodup', fun id hid => (h.mem_iff id hid).trans (h'.mem_iff id hid)⟩

theorem erase (h : Agree exit left left') (id : NodeId) :
    Agree exit (left.erase id) (left'.erase id) where
  nodup := h.nodup.erase id
  nodup' := h.nodup'.erase id
  mem_iff x hx := by rw [h.nodup.mem_erase_iff, h.nodup'.mem_erase_iff, h.mem_iff x hx]

theorem erase_exit (h : left.Nodup) {id : NodeId} (hid : exit id = true) :
    Agree exit left (left.erase id) where
  nodup := h
  nodup' := h.erase id
  mem_iff x hx := by
    have hne : x ≠ id := by
      rintro rfl
      simp [hx] at hid
    rw [List.mem_erase_of_ne hne]

end Agree

/-- Two runs that show the same and leave the same, but for exits. -/
structure InStep (exit : NodeId → Bool) (p q : List Outline × List NodeId) : Prop where
  visible : Outline.visible p.1 = Outline.visible q.1
  agree : Agree exit p.2 q.2

namespace InStep

variable {exit : NodeId → Bool} {p p' q q' : List Outline × List NodeId}

theorem source (h : InStep exit p q) : Outline.source p.1 = Outline.source q.1 := by
  rw [Outline.source_eq, Outline.source_eq, h.visible]

theorem symm (h : InStep exit p q) : InStep exit q p := ⟨h.visible.symm, h.agree.symm⟩

theorem trans (h : InStep exit p q) (h' : InStep exit q q') : InStep exit p q' :=
  ⟨h.visible.trans h'.visible, h.agree.trans h'.agree⟩

/-- Runs that go on in step. What is left is what the later parts leave. -/
theorem append (h : InStep exit p q) (h' : InStep exit p' q') :
    InStep exit (p.1 ++ p'.1, p'.2) (q.1 ++ q'.1, q'.2) where
  visible := by rw [Outline.visible_append, Outline.visible_append, h.visible, h'.visible]
  agree := h'.agree

end InStep

namespace Scope

section Chain

variable {exit : NodeId → Bool} {step step' : List NodeId → NodeId → Option Outline × List NodeId}
  {left left' : List NodeId}

/-- A step that shows nothing and leaves what it found, but for exits. -/
def Silent (exit : NodeId → Bool) (left : List NodeId) (p : Option Outline × List NodeId) : Prop :=
  InStep exit ([], left) (p.1.toList, p.2)

/-- Steps at exits only are silent together. -/
theorem chain_silent
    (hskip : ∀ left id, left.Nodup → exit id = true → Silent exit left (step left id))
    (hleft : left.Nodup) {ids : List NodeId} (hids : ∀ id ∈ ids, exit id = true) :
    InStep exit ([], left) (chain step left ids) := by
  induction ids generalizing left with
  | nil => exact ⟨rfl, .refl hleft⟩
  | cons id ids ih =>
    have hfirst := hskip left id hleft (hids id List.mem_cons_self)
    have hrest := ih hfirst.agree.nodup' fun x hx => hids x (List.mem_cons_of_mem _ hx)
    have hlater : InStep exit ([], left) (chain step (step left id).2 ids) :=
      ⟨hrest.visible, hfirst.agree.trans hrest.agree⟩
    rw [chain_cons]
    exact hfirst.append hlater

/-- Runs over the same nodes, but for exits, are in step when their steps are. -/
theorem chain_inStep (hstep : ∀ left left' id, Agree exit left left' →
      InStep exit ((step left id).1.toList, (step left id).2)
        ((step' left' id).1.toList, (step' left' id).2))
    (hskip : ∀ left id, left.Nodup → exit id = true → Silent exit left (step left id))
    (hskip' : ∀ left id, left.Nodup → exit id = true → Silent exit left (step' left id))
    (hleft : Agree exit left left') {ids ids' : List NodeId}
    (hids : ids.filter (!exit ·) = ids'.filter (!exit ·)) :
    InStep exit (chain step left ids) (chain step' left' ids') := by
  induction ids generalizing left left' ids' with
  | nil =>
    have hexits : ∀ id ∈ ids', exit id = true := by
      simpa using List.filter_eq_nil_iff.1 hids.symm
    have hstart : InStep exit ([], left) ([], left') := ⟨rfl, hleft⟩
    exact hstart.trans (chain_silent hskip' hleft.nodup' hexits)
  | cons id ids ih =>
    by_cases hid : exit id = true
    · have hfirst := hskip left id hleft.nodup hid
      rw [List.filter_cons_of_neg (by simp [hid])] at hids
      have hrest := ih (hfirst.agree.symm.trans hleft) hids
      rw [chain_cons]
      exact hfirst.symm.append hrest
    · -- the other run comes to the same node after exits only
      rw [List.filter_cons_of_pos (by simp [hid])] at hids
      obtain ⟨front, back, rfl, hfront, -, hback⟩ := List.filter_eq_cons_iff.1 hids.symm
      have hexits : ∀ id ∈ front, exit id = true := by simpa using hfront
      have hsilent := chain_silent hskip' hleft.nodup' hexits
      have hfirst := hstep _ _ id (hleft.trans hsilent.agree)
      have hrest := ih hfirst.agree hback.symm
      rw [chain_cons, chain_append, chain_cons]
      exact hsilent.append (hfirst.append hrest)

end Chain

section Visit

variable {g h : Graph} {stem : String} {body body' : Node Graph → List Outline}

/-- Where the flow leaves a group nothing is written, and nothing follows. -/
theorem visit_silent (hboundary : g.PlainBoundary) (bound : Nat) {left : List NodeId} {id : NodeId}
    (hleft : left.Nodup) (hid : g.isExit id = true) :
    Silent g.isExit left (visit ⟨.standard, g, stem⟩ body bound left id) := by
  by_cases hmem : id ∈ left
  swap
  · rw [visit_of_not_mem hmem]
    exact ⟨rfl, .refl hleft⟩
  cases bound with
  | zero => exact ⟨rfl, .refl hleft⟩
  | succ bound =>
    obtain ⟨n, hfind, htype⟩ : ∃ n, g.find? id = some n ∧ n.type = Node.boundaryType .output := by
      simpa [Graph.isExit, Option.any_eq_true] using hid
    obtain ⟨hgroup, hports⟩ := hboundary n (Graph.find?_mem hfind).1 .output htype
    have houtputs : n.outputs = [] := hports .output
    have htemplate : Catalog.standard.find? n.type =
        some (Template.structural (Node.boundaryType .output) ["flow"] []) := by rw [htype]; rfl
    have hfollowing : following ⟨.standard, g, stem⟩ n = [] := by
      simp [following, Node.flowPort?, Node.ports, houtputs]
    rw [visit_of_mem hmem hfind htemplate, hfollowing]
    refine ⟨?_, .erase_exit hleft hid⟩
    rw [Option.toList_some, Outline.visible, Outline.visible, Outline.texts, Outline.texts,
      Outline.texts, text_stepAt, hgroup, hfollowing]
    rfl

/-- A flow output leads to the same nodes in the same order, but for exits. -/
theorem targets_eq {id : NodeId} {port : Nat} (hpassing : g.passing id port = h.passing id port)
    (hexit : ∀ id, g.isExit id = h.isExit id) :
    (targets ⟨.standard, g, stem⟩ id port).filter (!g.isExit ·) =
      (targets ⟨.standard, h, stem⟩ id port).filter (!g.isExit ·) := by
  have hfilter : ∀ k : Graph, (∀ id, g.isExit id = k.isExit id) →
      (targets ⟨.standard, k, stem⟩ id port).filter (!g.isExit ·) =
        (k.passing id port).map (·.target.node) := by
    intro k hk
    simp only [targets, Graph.passing, List.filter_map, Function.comp_def, hk]
  rw [hfilter g fun _ => rfl, hfilter h hexit, hpassing]

theorem following_eq {n m : Node Graph} (hnm : n.Alike m) (hexit : ∀ id, g.isExit id = h.isExit id)
    (hflow : ∀ port label, n.outputs[port]? = some label → Label.isFlow label = true →
      g.passing n.id port = h.passing n.id port) :
    (following ⟨.standard, g, stem⟩ n).filter (!g.isExit ·) =
      (following ⟨.standard, h, stem⟩ m).filter (!g.isExit ·) := by
  have hport : n.flowPort? .output = m.flowPort? .output := by
    rw [Node.flowPort?, Node.flowPort?, Node.ports, Node.ports, hnm.outputs_eq]
  unfold following
  rw [← hport, ← hnm.id_eq]
  cases hfound : n.flowPort? .output with
  | none => rfl
  | some port =>
    exact targets_eq (hflow port _ (Node.getElem?_of_flowPort? hfound) (by decide)) hexit

theorem branching_eq {n m : Node Graph} (hnm : n.Alike m) (hexit : ∀ id, g.isExit id = h.isExit id)
    (hflow : ∀ port label, n.outputs[port]? = some label → Label.isFlow label = true →
      g.passing n.id port = h.passing n.id port) :
    List.Forall₂ (fun ids ids' => ids.filter (!g.isExit ·) = ids'.filter (!g.isExit ·))
      (branching ⟨.standard, g, stem⟩ n) (branching ⟨.standard, h, stem⟩ m) := by
  rw [branching, branching, ← hnm.outputs_eq, ← hnm.id_eq, List.forall₂_map_left_iff,
    List.forall₂_map_right_iff, List.forall₂_same]
  intro e he
  by_cases hnamed : Label.isNamedFlow e.1 = true
  · rw [if_pos hnamed, if_pos hnamed]
    refine targets_eq (hflow e.2 e.1 (List.mk_mem_zipIdx_iff_getElem?.1 he) ?_) hexit
    simp [Label.isFlow, hnamed]
  · rw [if_neg hnamed, if_neg hnamed]

/-- A node is written in the same way if what follows it is. -/
theorem text_stepAt_alike (hg : g.Sound) (hnodes : List.Forall₂ Node.Alike g.nodes h.nodes)
    (hlinks : g.links.Perm h.links) {n m : Node Graph} (hnm : n.Alike m) {template : Template}
    (htemplate : template.Shallow) (hbody : Outline.source (body n) = Outline.source (body' m))
    {walk walk' : List NodeId → List Outline}
    (hnext : Outline.source (walk (following ⟨.standard, g, stem⟩ n)) =
      Outline.source (walk' (following ⟨.standard, h, stem⟩ m)))
    (hbranches : List.Forall₂
      (fun ids ids' => Outline.source (walk ids) = Outline.source (walk' ids'))
        (branching ⟨.standard, g, stem⟩ n) (branching ⟨.standard, h, stem⟩ m)) :
    (stepAt ⟨.standard, g, stem⟩ body walk template n).text =
      (stepAt ⟨.standard, h, stem⟩ body' walk' template m).text := by
  have hmap : (branching ⟨.standard, g, stem⟩ n).map (fun ids => Outline.source (walk ids)) =
      (branching ⟨.standard, h, stem⟩ m).map fun ids => Outline.source (walk' ids) :=
    map_eq_of_forall₂ hbranches fun _ _ hsource => hsource
  have hcalled : Outline.source (if g.hasIncomingFlow n then body n else []) =
      Outline.source (if h.hasIncomingFlow m then body' m else []) := by
    rw [Graph.hasIncomingFlow_eq hg hlinks hnm]
    cases h.hasIncomingFlow m with
    | true => exact hbody
    | false => rfl
  simp only [text_stepAt, hnm.isGroup_eq, hcalled, hnext, hmap, htemplate.emit hnm,
    hnm.id_eq, varName, inputExpressions_alike hg hnodes hlinks hnm]

/-- One step of the two runs: the same node is written in the same way. -/
theorem visit_inStep (hlevel : g.SameLevel h)
    (hbody : ∀ n m, (n, m) ∈ g.nodes.zip h.nodes → n.Alike m →
      Outline.source (body n) = Outline.source (body' m))
    (bound : Nat) (left left' : List NodeId) (id : NodeId) (hleft : Agree g.isExit left left') :
    let p := visit ⟨.standard, g, stem⟩ body bound left id
    let q := visit ⟨.standard, h, stem⟩ body' bound left' id
    InStep g.isExit (p.1.toList, p.2) (q.1.toList, q.2) := by
  have hexits : g.isExit = h.isExit := funext (Graph.isExit_eq hlevel.nodes)
  have hskip : ∀ bound left id, left.Nodup → g.isExit id = true →
      Silent g.isExit left (visit ⟨.standard, g, stem⟩ body bound left id) :=
    fun bound _ _ hnodup hid => visit_silent hlevel.boundary bound hnodup hid
  have hskip' : ∀ bound left id, left.Nodup → g.isExit id = true →
      Silent g.isExit left (visit ⟨.standard, h, stem⟩ body' bound left id) := by
    rw [hexits]
    exact fun bound _ _ hnodup hid => visit_silent hlevel.boundary' bound hnodup hid
  induction bound generalizing left left' id with
  | zero => exact ⟨rfl, hleft⟩
  | succ bound ih =>
    by_cases hid : g.isExit id = true
    · have hsilent := hskip (bound + 1) left id hleft.nodup hid
      have hsilent' := hskip' (bound + 1) left' id hleft.nodup' hid
      have hstart : InStep g.isExit ([], left) ([], left') := ⟨rfl, hleft⟩
      exact hsilent.symm.trans (hstart.trans hsilent')
    have hiff := hleft.mem_iff id (by simpa using hid)
    by_cases hmem : id ∈ left
    swap
    · rw [visit_of_not_mem hmem, visit_of_not_mem fun hmem' => hmem (hiff.2 hmem')]
      exact ⟨rfl, hleft⟩
    have hmem' := hiff.1 hmem
    rcases Graph.find?_alike hlevel.nodes id with ⟨hn, hm⟩ | ⟨n, m, hn, hm, hpair, hnm⟩
    · rw [visit_of_unknown hmem (by rw [hn]; rfl),
        visit_of_unknown hmem' (by rw [hm]; rfl)]
      exact ⟨rfl, hleft.erase id⟩
    cases htemplate : Catalog.standard.find? n.type with
    | none =>
      rw [visit_of_unknown hmem (by rw [hn]; exact htemplate),
        visit_of_unknown hmem' (by rw [hm, Option.bind_some, ← hnm.type_eq]; exact htemplate)]
      exact ⟨rfl, hleft.erase id⟩
    | some template =>
      have hwalk : ∀ ids ids' : List NodeId, ids.filter (!g.isExit ·) = ids'.filter (!g.isExit ·) →
          InStep g.isExit (chain (visit ⟨.standard, g, stem⟩ body bound) (left.erase id) ids)
            (chain (visit ⟨.standard, h, stem⟩ body' bound) (left'.erase id) ids') :=
        fun ids ids' => chain_inStep ih (hskip bound) (hskip' bound) (hleft.erase id)
      have hflow := hlevel.flow n (Graph.find?_mem hn).1
      have hfollowing := hwalk (following ⟨.standard, g, stem⟩ n) (following ⟨.standard, h, stem⟩ m)
        (following_eq hnm (Graph.isExit_eq hlevel.nodes) hflow)
      rw [visit_of_mem hmem hn htemplate, visit_of_mem hmem' hm (hnm.type_eq ▸ htemplate)]
      refine ⟨?_, hfollowing.agree⟩
      have htext : (stepAt ⟨.standard, g, stem⟩ body
            (fun ids => (chain (visit ⟨.standard, g, stem⟩ body bound)
            (left.erase id) ids).1) template n).text =
          (stepAt ⟨.standard, h, stem⟩ body'
            (fun ids => (chain (visit ⟨.standard, h, stem⟩ body' bound)
            (left'.erase id) ids).1) template m).text :=
        text_stepAt_alike hlevel.sound hlevel.nodes hlevel.links hnm
          (Catalog.shallow_of_find? htemplate)
          (hbody n m hpair hnm) hfollowing.source
          ((branching_eq hnm (Graph.isExit_eq hlevel.nodes) hflow).imp fun ids ids' hids =>
            (hwalk ids ids' hids).source)
      simp only [Option.toList_some, Outline.visible, Outline.texts, htext]

end Visit

end Scope

/-! ### Nested graphs -/

namespace Graph

variable {g h : Graph}

theorem pairs_of_alike (hnodes : List.Forall₂ Node.Alike g.nodes h.nodes) :
    List.Forall₂ (fun n m => (n, m) ∈ g.nodes.zip h.nodes ∧ n.Alike m) g.nodes h.nodes :=
  List.forall₂_iff_zip.2 ⟨hnodes.length_eq, fun hp => ⟨hp, List.forall₂_zip hnodes hp⟩⟩

theorem Reordered.sameLevel (hr : g.Reordered h) (hg : g.WellFormed)
    (hb : g.Everywhere PlainBoundary) : g.SameLevel h := by
  cases hr with
  | intro nodes links flow _ => exact ⟨hg.sound, nodes, links, flow, hb.here⟩

end Graph

namespace Scope

variable {g h : Graph}

theorem source_outline_eq (hlevel : g.SameLevel h) {stem : String}
    {body body' : Node Graph → List Outline}
    (hbody : ∀ n m, (n, m) ∈ g.nodes.zip h.nodes → n.Alike m →
      Outline.source (body n) = Outline.source (body' m)) (entries : List NodeId) :
    Outline.source (outline ⟨.standard, g, stem⟩ body entries) =
      Outline.source (outline ⟨.standard, h, stem⟩ body' entries) := by
  have hexits : g.isExit = h.isExit := funext (Graph.isExit_eq hlevel.nodes)
  rw [outline, outline, ← Graph.ids_eq_of_alike hlevel.nodes]
  refine (chain_inStep (visit_inStep hlevel hbody _)
    (fun _ _ hnodup hid => visit_silent hlevel.boundary _ hnodup hid)
    (fun _ _ hnodup hid => ?_) (.refl (Graph.nodup_ids hlevel.sound)) rfl).source
  rw [hexits] at hid ⊢
  exact visit_silent hlevel.boundary' _ hnodup hid

theorem entries_eq (hlevel : g.SameLevel h) : entries g = entries h := by
  have hroster : g.roster = h.roster :=
    map_eq_of_forall₂ hlevel.nodes fun n m hnm => by rw [hnm.id_eq, hnm.type_eq]
  have hboundary : g.boundary.input = h.boundary.input :=
    congrArg List.head? (Graph.boundaryIds_congr hroster .input)
  have hopen : (g.nodes.map
      fun n => ((!n.isBoundary && n.exposes .input && !g.hasIncomingFlow n), n.id)) =
      h.nodes.map fun n => ((!n.isBoundary && n.exposes .input && !h.hasIncomingFlow n), n.id) := by
    refine map_eq_of_forall₂ hlevel.nodes fun n m hnm => ?_
    rw [Graph.hasIncomingFlow_eq hlevel.sound hlevel.links hnm, hnm.id_eq, Node.isBoundary,
      Node.isBoundary, Node.exposes, Node.exposes, Node.flowPort?, Node.flowPort?, Node.ports,
      Node.ports, hnm.type_eq, hnm.inputs_eq]
  have hpick : ∀ (nodes : List (Node Graph)) (p : Node Graph → Bool),
      (nodes.filter p).map (·.id) =
        ((nodes.map fun n => (p n, n.id)).filter Prod.fst).map Prod.snd := by
    intro nodes p
    rw [List.filter_map, List.map_map]
    rfl
  rw [entries, entries, hboundary]
  split
  · rfl
  · rw [hpick, hpick, hopen]

theorem source_groupOutline_eq {stem : String} {n m : Node Graph} (hnm : n.Alike m)
    (hinner : ∀ a b, n.inner = some a → m.inner = some b → ∀ stem,
      Outline.source (nestedOutline .standard a stem) =
        Outline.source (nestedOutline .standard b stem)) :
    Outline.source (groupOutline ⟨.standard, g, stem⟩ n) =
      Outline.source (groupOutline ⟨.standard, h, stem⟩ m) := by
  have hmap := hnm.map_inner_eq
    (f := fun k => Outline.source (nestedOutline .standard k (innerStem stem n.id)))
    fun a b hi hj => hinner a b hi hj _
  have hsource : ∀ (k : Graph) (n : Node Graph),
      Outline.source (groupOutline ⟨.standard, k, stem⟩ n) =
      (n.inner.map fun k =>
        Outline.source (nestedOutline .standard k (innerStem stem n.id))).getD "" := by
    intro k n
    rw [groupOutline]
    cases n.inner <;> rfl
  rw [hsource, hsource, hmap, hnm.id_eq]

/-- The steps of a nested graph are written in the same way. -/
theorem source_nestedOutline_eq (hr : g.Reordered h) (hg : g.WellFormed)
    (hb : g.Everywhere Graph.PlainBoundary) (stem : String) :
    Outline.source (nestedOutline .standard g stem) = Outline.source
      (nestedOutline .standard h stem) := by
  induction hr generalizing stem with
  | @intro g h nodes links flow inside ih =>
    have hlevel := (Graph.Reordered.intro nodes links flow inside).sameLevel hg hb
    rw [nestedOutline_eq, nestedOutline_eq, entries_eq hlevel]
    refine source_outline_eq hlevel (fun n m hpair hnm => source_groupOutline_eq hnm ?_) _
    intro a b hi hj
    have hn := (List.of_mem_zip hpair).1
    exact ih (n, m) hpair a b hi hj (hg.nested hn hi) (hb.inside hn hi)

end Scope

end FlowGraph
