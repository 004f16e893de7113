import FlowGraph.Proofs.CheckedGeneration
import FlowGraph.Proofs.GroupMoves
import FlowGraph.Proofs.ScriptReload

/-! Loading scripts into documents. What a script builds depends on the script alone, but for
whether the group that is open has plain flow ports; the graphs around it, the viewports and what
the script does not set stay as they were. -/
namespace FlowGraph

namespace Script

/-! ### Workbenches that a script cannot tell apart -/

namespace Workbench

/-- The same graph inside the same groups. The groups of the documents around them have the same
plain flow ports, and nothing is asked of the metadata. -/
structure Alike (w v : Workbench) : Prop where
  focus : w.focus = v.focus
  exposes : ∀ side, w.enclosing.any (·.exposes side) = v.enclosing.any (·.exposes side)

variable {w v : Workbench}

theorem Alike.group? (h : w.Alike v) (side : Direction) :
    w.group?.any (·.exposes side) = v.group?.any (·.exposes side) := by
  rw [Workbench.group?, Workbench.group?, h.focus]
  cases v.focus.currentGroup? with
  | none => exact h.exposes side
  | some group => rfl

theorem Alike.setFocus (h : w.Alike v) (focus : Focus) : Alike { w with focus } { v with focus } :=
  ⟨rfl, h.exposes⟩

theorem Alike.setGraph (h : w.Alike v) (g : Graph) : (w.setGraph g).Alike (v.setGraph g) := by
  rw [Workbench.setGraph, Workbench.setGraph, h.focus]
  exact h.setFocus _

theorem Alike.settled (h : w.Alike v) {ε α : Type} (x : Except ε α) {f g : α → Workbench}
    (hfg : ∀ a, (f a).Alike (g a)) : Matches Alike (w.settled (x.map f)) (v.settled (x.map g)) := by
  cases x with
  | error e => exact ⟨h, rfl⟩
  | ok a => exact ⟨hfg a, rfl⟩

theorem Alike.addNode (h : w.Alike v) (n : Node Graph) :
    Matches Alike (w.settled (w.addNode n)) (v.settled (v.addNode n)) := by
  unfold Workbench.addNode
  cases Node.boundarySide? n.type with
  | none =>
    rw [h.focus]
    exact h.settled _ h.setGraph
  | some side =>
    simp only [h.focus, h.group? side]
    split
    · exact h.settled _ h.setGraph
    · exact ⟨h, rfl⟩

theorem inStep_alike : Target.InStep Alike where
  setName _ _ _ h := ⟨h.focus, h.exposes⟩
  setSpace _ _ _ h := ⟨h.focus, h.exposes⟩
  setDescription _ _ _ h := ⟨h.focus, h.exposes⟩
  setFlag _ _ _ _ h := ⟨h.focus, h.exposes⟩
  addNode _ _ n h := h.addNode n
  connect w v a b h := by
    simp only [Target.connect, Workbench.connect, h.focus]
    cases v.focus.active.connect a b with
    | error e => exact ⟨h, rfl⟩
    | ok result => exact ⟨h.setGraph _, rfl⟩
  enterGroup w v id h := by
    simp only [Target.enterGroup, Workbench.enterGroup, h.focus]
    exact h.settled _ h.setFocus
  exitGroup w v h := by
    simp only [Target.exitGroup, Workbench.exitGroup, h.focus]
    split
    · exact h.setFocus _
    · exact h

end Workbench

/-! ### Statements at any depth -/

/-- A statement of a script, inside the groups of a path, the outermost first. -/
inductive Occurs : List Statement → List NodeId → Statement → Prop
  | here {script : List Statement} {s : Statement} (hs : s ∈ script) : Occurs script [] s
  | inside {script : List Statement} {line : Nat} {decl : GroupDecl} {body : List Statement}
      (hgroup : .group line decl body ∈ script) {path : List NodeId} {s : Statement}
      (hs : Occurs body path s) :
      Occurs script (decl.id :: path) s

theorem Occurs.exists_mem {script : List Statement} {path : List NodeId} {s : Statement}
    (h : Occurs script path s) : ∃ t ∈ script, Occurs [t] path s := by
  cases h with
  | here hs => exact ⟨s, hs, .here List.mem_cons_self⟩
  | inside hgroup hs => exact ⟨_, hgroup, .inside List.mem_cons_self hs⟩

theorem not_occurs_of_plain {s : Statement} (hs : ∀ line decl body, s ≠ .group line decl body)
    {path : List NodeId} {line : Nat} {decl : GroupDecl} {body : List Statement} :
    ¬Occurs [s] path (.group line decl body) := by
  intro h
  cases h with
  | here h => exact hs _ _ _ (List.mem_singleton.1 h).symm
  | inside h _ => exact hs _ _ _ (List.mem_singleton.1 h).symm

theorem Occurs.mono {script script' : List Statement} (hsub : ∀ s ∈ script, s ∈ script')
    {path : List NodeId} {s : Statement} (h : Occurs script path s) : Occurs script' path s := by
  cases h with
  | here hs => exact .here (hsub _ hs)
  | inside hgroup hs => exact .inside (hsub _ hgroup) hs

/-! ### Metadata -/

def Statement.set (s : Statement) (m : Metadata) : Metadata :=
  match s with
  | .title _ text => { m with name := text }
  | .space _ text => { m with space := text }
  | .description _ text => { m with description := text }
  | .flag _ key value => { m with flags := m.flags.insert key value }
  | _ => m

namespace Workbench

variable (w : Workbench)

theorem metadata_settled {ε α : Type} (x : Except ε α) {f : α → Workbench}
    (hf : ∀ a, (f a).metadata = w.metadata) : (w.settled (x.map f)).1.metadata = w.metadata := by
  cases x with
  | error e => rfl
  | ok a => exact hf a

theorem metadata_addNode (n : Node Graph) : (w.settled (w.addNode n)).1.metadata = w.metadata := by
  unfold addNode
  split
  · exact w.metadata_settled _ fun _ => rfl
  · split
    · exact w.metadata_settled _ fun _ => rfl
    · rfl

theorem metadata_connect (a b : Port) :
    (w.settled ((w.connect a b).map Prod.snd)).1.metadata = w.metadata := by
  rw [connect]
  cases w.focus.active.connect a b <;> rfl

theorem metadata_enterGroup (id : NodeId) : (w.settled (w.enterGroup id)).1.metadata = w.metadata :=
  w.metadata_settled _ fun _ => rfl

theorem metadata_exitGroup : w.exitGroup.metadata = w.metadata := by
  unfold exitGroup
  split <;> rfl

end Workbench

/-- Metadata that no statement sets stays as it is. -/
theorem metadata_runStatements {α : Type} {f : Metadata → α} {catalog : Catalog}
    {script : List Statement} (hsteps : ∀ s ∈ script, ∀ stats (w : Workbench),
      f (runStatement catalog stats w s).1.metadata = f w.metadata)
    (stats : Stats) (w : Workbench) :
    f (runStatements catalog stats w script).1.metadata = f w.metadata := by
  induction script generalizing stats w with
  | nil => rfl
  | cons s script ih =>
    have hstep := hsteps s List.mem_cons_self stats w
    rw [runStatements]
    split
    · next heq =>
      rw [heq] at hstep
      exact (ih (fun t ht => hsteps t (.tail _ ht)) _ _).trans hstep
    · next heq =>
      rw [heq] at hstep
      exact hstep

theorem metadata_runStatement {α : Type} {f : Metadata → α} {catalog : Catalog} {s : Statement}
    (hset : ∀ path t, Occurs [s] path t → ∀ m, f (t.set m) = f m) (stats : Stats) (w : Workbench) :
    f (runStatement catalog stats w s).1.metadata = f w.metadata := by
  induction s using Statement.nestedInduction generalizing stats w with
  | step s ih =>
    have hown := hset [] s (.here List.mem_cons_self) w.metadata
    cases s with
    | title | space | description | flag =>
      rw [runStatement]
      exact hown
    | node line decl =>
      rw [runStatement]
      split
      · rfl
      · next n _ =>
        have hadd := w.metadata_addNode n
        simp only [Target.addNode]
        split <;> next heq =>
          rw [heq] at hadd
          exact congrArg f hadd
    | connect line link =>
      rw [runStatement]
      have hconnect := w.metadata_connect ⟨link.source.node, .output, link.source.port⟩
        ⟨link.target.node, .input, link.target.port⟩
      simp only [Target.connect]
      split <;> next heq =>
        rw [heq] at hconnect
        exact congrArg f hconnect
    | group line decl body =>
      rw [runStatement]
      have hadd := w.metadata_addNode (decl.node stats.nodes)
      simp only [Target.addNode, Target.enterGroup, Target.exitGroup]
      split
      · next heq =>
        rw [heq] at hadd
        exact congrArg f hadd
      · next added _ heq =>
        rw [heq] at hadd
        have henter := added.metadata_enterGroup decl.id
        split
        · next heq' =>
          rw [heq'] at henter
          exact congrArg f (henter.trans hadd)
        · next inside _ heq' =>
          rw [heq'] at henter
          have hbody : f (runStatements catalog stats.addGroup inside body).1.metadata =
              f inside.metadata :=
            metadata_runStatements (fun t ht => ih t ht fun path u hu =>
              hset _ u (.inside List.mem_cons_self
                (hu.mono fun v hv => List.mem_singleton.1 hv ▸ ht))) _ _
          rw [Workbench.metadata_exitGroup]
          exact hbody.trans (congrArg f (henter.trans hadd))

/-- Metadata that no statement of a script sets, at any depth, is as it was before the run. -/
theorem metadata_run_eq {α : Type} {f : Metadata → α} {catalog : Catalog} {script : List Statement}
    (hset : ∀ path s, Occurs script path s → ∀ m, f (s.set m) = f m) {stats stats' : Stats}
    {w w' : Workbench} (hrun : runStatements catalog stats w script = (w', .ok stats')) :
    f w'.metadata = f w.metadata := by
  have hkept : f (runStatements catalog stats w script).1.metadata = f w.metadata :=
    metadata_runStatements (fun s hs => metadata_runStatement fun path t ht =>
      hset path t (ht.mono fun u hu => List.mem_singleton.1 hu ▸ hs)) stats w
  rwa [hrun] at hkept

end Script

/-! ### Groups -/

namespace Graph

theorem At.mono {g h : Graph} (hsub : ∀ n ∈ g.nodes, n ∈ h.nodes) {path : List NodeId}
    {n : Node Graph} (hn : g.At path n) : h.At path n := by
  cases hn with
  | here hn => exact .here (hsub _ hn)
  | inside hn hi hm => exact .inside (hsub _ hn) hi hm

/-- The boundary nodes that a group asks for: one for each side with a plain flow port, and no
others. Where one is missing, there is no id for it, as the last one is in use. -/
def Fitted (g : Graph) (group : Node Graph) : Prop :=
  ∀ side, g.nodes.countP (·.type == Node.boundaryType side) =
    (if Label.flow ∈ group.ports side then 1 else 0) ∨
    Label.flow ∈ group.ports side ∧ g.boundaryIds side = [] ∧ UInt32.ofNat (UInt32.size - 1) ∈ g.ids

/-- Without a fresh id, the last one is in use. -/
theorem last_mem_ids_of_not_hasFreshId {g : Graph} (h : ¬g.HasFreshId) :
    UInt32.ofNat (UInt32.size - 1) ∈ g.ids := by
  by_contra hlast
  refine h (hasFreshId_of_lt (k := UInt32.size - 1) (by decide) (by decide) fun n hn => ?_)
  have hne : n.id.toNat ≠ UInt32.size - 1 := fun heq => by
    refine hlast (List.mem_map.2 ⟨n, hn, ?_⟩)
    rw [← heq, UInt32.ofNat_toNat]
  have hlt := n.id.toNat_lt_size
  omega

theorem fitted_reconcile {g : Graph} (hg : g.WellFormed) {group : Node Graph}
    (hallowed : g.Allowed group) : (g.reconcile group).2.Fitted group := by
  have hallowed' := hallowed.reconcile hg
  have htended := tended_reconcile hg hallowed
  intro side
  have hside := hallowed' side
  have htended := htended side
  rw [countP_boundary]
  rw [Node.exposes_eq] at hside htended
  by_cases hflow : Label.flow ∈ group.ports side
  · simp only [hflow, decide_true, if_true] at hside htended ⊢
    rcases htended trivial with hids | hfresh
    · have hpos := List.length_pos_iff.2 hids
      exact .inl (by omega)
    · rcases Nat.eq_zero_or_pos ((g.reconcile group).2.boundaryIds side).length with hzero | hpos
      · exact .inr ⟨trivial, List.length_eq_zero_iff.1 hzero, last_mem_ids_of_not_hasFreshId hfresh⟩
      · exact .inl (by omega)
  · simp only [hflow, decide_false] at hside ⊢
    exact .inl (Nat.le_zero.1 hside)

/-- Where no boundary node is too many, reconciling takes no node away. -/
theorem mem_reconcile_of_allowed {g : Graph} (hg : g.WellFormed) {group : Node Graph}
    (hallowed : g.Allowed group) {n : Node Graph} (hn : n ∈ g.nodes) :
    n ∈ (g.reconcile group).2.nodes := by
  have hside : ∀ {h : Graph} {side : Direction} {wanted : Bool},
      (h.boundaryIds side).length ≤ (if wanted then 1 else 0) → n ∈ h.nodes →
        n ∈ (h.reconcileSide side wanted).2.nodes := by
    intro h side wanted hle hn
    rcases reconcileSide_cases hle with ⟨heq, -⟩ | ⟨hins, -⟩
    · rwa [heq]
    · rw [(insert_eq_ok_iff.1 hins).2]
      exact mem_place.2 (.inr hn)
  exact hside (allowed_reconcileSide hg hallowed) (hside (hallowed .input) hn)

/-- A group at the end of a path, as it is declared, with the boundary nodes that it asks for. -/
def HoldsGroup (g : Graph) (path : List NodeId) (decl : Script.GroupDecl) : Prop :=
  ∃ n inner, g.At path n ∧ n.isGroup = true ∧ n.inputs = decl.inputs ∧ n.outputs = decl.outputs ∧
    n.inner = some inner ∧ inner.Fitted n

theorem HoldsGroup.mono {g h : Graph} (hsub : ∀ n ∈ g.nodes, n ∈ h.nodes) {path : List NodeId}
    {decl : Script.GroupDecl} (hg : g.HoldsGroup path decl) : h.HoldsGroup path decl := by
  obtain ⟨n, inner, hn, hrest⟩ := hg
  exact ⟨n, inner, hn.mono hsub, hrest⟩

theorem HoldsGroup.nested {g inner : Graph} {n : Node Graph} (hn : n ∈ g.nodes)
    (hi : n.inner = some inner) {path : List NodeId} {decl : Script.GroupDecl}
    (h : inner.HoldsGroup path decl) : g.HoldsGroup (n.id :: path) decl := by
  obtain ⟨m, inside, hm, hrest⟩ := h
  exact ⟨m, inside, .inside hn hi hm, hrest⟩

end Graph

namespace Script

/-- A workbench that has come from another at the same place, with all nodes that were there. -/
structure Workbench.Grows (w w' : Workbench) : Prop where
  place : w.SamePlace w'
  nodes : ∀ n ∈ w.focus.active.nodes, n ∈ w'.focus.active.nodes
  wellFormed : w'.focus.active.WellFormed
  allowed : w'.focus.active.AllowedIn w'.group?

namespace Workbench

variable {w w' : Workbench}

theorem Grows.refl (hw : w.focus.active.WellFormed) (hallowed : w.focus.active.AllowedIn w.group?) :
    w.Grows w :=
  ⟨⟨rfl, rfl⟩, fun _ hn => hn, hw, hallowed⟩

theorem Grows.trans {w'' : Workbench} (h : w.Grows w') (h' : w'.Grows w'') : w.Grows w'' :=
  ⟨h.place.trans h'.place, fun n hn => h'.nodes n (h.nodes n hn), h'.wellFormed, h'.allowed⟩

theorem Grows.addNode (hw : w.focus.active.WellFormed)
    (hallowed : w.focus.active.AllowedIn w.group?) {n : Node Graph}
    (hn : n.inner.getD .empty = .empty) (h : w.addNode n = .ok w') : w.Grows w' := by
  have hallowed' := allowed_addNode hallowed h
  obtain ⟨g, hg, rfl⟩ := addNode_eq_ok h
  refine ⟨⟨rfl, rfl⟩, fun m hm => ?_, hw.insert (fun inner hi => ?_) hg, hallowed'⟩
  · have hmem : m ∈ g.nodes := by
      rw [(Graph.insert_eq_ok_iff.1 hg).2]
      exact Graph.mem_place.2 (.inr hm)
    exact hmem
  · rw [hi, Option.getD_some] at hn
    exact hn ▸ Graph.wellFormed_empty

theorem Grows.connect (hw : w.focus.active.WellFormed)
    (hallowed : w.focus.active.AllowedIn w.group?) {a b : Port} {l : Link}
    (h : w.connect a b = .ok (l, w')) : w.Grows w' := by
  obtain ⟨⟨k, g⟩, hg, heq⟩ := Except.map_eq_ok_iff.1 h
  obtain ⟨rfl, rfl⟩ := Prod.mk.inj heq
  have hwf := hw.connect hg
  obtain ⟨-, rfl⟩ := Graph.connect_eq_ok hg
  exact ⟨⟨rfl, rfl⟩, fun _ hm => hm, hwf, hallowed.congr fun _ => rfl⟩

/-- What a group that was just declared holds when it is left. -/
theorem Grows.exitGroup {added inside : Workbench} (hadded : w.Grows added) {n : Node Graph}
    (hfresh : ∀ m ∈ w.focus.active.nodes, m.id ≠ n.id)
    (hfind : added.focus.active.find? n.id = some n)
    (hinside : (added.entered n.id .empty).Grows inside) :
    w.Grows inside.exitGroup ∧ ∃ inner,
      { n with inner := some inner } ∈ inside.exitGroup.focus.active.nodes ∧
      (∀ m ∈ inside.focus.active.nodes, m ∈ inner.nodes) ∧ inner.Fitted n := by
  have hallowed := hinside.allowed
  rw [group?_of_entered hfind hinside.place] at hallowed
  have hallowed : inside.focus.active.Allowed n := hallowed
  have hinner := hinside.wellFormed.reconcile n
  have hexit := exitGroup_of_entered hfind hinside.place hinner.sound
  have hplace : w.SamePlace inside.exitGroup := by
    rw [hexit]
    exact hadded.place.trans ⟨rfl, hinside.place.enclosing⟩
  refine ⟨⟨hplace, fun m hm => ?_, ?_, ?_⟩, (inside.focus.active.reconcile n).2, ?_,
    fun m hm => Graph.mem_reconcile_of_allowed hinside.wellFormed hallowed hm,
    Graph.fitted_reconcile hinside.wellFormed hallowed⟩
  · rw [hexit]
    exact Graph.mem_modify.2 ⟨m, hadded.nodes m hm, by rw [if_neg (hfresh m hm)]⟩
  · rw [hexit]
    exact hadded.wellFormed.setInner fun h hi => Option.some.inj hi ▸ hinner
  · rw [hplace.group?_eq, ← hadded.place.group?_eq, hexit]
    exact hadded.allowed.congr
      (Graph.boundaryIds_congr (Graph.roster_modify fun _ _ _ => ⟨rfl, rfl⟩))
  · rw [hexit]
    exact Graph.mem_modify.2 ⟨n, (Graph.find?_mem hfind).1, by rw [if_pos rfl]⟩

end Workbench

/-- A statement that runs through takes no node away, and leaves every group that it declares in
order. -/
def Builds (catalog : Catalog) (s : Statement) : Prop :=
  ∀ (stats stats' : Stats) (w w' : Workbench),
  runStatement catalog stats w s = (w', .ok stats') → w.focus.active.WellFormed →
    w.focus.active.AllowedIn w.group? → w.Grows w' ∧
      ∀ path line decl body, Occurs [s] path (.group line decl body) →
        w'.focus.active.HoldsGroup (path ++ [decl.id]) decl

theorem runStatements_builds {catalog : Catalog} {script : List Statement}
    (hscript : ∀ s ∈ script, Builds catalog s) {stats stats' : Stats} {w w' : Workbench}
    (hrun : runStatements catalog stats w script = (w', .ok stats'))
    (hw : w.focus.active.WellFormed) (hallowed : w.focus.active.AllowedIn w.group?) :
    w.Grows w' ∧ ∀ path line decl body, Occurs script path (.group line decl body) →
      w'.focus.active.HoldsGroup (path ++ [decl.id]) decl := by
  induction script generalizing stats w with
  | nil =>
    obtain ⟨rfl, -⟩ := Prod.mk.inj hrun
    refine ⟨.refl hw hallowed, fun path line decl body h => ?_⟩
    obtain ⟨t, ht, -⟩ := h.exists_mem
    cases ht
  | cons s script ih =>
    rw [runStatements] at hrun
    split at hrun
    · next middle stats'' hstep =>
      obtain ⟨hgrows, hholds⟩ := hscript s List.mem_cons_self _ _ _ _ hstep hw hallowed
      obtain ⟨hgrows', hholds'⟩ :=
        ih (fun t ht => hscript t (.tail _ ht)) hrun hgrows.wellFormed hgrows.allowed
      refine ⟨hgrows.trans hgrows', fun path line decl body h => ?_⟩
      obtain ⟨t, ht, hoccurs⟩ := h.exists_mem
      rcases List.mem_cons.1 ht with rfl | ht
      · exact (hholds path line decl body hoccurs).mono hgrows'.nodes
      · exact hholds' path line decl body (hoccurs.mono fun u hu => List.mem_singleton.1 hu ▸ ht)
    · cases hrun

theorem builds (catalog : Catalog) (s : Statement) : Builds catalog s := by
  induction s using Statement.nestedInduction with
  | step s ih =>
    intro stats stats' w w' hrun hw hallowed
    cases s with
    | title | space | description | flag =>
      obtain ⟨rfl, -⟩ := Prod.mk.inj hrun
      exact ⟨⟨⟨rfl, rfl⟩, fun _ hn => hn, hw, hallowed⟩, fun _ _ _ _ h =>
        absurd h (not_occurs_of_plain fun _ _ _ heq => by cases heq)⟩
    | node line decl =>
      obtain ⟨n, hn, hadd⟩ := runNode_eq_ok hrun
      exact ⟨.addNode hw hallowed (decl.inner_node? hn) hadd, fun _ _ _ _ h =>
        absurd h (not_occurs_of_plain fun _ _ _ heq => by cases heq)⟩
    | connect line link =>
      obtain ⟨k, hcon⟩ := runConnect_eq_ok hrun
      exact ⟨.connect hw hallowed hcon, fun _ _ _ _ h =>
        absurd h (not_occurs_of_plain fun _ _ _ heq => by cases heq)⟩
    | group line decl body =>
      obtain ⟨added, inside, hadd, hfind, hbody, rfl⟩ := runGroup_eq_ok hw hrun
      have hadded : w.Grows added := .addNode hw hallowed rfl hadd
      have hentered : (added.entered decl.id .empty).focus.active.AllowedIn
          (added.entered decl.id .empty).group? := by
        rw [Workbench.group?_of_entered hfind ⟨rfl, rfl⟩]
        exact Graph.allowed_empty _
      obtain ⟨hinside, hholds⟩ := runStatements_builds ih hbody Graph.wellFormed_empty hentered
      have hfresh : ∀ m ∈ w.focus.active.nodes, m.id ≠ decl.id := by
        obtain ⟨g, hg, -⟩ := Workbench.addNode_eq_ok hadd
        exact (Graph.insert_eq_ok_iff.1 hg).1
      obtain ⟨hgrows, inner, hmem, hkept, hfitted⟩ :=
        Workbench.Grows.exitGroup (n := decl.node stats.nodes) hadded hfresh hfind hinside
      refine ⟨hgrows, fun path line' decl' body' h => ?_⟩
      cases h with
      | here h =>
        obtain ⟨rfl, rfl, rfl⟩ := Statement.group.inj (List.mem_singleton.1 h)
        exact ⟨_, inner, .here hmem, rfl, rfl, rfl, rfl, hfitted⟩
      | inside h hs =>
        obtain ⟨rfl, rfl, rfl⟩ := Statement.group.inj (List.mem_singleton.1 h)
        exact ((hholds _ _ _ _ hs).mono hkept).nested hmem rfl

/-! ### Loading -/

structure Made (script : List Statement) (d d' : Document) : Prop where
  /-- The graphs around the active one, the groups that are open in them and the viewports stay. -/
  frames : d'.focus.frames = d.focus.frames
  viewport : d'.viewport = d.viewport
  /-- So does what no statement sets, at any depth. -/
  name : (∀ path line text, ¬Occurs script path (.title line text)) →
    d'.metadata.name = d.metadata.name
  space : (∀ path line text, ¬Occurs script path (.space line text)) →
    d'.metadata.space = d.metadata.space
  description : (∀ path line text, ¬Occurs script path (.description line text)) →
    d'.metadata.description = d.metadata.description
  flag : ∀ key, (∀ path line value, ¬Occurs script path (.flag line key value)) →
    d'.metadata.flags.get? key = d.metadata.flags.get? key
  wellFormed : d'.active.WellFormed
  /-- Every group that is declared is there, with the boundary nodes that it asks for. -/
  groups : ∀ path line decl body, Occurs script path (.group line decl body) →
    d'.active.HoldsGroup (path ++ [decl.id]) decl

/-- Two documents with no group open, or with groups open that have the same plain flow ports. -/
def SameSetting (d e : Document) : Prop :=
  (d.focus.frames = [] ∧ e.focus.frames = []) ∨ ∃ a b, d.focus.currentGroup? = some a ∧
    e.focus.currentGroup? = some b ∧ ∀ side, Label.flow ∈ a.ports side ↔ Label.flow ∈ b.ports side

theorem SameSetting.exposes {d e : Document} (h : SameSetting d e) (side : Direction) :
    d.focus.currentGroup?.any (·.exposes side) = e.focus.currentGroup?.any (·.exposes side) := by
  rcases h with ⟨hd, he⟩ | ⟨a, b, ha, hb, hports⟩
  · rw [Focus.currentGroup?, Focus.currentGroup?, hd, he]
  · rw [ha, hb, Option.any_some, Option.any_some, Node.exposes_eq, Node.exposes_eq,
      decide_eq_decide.2 (hports side)]

/-- A graph is reconciled in the same way in both. -/
theorem SameSetting.active_reconcile {d e : Document} (h : SameSetting d e)
    (hactive : d.active = e.active) : d.reconcile.2.active = e.reconcile.2.active := by
  obtain ⟨metadata, viewport, ⟨active, frames⟩⟩ := d
  obtain ⟨metadata', viewport', ⟨active', frames'⟩⟩ := e
  obtain rfl : active = active' := hactive
  have hsides := h.exposes
  rcases h with ⟨hd, he⟩ | ⟨a, b, ha, hb, -⟩
  · obtain rfl : frames = [] := hd
    obtain rfl : frames' = [] := he
    rfl
  · rw [ha, hb] at hsides
    have hinput : a.exposes .input = b.exposes .input := hsides .input
    have houtput : a.exposes .output = b.exposes .output := hsides .output
    simp only [Document.reconcile, Focus.reconcile, ha, hb, Document.active, Graph.reconcile,
      hinput, houtput]

section Load

variable (catalog : Catalog) (text : String) (d : Document) (h : History)

/-- What a load results in: an error in the text, or what the run of its script results in. -/
theorem result_load : (load catalog text d h).2.2.map (·.stats) = match parse text with
    | .error e => .error (.script e)
    | .ok script => (interpret catalog script (d.setActive .empty)).2.mapError .script := by
  unfold load
  cases parse text with
  | error e => rfl
  | ok script =>
    simp only
    obtain ⟨built, e | stats⟩ := interpret catalog script (d.setActive .empty)
    · simp only [Snapshot.restore, Snapshot.capture, Image.ofBytes?_toBytes]
      rfl
    · rfl

variable {catalog text d h}

theorem load_eq_ok {report : LoadReport} (hload : (load catalog text d h).2.2 = .ok report) :
    ∃ script, parse text = .ok script ∧
      (interpret catalog script (d.setActive .empty)).2 = .ok report.stats ∧
      (load catalog text d h).1 =
      (interpret catalog script (d.setActive .empty)).1.reconcile.2 := by
  unfold load at hload ⊢
  cases hparse : parse text with
  | error e => simp [hparse] at hload
  | ok script =>
    simp only [hparse] at hload ⊢
    refine ⟨script, rfl, ?_⟩
    revert hload
    obtain ⟨built, e | stats⟩ := interpret catalog script (d.setActive .empty)
    · intro hload
      simp only [Snapshot.restore, Snapshot.capture, Image.ofBytes?_toBytes] at hload
      cases hload
    · intro hload
      obtain rfl := Except.ok.inj hload
      exact ⟨rfl, rfl⟩

/-- Where no boundary node is too many, reconciling the active graph keeps its nodes. -/
theorem reconcile_keeps (hwf : d.active.WellFormed)
    (hallowed : d.active.AllowedIn d.focus.currentGroup?) :
    d.reconcile.2.active.WellFormed ∧ ∀ n ∈ d.active.nodes, n ∈ d.reconcile.2.active.nodes := by
  simp only [Document.reconcile, Focus.reconcile, Document.active]
  cases hgroup : d.focus.currentGroup? with
  | none => exact ⟨hwf, fun _ hn => hn⟩
  | some group =>
    rw [hgroup] at hallowed
    exact ⟨hwf.reconcile group, fun n hn => Graph.mem_reconcile_of_allowed hwf hallowed hn⟩

/-- Where all groups are left again, the graph goes into the document as it is. -/
theorem Workbench.active_finish (w : Workbench) (hframes : w.focus.frames = []) (d : Document) :
    (w.finish d).active = w.focus.active := by
  rw [finish, Focus.closeAll, hframes]
  rfl

theorem made_of_load {report : LoadReport} (hload : (load catalog text d h).2.2 = .ok report) :
    ∃ script, parse text = .ok script ∧ Made script d (load catalog text d h).1 := by
  obtain ⟨script, hparse, hresult, hdocument⟩ := load_eq_ok hload
  refine ⟨script, hparse, ?_⟩
  let start := Workbench.ofDocument (d.setActive .empty)
  obtain ⟨w, hrun⟩ : ∃ w, runStatements catalog .none start script = (w, .ok report.stats) :=
    ⟨_, Prod.ext rfl hresult⟩
  have hallowed : start.focus.active.AllowedIn start.group? := by
    cases start.group? with
    | none => exact Graph.plain_empty
    | some group => exact Graph.allowed_empty group
  obtain ⟨hgrows, hholds⟩ :=
    runStatements_builds (fun s _ => builds catalog s) hrun Graph.wellFormed_empty hallowed
  have hmetadata : ∀ {α : Type} {f : Metadata → α},
      (∀ path s, Occurs script path s → ∀ m, f (s.set m) = f m) →
      f w.metadata = f d.metadata := fun hset => metadata_run_eq hset hrun
  have hbuilt : (interpret catalog script (d.setActive .empty)).1 =
      w.finish (d.setActive .empty) := by
    rw [interpret, run, hrun]
  have hactive := w.active_finish hgrows.place.frames (d.setActive .empty)
  have hgroup : w.group? = d.focus.currentGroup? := hgrows.place.group?_eq
  obtain ⟨hwf, hnodes⟩ :=
    reconcile_keeps (d := w.finish (d.setActive .empty)) (hactive ▸ hgrows.wellFormed) (by
    rw [hactive]
    exact hgroup ▸ hgrows.allowed)
  rw [hactive] at hnodes
  rw [hdocument, hbuilt]
  exact {
    frames := Document.frames_reconcile _
    viewport := rfl
    name := fun hnot => hmetadata fun path s hs m => by
      cases s with
      | title line text => exact absurd hs (hnot path line text)
      | _ => rfl
    space := fun hnot => hmetadata fun path s hs m => by
      cases s with
      | space line text => exact absurd hs (hnot path line text)
      | _ => rfl
    description := fun hnot => hmetadata fun path s hs m => by
      cases s with
      | description line text => exact absurd hs (hnot path line text)
      | _ => rfl
    flag := fun key hnot => hmetadata (f := fun m => m.flags.get? key) fun path s hs m => by
      cases s with
      | flag line other value =>
        refine NameMap.get?_insert_of_ne (fun heq => ?_) _ _
        exact hnot path line value (heq ▸ hs)
      | _ => rfl
    wellFormed := hwf
    groups := fun path line decl body hoccurs => (hholds path line decl body hoccurs).mono hnodes }

structure LoadsAlike (catalog : Catalog) (text : String) (d e : Document) (h k : History) :
    Prop where
  /-- Both succeed, with the same counts, or both fail, with the same error. -/
  result : (load catalog text d h).2.2.map (·.stats) = (load catalog text e k).2.2.map (·.stats)
  /-- Where they succeed, they build the same graph. -/
  active : ∀ report, (load catalog text d h).2.2 = .ok report →
    (load catalog text d h).1.active = (load catalog text e k).1.active
  /-- What is not built stays as it was. -/
  made : ∀ report, (load catalog text d h).2.2 = .ok report →
    ∃ script, parse text = .ok script ∧ Made script d (load catalog text d h).1

theorem SameSetting.interpret {e : Document} (hde : SameSetting d e) (script : List Statement) :
    (interpret catalog script (d.setActive .empty)).2 =
      (interpret catalog script (e.setActive .empty)).2 ∧
      (interpret catalog script (d.setActive .empty)).1.active =
        (interpret catalog script (e.setActive .empty)).1.active := by
  have halike : Workbench.Alike (.ofDocument (d.setActive .empty))
      (.ofDocument (e.setActive .empty)) :=
    ⟨rfl, hde.exposes⟩
  obtain ⟨hend, hresult⟩ := Workbench.inStep_alike.runStatements halike catalog .none script
  exact ⟨hresult, congrArg (fun f : Focus => f.closeAll.2.active) hend.focus⟩

theorem SameSetting.result_load {e : Document} (hde : SameSetting d e) (k : History) :
    (load catalog text d h).2.2.map (·.stats) = (load catalog text e k).2.2.map (·.stats) := by
  rw [Script.result_load, Script.result_load]
  cases parse text with
  | error e => rfl
  | ok script => exact congrArg (Except.mapError LoadError.script) (hde.interpret script).1

/-- Loading depends on the script, and on nothing of the document but the plain flow ports of its
open group. -/
theorem load_alike {e : Document} (hde : SameSetting d e) (k : History) :
    LoadsAlike catalog text d e h k where
  result := hde.result_load k
  active := by
    intro report hload
    have hresult : (load catalog text d h).2.2.map (·.stats) =
        (load catalog text e k).2.2.map (·.stats) := hde.result_load k
    rw [hload] at hresult
    obtain ⟨report', hload', -⟩ := Except.map_eq_ok_iff.1 hresult.symm
    obtain ⟨script, hparse, -, hdocument⟩ := load_eq_ok hload
    obtain ⟨script', hparse', -, hdocument'⟩ := load_eq_ok hload'
    obtain rfl := Except.ok.inj (hparse.symm.trans hparse')
    -- the groups that are open are those that were open before
    have hbuilt : SameSetting (interpret catalog script (d.setActive .empty)).1
      (interpret catalog script (e.setActive .empty)).1 := hde
    rw [hdocument, hdocument']
    exact hbuilt.active_reconcile (hde.interpret script).2
  made := fun report hload => made_of_load hload

end Load

def insideGroup (name : String) (active : Graph) : Document where
  metadata := .ofName name
  viewport := .standard
  focus := ⟨active,
    [⟨1, ⟨[{ (Node.group 1 name ["flow"] [name] .empty : Node Graph) with inner := none }], []⟩,
    .standard⟩]⟩

/-- A group in a group, loaded over a graph with a node and into an empty one. -/
theorem load_alike_nested :
    let text := "group 5 \"Outer\" inputs [\"flow\"] outputs [] \x7b " ++
      "group 7 \"Inner\" inputs [] outputs [\"flow\"] \x7b node 2 \"log\"; \x7d \x7d"
    let d := insideGroup "A" ⟨[.ofType 9 "log" ["flow", "message"] ["flow"]], []⟩
    let e := insideGroup "B" .empty
    (load .standard text d (.start d 2)).2.2 = .ok ⟨⟨3, 2, 0⟩, 1⟩ ∧
      LoadsAlike .standard text d e (.start d 2) (.start e 2) := by
  intro text d e
  refine ⟨by decide +kernel, load_alike (.inr ⟨_, _, rfl, rfl, fun side => ?_⟩) _⟩
  cases side <;> decide

end Script
end FlowGraph
