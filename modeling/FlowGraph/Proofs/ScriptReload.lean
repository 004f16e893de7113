import FlowGraph.Proofs.OpenGroups
import FlowGraph.Proofs.RuleLanguage
import FlowGraph.Proofs.ScriptRoundTrip

/-! Scripts of what scripts build. A script that loads builds a graph that scripts can declare,
whose own script therefore loads and reads it back. -/
namespace FlowGraph.Script

/-! ### Ports in statements -/

theorem indexOf_eq_ok_iff {x : Number} {what : String} {n : Nat} :
    indexOf UInt64.size what x = .ok n ↔
    x.isWhole = true ∧ (x.negative = true → x.isZero = true) ∧ x.wholePart ≤ UInt64.size ∧
      min x.wholePart (UInt64.size - 1) = n := by
  have hlt : min x.wholePart (UInt64.size - 1) < UInt64.size :=
    Nat.lt_of_le_of_lt (Nat.min_le_right _ _) (by decide)
  rw [indexOf_eq_ok_iff_denotes]
  exact ⟨fun h => ⟨h.whole, h.positive, h.bounded, h.value.symm⟩,
    fun ⟨hwhole, hpositive, hbounded, hn⟩ => ⟨hwhole, hpositive, hbounded, hn.symm, hn ▸ hlt⟩⟩

/-- What is read as an index is read again from the number for it. -/
theorem isIndex_of_indexOf {x : Number} {what : String} {n : Nat}
    (h : indexOf UInt64.size what x = .ok n) : IsIndex n := by
  obtain ⟨hwhole, hsign, hsize, hn⟩ := indexOf_eq_ok_iff.1 h
  intro what'
  cases hzero : x.isZero with
  | true =>
    rw [(Number.wholePart_eq_zero_iff hwhole).2 hzero, Nat.zero_min] at hn
    exact hn ▸ isIndex_of_lt (by decide) what'
  | false =>
    rcases Nat.lt_or_ge x.wholePart UInt64.size with hpart | hpart
    · -- The number is the one for the index.
      have hnegative : x.negative = false := Bool.eq_false_iff.2 fun hneg => by
        rw [hsign hneg] at hzero
        cases hzero
      have hself : Number.ofNat n = x := by
        rw [Nat.min_eq_left (by omega)] at hn
        rw [← hn, ← Number.toNumber_ofNat, ← hnegative, Number.toNumber_wholePart hwhole hzero]
      rw [hself]
      exact indexOf_eq_ok_iff.2 ⟨hwhole, hsign, hsize, hn⟩
    · -- The first number that is too large is taken for the last index, and so is the number for
      -- that.
      rw [Nat.min_eq_right (by omega)] at hn
      subst hn
      exact indexOf_eq_ok_iff.2
        ⟨by decide +kernel, by decide +kernel, by decide +kernel, by decide +kernel⟩

namespace Rule

variable {α β : Type}

def Yields (r : Rule α) (P : α → Prop) : Prop := ∀ ts p, r.run ts = .ok p → P p.value

variable {r : Rule α} {P : α → Prop} {Q : β → Prop}

theorem yields_true (r : Rule α) : r.Yields fun _ => True := fun _ _ _ => trivial

theorem Yields.andThen {next : α → Rule β} (hr : r.Yields P)
    (hnext : ∀ a, P a → (next a).Yields Q) : (r.andThen next).Yields Q := by
  intro ts p hp
  cases hfirst : r.run ts with
  | error e => simp [Rule.andThen, hfirst, bind, Except.bind] at hp
  | ok first =>
    cases hsecond : (next first.value).run first.rest with
    | error e => simp [Rule.andThen, hfirst, hsecond, bind, Except.bind] at hp
    | ok second =>
      simp only [Rule.andThen, hfirst, hsecond, bind, Except.bind, pure, Except.pure,
        Except.ok.injEq] at hp
      rw [← hp]
      exact hnext _ (hr _ _ hfirst) first.rest second hsecond

theorem Yields.map {f : α → β} (hr : r.Yields P) (hf : ∀ a, P a → Q (f a)) :
    (r.map f).Yields Q := by
  intro ts p hp
  obtain ⟨q, hq, rfl⟩ := Except.map_eq_ok_iff.1 hp
  exact hf _ (hr _ _ hq)

theorem Yields.ended {last : Rule β} (hr : r.Yields P) : (r.ended last).Yields P :=
  hr.andThen fun _ ha => (yields_true last).map fun _ _ => ha

end Rule

open Rule

theorem index_yields (what : String) :
    (index UInt64.size what).Yields fun n => IsIndex (UInt64.ofNat n).toNat := by
  intro ts p hp
  cases hnumber : (number what).run ts with
  | error e => simp [index, hnumber, bind, Except.bind] at hp
  | ok x =>
    cases hindex : indexOf UInt64.size what x.value with
    | error e =>
      simp [index, hnumber, hindex, bind, Except.bind, throw, throwThe, MonadExceptOf.throw] at hp
    | ok n =>
      simp only [index, hnumber, hindex, bind, Except.bind, pure, Except.pure,
        Except.ok.injEq] at hp
      rw [← hp]
      have hlt : n < UInt64.size := by
        obtain ⟨-, -, -, hn⟩ := indexOf_eq_ok_iff.1 hindex
        rw [← hn]
        exact Nat.lt_of_le_of_lt (Nat.min_le_right _ _) (by decide)
      have htoNat : (UInt64.ofNat n).toNat = n := UInt64.toNat_ofNat_of_lt hlt
      exact htoNat.symm ▸ isIndex_of_indexOf hindex

theorem endpoint_yields : endpoint.Yields fun e => IsIndex e.port.toNat :=
  (yields_true _).andThen fun _ _ => (index_yields _).map fun _ h => h

theorem connectStatement_yields : connectStatement.Yields ReadablePorts :=
  endpoint_yields.ended.andThen fun _ hsource => endpoint_yields.ended.map fun _ htarget =>
    ⟨hsource, htarget⟩

theorem simpleStatement_yields {line : Nat} {t : Token} {rule : Rule Statement}
    (h : simpleStatement line t = some rule) : rule.Yields Statement.IsReadable := by
  have hplain {α : Type} (r : Rule α) (f : α → Statement) (hbody : ∀ a, (f a).body = [])
      (hne : ∀ a line link, f a ≠ .connect line link) : (r.map f).Yields Statement.IsReadable :=
    (yields_true r).map fun a _ => Statement.isReadable_of_plain (hbody a) (hne a)
  unfold simpleStatement at h
  split at h
  case h_6 =>
    cases h
    refine connectStatement_yields.map fun link hlink => .intro (fun _ _ heq => ?_) fun t ht => by
      cases ht
    cases heq
    exact hlink
  case h_7 => cases h
  all_goals
    cases h
    exact hplain _ _ (fun _ => rfl) (fun _ _ _ heq => by cases heq)

/-- From `x >>= f = .ok b`, what `x` gave. -/
theorem bind_eq_ok {ε α β : Type} {x : Except ε α} {f : α → Except ε β} {b : β}
    (h : x >>= f = .ok b) : ∃ a, x = .ok a ∧ f a = .ok b := by
  cases x with
  | error e => cases h
  | ok a => exact ⟨a, rfl, h⟩

mutual

theorem statement_isReadable :
    ∀ (ts : List Lexeme) (p : Parsed Statement ts), statement ts = .ok p → p.value.IsReadable
  | [], p, h => by
    rw [statement] at h
    cases h
  | l :: ls, p, h => by
    rw [statement] at h
    split at h
    · obtain ⟨head, hhead, h⟩ := bind_eq_ok h
      obtain ⟨body, hbody, h⟩ := bind_eq_ok h
      obtain rfl := Except.ok.inj h
      have hlt := head.shorter
      exact .intro (fun _ _ heq => by cases heq)
        (groupBody_isReadable head.value [] head.rest body hbody (by simp))
    · split at h
      · next rule hrule =>
        obtain ⟨q, hq, h⟩ := bind_eq_ok h
        obtain rfl := Except.ok.inj h
        exact simpleStatement_yields hrule ls q hq
      · cases h
termination_by ts => 2 * ts.length
decreasing_by simp only [List.length_cons]; omega

theorem groupBody_isReadable : ∀ (decl : GroupDecl) (done : List Statement) (ts : List Lexeme)
    (p : Parsed (GroupDecl × List Statement) ts), groupBody decl done ts = .ok p →
    (∀ s ∈ done, s.IsReadable) → ∀ s ∈ p.value.2, s.IsReadable
  | decl, done, [], p, h, _ => by
    rw [groupBody] at h
    cases h
  | decl, done, l :: ls, p, h, hdone => by
    rw [groupBody] at h
    split at h
    · obtain rfl := Except.ok.inj h
      simpa using hdone
    · split at h
      · obtain ⟨f, hf, h⟩ := bind_eq_ok h
        obtain ⟨q, hq, h⟩ := bind_eq_ok h
        obtain rfl := Except.ok.inj h
        have hlt := f.shorter
        exact groupBody_isReadable _ done f.rest q hq hdone
      · obtain ⟨s, hs, h⟩ := bind_eq_ok h
        obtain ⟨q, hq, h⟩ := bind_eq_ok h
        obtain rfl := Except.ok.inj h
        have hlt := s.shorter
        exact groupBody_isReadable decl _ s.rest q hq
          (List.forall_mem_cons.2 ⟨statement_isReadable (l :: ls) s hs, hdone⟩)
termination_by _ _ ts => 2 * ts.length + 1
decreasing_by
  · omega
  · omega
  · omega

end

theorem statements_isReadable (ts : List Lexeme) {script : List Statement}
    (h : statements ts = .ok script) : ∀ s ∈ script, s.IsReadable := by
  induction ts using statements.induct generalizing script with
  | case1 =>
    rw [statements] at h
    obtain rfl := Except.ok.inj h
    simp
  | case2 l ls ih =>
    rw [statements] at h
    obtain ⟨p, hp, h⟩ := bind_eq_ok h
    obtain ⟨more, hmore, h⟩ := bind_eq_ok h
    obtain rfl := Except.ok.inj h
    exact List.forall_mem_cons.2 ⟨statement_isReadable _ p hp, ih p hmore⟩

/-- Every link of a script that can be read is read as it is written. -/
theorem parse_isReadable {text : String} {script : List Statement} (h : parse text = .ok script) :
    ∀ s ∈ script, s.IsReadable := by
  unfold parse at h
  cases hread : (lexemes text).bind statements with
  | error e => rw [hread] at h; cases h
  | ok read =>
    rw [hread] at h
    obtain rfl := Except.ok.inj h
    obtain ⟨ls, -, hls⟩ := bind_eq_ok hread
    exact statements_isReadable ls hls

end FlowGraph.Script

namespace FlowGraph

/-! ### Nodes that statements declare -/

namespace NameMap

variable {α : Type}

theorem contains_insertAll {m m' : NameMap α} {x : String} (h : m.contains x = true) :
    (m.insertAll m'.entries).contains x = true := by
  rw [contains, get?_insertAll_entries]
  cases hx : m'.get? x with
  | none => exact h
  | some value => rfl

end NameMap

namespace Script

theorem NodeDecl.declared_node? {catalog : Catalog} {decl : NodeDecl} {index : Nat} {n : Node Graph}
    (h : decl.node? catalog index = some n) : n.Declared catalog := by
  simp only [NodeDecl.node?, Catalog.instantiate?, Option.map_eq_some_iff] at h
  obtain ⟨_, ⟨t, ht, rfl⟩, rfl⟩ := h
  by_cases htype : decl.type = Node.groupType
  · rw [if_pos htype]
    exact .group rfl rfl rfl (Graph.allowed_empty _)
  · rw [if_neg htype]
    refine .plain rfl htype ht rfl rfl (fun name hname => ?_) rfl
    exact NameMap.contains_insertAll
      (NameMap.contains_foldl_insertNew.2 (.inr (NameMap.contains_iff_mem.1 hname)))

theorem GroupDecl.declared_node (catalog : Catalog) (decl : GroupDecl) (index : Nat) :
    (decl.node index).Declared catalog := .group rfl rfl rfl (Graph.allowed_empty _)

end Script

/-! ### Edits of declared graphs -/

namespace Graph.Declared

variable {catalog : Catalog} {g h : Graph}

theorem empty (catalog : Catalog) : Graph.empty.Declared catalog :=
  .intro ⟨wellFormed_empty.sound, (fun _ hn => by cases hn), fun _ hl => by cases hl⟩ fun _ hn => by
    cases hn

theorem insert (hg : g.Declared catalog) {n : Node Graph} (hn : n.Declared catalog)
    (hinner : ∀ inner, n.inner = some inner → inner.Declared catalog) (hins : g.insert n = .ok h) :
    h.Declared catalog := by
  have hsound := (hg.wellFormed.insert (fun inner hi => (hinner inner hi).wellFormed) hins).sound
  obtain ⟨-, rfl⟩ := insert_eq_ok_iff.1 hins
  refine .intro ⟨hsound, fun m hm => ?_, hg.here.readable⟩ fun m hm inner hi => ?_
  · rcases mem_place.1 hm with rfl | hm
    · exact hn
    · exact hg.here.nodes m hm
  · rcases mem_place.1 hm with rfl | hm
    · exact hinner inner hi
    · exact hg.inside hm hi

theorem connect (hg : g.Declared catalog) {l k : Link} (hl : Script.ReadablePorts l)
    (hcon : g.connect ⟨l.source.node, .output, l.source.port⟩
      ⟨l.target.node, .input, l.target.port⟩ = .ok (k, h)) : h.Declared catalog := by
  have hsound := (hg.wellFormed.connect hcon).sound
  have hk : k = l := by
    obtain ⟨a, -, hcon⟩ := Script.bind_eq_ok hcon
    obtain ⟨b, -, hcon⟩ := Script.bind_eq_ok hcon
    obtain ⟨-, -, hcon⟩ := Script.bind_eq_ok hcon
    exact (congrArg Prod.fst (Except.ok.inj hcon)).symm
  obtain ⟨-, rfl⟩ := connect_eq_ok hcon
  refine .intro ⟨hsound, hg.here.nodes, fun m hm => ?_⟩ fun _ hn _ hi => hg.inside hn hi
  rcases List.mem_append.1 hm with hm | hm
  · exact hg.here.readable m (List.mem_filter.1 hm).1
  · rw [List.mem_singleton.1 hm, hk]
    exact hl

/-- Filling a group with a nested graph that it allows. -/
theorem fill (hg : g.Declared catalog) {id : NodeId} {n : Node Graph} (hfind : g.find? id = some n)
    (hgroup : n.isGroup = true) (htype : n.type = Node.groupType) {inner : Graph}
    (hinner : inner.Declared catalog) (hallowed : inner.Allowed n) :
    (g.modify id fun n => { n with inner := some inner }).Declared catalog := by
  have hsound : (g.modify id fun n => { n with inner := some inner }).Sound :=
    (hg.wellFormed.setInner fun h hi => Option.some.inj hi ▸ hinner.wellFormed).sound
  have hnode : ∀ m ∈ (g.modify id fun n => { n with inner := some inner }).nodes,
      m = { n with inner := some inner } ∨ m ∈ g.nodes := by
    intro m hm
    obtain ⟨k, hk, rfl⟩ := mem_modify.1 hm
    by_cases hid : k.id = id
    · have hsame := (find?_eq_some_iff hg.here.sound.ascending).2 ⟨hk, hid⟩
      rw [hfind] at hsame
      rw [if_pos hid, Option.some.inj hsame]
      exact .inl rfl
    · rw [if_neg hid]
      exact .inr hk
  refine .intro ⟨hsound, fun m hm => ?_, hg.here.readable⟩ fun m hm nested hi => ?_
  · rcases hnode m hm with rfl | hm
    · exact .group hgroup htype rfl hallowed
    · exact hg.here.nodes m hm
  · rcases hnode m hm with rfl | hm
    · rw [← Option.some.inj hi]
      exact hinner
    · exact hg.inside hm hi

section Boundary

variable (hcatalog : ∀ side id, (Node.boundary side id : Node Graph).Declared catalog)

include hcatalog

theorem reconcileSide (hg : g.Declared catalog) {side : Direction} {wanted : Bool}
    (hside : (g.boundaryIds side).length ≤ if wanted then 1 else 0) :
    (g.reconcileSide side wanted).2.Declared catalog := by
  rcases reconcileSide_cases hside with ⟨heq, -⟩ | ⟨hins, -⟩
  · rw [heq]
    exact hg
  · exact hg.insert (hcatalog side g.nextId) (fun inner hi => by cases side <;> cases hi) hins

theorem reconcile (hg : g.Declared catalog) {group : Node Graph} (hallowed : g.Allowed group) :
    (g.reconcile group).2.Declared catalog :=
  reconcileSide hcatalog (reconcileSide hcatalog hg (hallowed .input))
    (allowed_reconcileSide hg.wellFormed hallowed)

end Boundary

end Graph.Declared

/-! ### Runs -/

namespace Script

/-- What a script has built so far is declared, and has no boundary nodes that it should not
have. -/
structure Workbench.Declared (catalog : Catalog) (w : Workbench) : Prop where
  active : w.focus.active.Declared catalog
  allowed : w.focus.active.AllowedIn w.group?

structure Workbench.SamePlace (w w' : Workbench) : Prop where
  frames : w'.focus.frames = w.focus.frames
  enclosing : w'.enclosing = w.enclosing

namespace Workbench

variable {catalog : Catalog} {w w' : Workbench}

theorem SamePlace.group?_eq (h : w.SamePlace w') : w'.group? = w.group? := by
  rw [group?, Focus.currentGroup?, h.frames, h.enclosing]
  rfl

theorem SamePlace.trans {w'' : Workbench} (h : w.SamePlace w') (h' : w'.SamePlace w'') :
    w.SamePlace w'' :=
  ⟨h'.frames.trans h.frames, h'.enclosing.trans h.enclosing⟩

theorem allowed_addNode (hw : w.focus.active.AllowedIn w.group?) {n : Node Graph}
    (h : w.addNode n = .ok w') : w'.focus.active.AllowedIn w.group? := by
  unfold addNode at h
  split at h
  · obtain ⟨g, hg, rfl⟩ := Except.map_eq_ok_iff.1 h
    exact hw.congr (Graph.boundaryIds_add hg)
  · next side hside =>
    split at h
    · next htaken =>
      obtain ⟨g, hg, rfl⟩ := Except.map_eq_ok_iff.1 h
      cases hgroup : w.group? with
      | none => simp [hgroup] at htaken
      | some group =>
        rw [hgroup] at hw htaken
        simp only [Option.any_some, Bool.and_eq_true, List.isEmpty_iff] at htaken
        obtain ⟨hexposes, hnil⟩ := htaken
        have htype := Node.type_of_boundarySide? hside
        intro other
        by_cases hother : other = side
        · subst hother
          have hlength :=
            Graph.length_boundaryIds_place w.focus.active.nodes w.focus.active.links htype
          have hnil : (⟨w.focus.active.nodes, w.focus.active.links⟩ : Graph).boundaryIds other =
              [] := hnil
          rw [hnil] at hlength
          rw [hexposes, (Graph.insert_eq_ok_iff.1 hg).2]
          exact Nat.le_of_eq hlength
        · have hids : g.boundaryIds other = w.focus.active.boundaryIds other :=
            Graph.boundaryIds_insert hg fun h => hother
              (Node.boundaryType_injective (h.symm.trans htype))
          have hallowed := hw other
          rw [← hids] at hallowed
          exact hallowed
    · cases h

theorem Declared.addNode (hw : w.Declared catalog) {n : Node Graph} (hn : n.Declared catalog)
    (hinner : n.inner.getD .empty = .empty) (h : w.addNode n = .ok w') :
    w'.Declared catalog ∧ w.SamePlace w' := by
  have hallowed := allowed_addNode hw.allowed h
  obtain ⟨g, hg, rfl⟩ := addNode_eq_ok h
  refine ⟨⟨hw.active.insert hn (fun inner hi => ?_) hg, hallowed⟩, rfl, rfl⟩
  rw [hi, Option.getD_some] at hinner
  exact hinner ▸ .empty catalog

theorem Declared.connect (hw : w.Declared catalog) {l k : Link} (hl : ReadablePorts l)
    (h : w.connect ⟨l.source.node, .output, l.source.port⟩ ⟨l.target.node, .input, l.target.port⟩ =
      .ok (k, w')) : w'.Declared catalog ∧ w.SamePlace w' := by
  obtain ⟨⟨k', g⟩, hg, heq⟩ := Except.map_eq_ok_iff.1 h
  obtain ⟨rfl, rfl⟩ := Prod.mk.inj heq
  have hdeclared := hw.active.connect hl hg
  obtain ⟨-, rfl⟩ := Graph.connect_eq_ok hg
  exact ⟨⟨hdeclared, hw.allowed.congr fun _ => rfl⟩, rfl, rfl⟩

def entered (w : Workbench) (id : NodeId) (inner : Graph) : Workbench :=
  { w with focus :=
    ⟨inner, ⟨id, w.focus.active.modify id fun n => { n with inner := none }, .standard⟩ ::
    w.focus.frames⟩ }

theorem group?_of_entered {id : NodeId} {inner : Graph} {n : Node Graph}
    (hfind : w.focus.active.find? id = some n) (h : (w.entered id inner).SamePlace w') :
    w'.group? = some { n with inner := none } := by
  rw [h.group?_eq, group?, Focus.currentGroup?, entered, List.head?_cons, Option.bind_some,
    Focus.find?_emptied hfind]
  rfl

/-- Leaving a group puts what was built in it, reconciled, into the group. -/
theorem exitGroup_of_entered {id : NodeId} {inner : Graph} {n : Node Graph}
    (hfind : w.focus.active.find? id = some n) (hplace : (w.entered id inner).SamePlace w')
    (hsound : (w'.focus.active.reconcile n).2.Sound) :
    w'.exitGroup = { w' with
      focus :=
        ⟨w.focus.active.modify id fun m => { m with inner := some (w'.focus.active.reconcile n).2 },
          w.focus.frames⟩ } := by
  obtain ⟨metadata, ⟨active, frames⟩, enclosing⟩ := w'
  let frame : Frame := ⟨id, w.focus.active.modify id fun n => { n with inner := none }, .standard⟩
  obtain rfl : frames = frame :: w.focus.frames := hplace.frames
  have hheld : frame.parent.find? frame.group = some { n with inner := none } :=
    Focus.find?_emptied hfind
  have hreconcile : (Focus.reconcile ⟨active, frame :: w.focus.frames⟩).2 =
      ⟨(active.reconcile n).2, frame :: w.focus.frames⟩ := by
    rw [Focus.reconcile_inside hheld]
    rfl
  have hfill : frame.fill (active.reconcile n).2 =
      w.focus.active.modify id fun m => { m with inner := some (active.reconcile n).2 } :=
    Graph.modify_modify w.focus.active id (f := fun n => { n with inner := none }) (fun _ => rfl) _
  simp only [exitGroup, hreconcile, Focus.close, hsound.prune_eq, hfill]

/-- Leaving a group in which declared nodes and links were made. -/
theorem Declared.exitGroup
    (hcatalog : ∀ side id, (Node.boundary side id : Node Graph).Declared catalog)
    (hw : w.Declared catalog) {id : NodeId} {inner : Graph} {n : Node Graph}
    (hfind : w.focus.active.find? id = some n) (hgroup : n.isGroup = true)
    (htype : n.type = Node.groupType) (hw' : w'.Declared catalog)
    (hplace : (w.entered id inner).SamePlace w') :
    w'.exitGroup.Declared catalog ∧ w.SamePlace w'.exitGroup := by
  have hallowed := hw'.allowed
  rw [group?_of_entered hfind hplace] at hallowed
  have hallowed : w'.focus.active.Allowed n := hallowed
  have hdeclared := hw'.active.reconcile hcatalog hallowed
  have hfill :=
    hw.active.fill hfind hgroup htype hdeclared (hallowed.reconcile hw'.active.wellFormed)
  have hback : w.SamePlace w'.exitGroup := by
    rw [exitGroup_of_entered hfind hplace hdeclared.here.sound]
    exact ⟨rfl, hplace.enclosing⟩
  refine ⟨?_, hback⟩
  constructor
  · rw [exitGroup_of_entered hfind hplace hdeclared.here.sound]
    exact hfill
  · rw [hback.group?_eq, exitGroup_of_entered hfind hplace hdeclared.here.sound]
    exact hw.allowed.congr (Graph.boundaryIds_congr (Graph.roster_modify fun _ _ _ => ⟨rfl, rfl⟩))

end Workbench

/-! ### Statements that run through -/

section Statements

variable {catalog : Catalog} {stats stats' : Stats} {w w' : Workbench} {line : Nat}

theorem runNode_eq_ok {decl : NodeDecl}
    (h : runStatement catalog stats w (.node line decl) = (w', .ok stats')) :
    ∃ n, decl.node? catalog stats.nodes = some n ∧ w.addNode n = .ok w' := by
  rw [runStatement] at h
  split at h
  · cases h
  · next n hn =>
    simp only [Target.addNode] at h
    cases hadd : w.addNode n with
    | error e => simp [hadd, Workbench.settled] at h
    | ok added =>
      simp only [hadd, Workbench.settled, Prod.mk.injEq] at h
      exact ⟨n, hn, hadd.trans (congrArg _ h.1)⟩

theorem runConnect_eq_ok {link : Link}
    (h : runStatement catalog stats w (.connect line link) = (w', .ok stats')) :
    ∃ k, w.connect ⟨link.source.node, .output, link.source.port⟩
      ⟨link.target.node, .input, link.target.port⟩ = .ok (k, w') := by
  rw [runStatement] at h
  simp only [Target.connect] at h
  cases hcon : w.connect ⟨link.source.node, .output, link.source.port⟩
      ⟨link.target.node, .input, link.target.port⟩ with
  | error e => simp [hcon, Workbench.settled, Except.map] at h
  | ok result =>
    simp only [hcon, Workbench.settled, Except.map, Prod.mk.injEq] at h
    exact ⟨result.1, by rw [← h.1]⟩

/-- A group is added, its statements run inside it, and it is left. -/
theorem runGroup_eq_ok (hw : w.focus.active.WellFormed) {decl : GroupDecl} {body : List Statement}
    (h : runStatement catalog stats w (.group line decl body) = (w', .ok stats')) :
    ∃ added inside, w.addNode (decl.node stats.nodes) = .ok added ∧
      added.focus.active.find? decl.id = some (decl.node stats.nodes) ∧
      runStatements catalog stats.addGroup (added.entered decl.id .empty) body =
      (inside, .ok stats') ∧ w' = inside.exitGroup := by
  rw [runStatement] at h
  simp only [Target.addNode, Target.enterGroup, Target.exitGroup] at h
  cases hadd : w.addNode (decl.node stats.nodes) with
  | error e => simp [hadd, Workbench.settled] at h
  | ok added =>
    have hfind : added.focus.active.find? decl.id = some (decl.node stats.nodes) := by
      obtain ⟨g, hg, rfl⟩ := Workbench.addNode_eq_ok hadd
      have hinner : ∀ inner, (decl.node stats.nodes).inner = some inner → inner.WellFormed :=
        fun inner hi => Option.some.inj hi ▸ Graph.wellFormed_empty
      have hasc : g.nodes.Pairwise (·.id < ·.id) := (hw.insert hinner hg).sound.ascending
      refine (Graph.find?_eq_some_iff hasc).2 ⟨?_, rfl⟩
      rw [(Graph.insert_eq_ok_iff.1 hg).2]
      exact Graph.mem_place.2 (.inl rfl)
    have henter : added.enterGroup decl.id = .ok (added.entered decl.id .empty) := by
      rw [Workbench.enterGroup, Workbench.enter_of_find? hfind rfl]
      rfl
    simp only [hadd, Workbench.settled, henter, Prod.mk.injEq] at h
    exact ⟨added, _, rfl, hfind, Prod.ext rfl h.2, h.1.symm⟩

end Statements

/-- A statement that runs through makes declared nodes and links, and ends inside the groups that it
started in. -/
def Declares (catalog : Catalog) (s : Statement) : Prop :=
  ∀ (stats stats' : Stats) (w w' : Workbench),
  runStatement catalog stats w s = (w', .ok stats') → w.Declared catalog →
    w'.Declared catalog ∧ w.SamePlace w'

theorem runStatements_declared {catalog : Catalog} {script : List Statement}
    (hscript : ∀ s ∈ script, Declares catalog s) {stats stats' : Stats} {w w' : Workbench}
    (hrun : runStatements catalog stats w script = (w', .ok stats')) (hw : w.Declared catalog) :
    w'.Declared catalog ∧ w.SamePlace w' := by
  induction script generalizing stats w with
  | nil =>
    obtain ⟨rfl, -⟩ := Prod.mk.inj hrun
    exact ⟨hw, rfl, rfl⟩
  | cons s script ih =>
    rw [runStatements] at hrun
    split at hrun
    · next middle stats'' hstep =>
      obtain ⟨hmiddle, hplace⟩ := hscript s List.mem_cons_self _ _ _ _ hstep hw
      obtain ⟨hend, hplace'⟩ := ih (fun t ht => hscript t (.tail _ ht)) hrun hmiddle
      exact ⟨hend, hplace.trans hplace'⟩
    · cases hrun

theorem declares_of_isReadable {catalog : Catalog}
    (hcatalog : ∀ side id, (Node.boundary side id : Node Graph).Declared catalog) {s : Statement}
    (hs : s.IsReadable) : Declares catalog s := by
  induction hs with
  | @intro s here inside ih =>
    intro stats stats' w w' hrun hw
    cases s with
    | title | space | description | flag =>
      obtain ⟨rfl, -⟩ := Prod.mk.inj hrun
      exact ⟨⟨hw.active, hw.allowed⟩, rfl, rfl⟩
    | node line decl =>
      obtain ⟨n, hn, hadd⟩ := runNode_eq_ok hrun
      exact hw.addNode (decl.declared_node? hn) (decl.inner_node? hn) hadd
    | connect line link =>
      obtain ⟨k, hcon⟩ := runConnect_eq_ok hrun
      exact hw.connect (here line link rfl) hcon
    | group line decl body =>
      obtain ⟨added, inner, hadd, hfind, hbody, rfl⟩ := runGroup_eq_ok hw.active.wellFormed hrun
      obtain ⟨hadded, hplace⟩ := hw.addNode (decl.declared_node catalog stats.nodes) rfl hadd
      have hentered : (added.entered decl.id .empty).Declared catalog := by
        refine ⟨.empty catalog, ?_⟩
        rw [Workbench.group?_of_entered hfind ⟨rfl, rfl⟩]
        exact Graph.allowed_empty _
      obtain ⟨hinner, hinside⟩ := runStatements_declared ih hbody hentered
      obtain ⟨hexit, hplace'⟩ := hadded.exitGroup hcatalog hfind rfl rfl hinner hinside
      exact ⟨hexit, hplace.trans hplace'⟩

/-- What a script builds in a new document is declared, and has no boundary nodes of its own. -/
theorem declared_of_load {catalog : Catalog}
    (hcatalog : ∀ side id, (Node.boundary side id : Node Graph).Declared catalog) {text : String}
    {metadata : Metadata} {h h₁ : History} {d : Document} {report : LoadReport}
    (hload : load catalog text (.blank metadata) h = (d, h₁, .ok report)) :
    d.active.Declared catalog ∧ d.active.Plain ∧ d = .ofGraph d.metadata .standard d.active := by
  unfold load at hload
  split at hload
  · cases hload
  · next script hparse =>
    have hscript : ∀ s ∈ script, Declares catalog s :=
      fun s hs => declares_of_isReadable hcatalog (parse_isReadable hparse s hs)
    have hstart :
        (Workbench.ofDocument ((Document.blank metadata).setActive .empty)).Declared catalog :=
      ⟨.empty catalog, Graph.plain_empty⟩
    obtain ⟨w, result, hrun⟩ : ∃ w result,
        run catalog script (Workbench.ofDocument ((Document.blank metadata).setActive .empty)) =
          (w, result) := ⟨_, _, rfl⟩
    cases result with
    | error e =>
      simp only [interpret, hrun] at hload
      split at hload <;> cases hload
    | ok stats =>
      simp only [interpret, hrun, Prod.mk.injEq] at hload
      obtain ⟨rfl, -⟩ := hload
      obtain ⟨hw, hplace⟩ := runStatements_declared hscript hrun hstart
      obtain ⟨metadata', ⟨active, frames⟩, enclosing⟩ := w
      obtain rfl : frames = [] := hplace.frames
      obtain rfl : enclosing = none := hplace.enclosing
      exact ⟨hw.active, hw.allowed, rfl⟩

/-- What a script builds in a new document is read back from its own script. -/
theorem load_ofDocument_reloaded {text : String} {metadata : Metadata} {h h₁ : History}
    {d : Document} {report : LoadReport}
    (hload : load .standard text (.blank metadata) h = (d, h₁, .ok report)) (name : String)
    (h' : History) : ∃ report', load .standard (ofDocument d) (.blank (.ofName name)) h' =
      (.ofGraph d.metadata .standard d.active.canonical.reloaded,
        h'.save (.ofGraph d.metadata .standard d.active.canonical.reloaded), .ok report') := by
  obtain ⟨hdeclared, hplain, -⟩ :=
    declared_of_load (fun side id => (Node.representable_boundary side id).declared) hload
  obtain ⟨report', hagain⟩ :=
    load_render_reloaded hdeclared d.metadata (d := .blank (.ofName name)) hplain h'
  have hmetadata : (Document.blank (.ofName name)).metadata.overlay d.metadata = d.metadata :=
    Metadata.overlay_ofName name d.metadata
  simp only [hmetadata] at hagain
  exact ⟨report', hagain⟩

/-- Whatever script a new document is built from, the script of the document loads into another new
document. It brings back the metadata, and the graph with a text for the name of every group and
with all boundary nodes that were missing. So the graph comes back as it was exactly if no name was
anything but a text and no boundary node was missing; from the second time on it always does. -/
theorem load_ofDocument_of_load {text name : String} {h h₁ : History} {d₁ : Document}
    {report : LoadReport}
    (hload : load .standard text (.blank (.ofName name)) h = (d₁, h₁, .ok report)) (name' : String)
    (h' : History) : ∃ d₂ report',
      load .standard (ofDocument d₁) (.blank (.ofName name')) h' = (d₂, h'.save d₂, .ok report') ∧
      d₂.metadata = d₁.metadata ∧ d₂.viewport = d₁.viewport ∧ d₂.focus.frames = d₁.focus.frames ∧
      d₂.active = d₁.active.canonical.reloaded ∧
      (d₂.active = d₁.active.canonical ↔ d₁.active.Faithful) ∧
      ∀ (name'' : String) (h'' : History), ∃ report'',
        load .standard (ofDocument d₂) (.blank (.ofName name'')) h'' =
          (d₂.setActive d₂.active.canonical, h''.save (d₂.setActive d₂.active.canonical),
            .ok report'') := by
  obtain ⟨hdeclared, -, hd₁⟩ :=
    declared_of_load (fun side id => (Node.representable_boundary side id).declared) hload
  obtain ⟨report', hagain⟩ := load_ofDocument_reloaded hload name' h'
  have hcanonical := hdeclared.canonical
  refine ⟨_, report', hagain, rfl,
    by rw [hd₁]; rfl, by rw [hd₁]; rfl, rfl, ?_, fun name'' h'' => ?_⟩
  · exact hcanonical.reloaded_eq_self_iff.trans Graph.faithful_canonical_iff
  · obtain ⟨report'', hthird⟩ := load_ofDocument_reloaded hagain name'' h''
    obtain ⟨hdeclared', -⟩ :=
      declared_of_load (fun side id => (Node.representable_boundary side id).declared) hagain
    have hfaithful := Graph.faithful_canonical_iff.2 hcanonical.faithful_reloaded
    rw [hdeclared'.canonical.reloaded_eq_self_iff.2 hfaithful] at hthird
    exact ⟨report'', hthird⟩

/-- A group in a group, the outer one with a name that is no text, the inner one without boundary
nodes. -/
theorem load_ofDocument_of_load_nested :
    let text := "group 1 \"Body\" inputs [] outputs [] \x7b name = true; node 2 \"group\"; \x7d"
    let loaded := load .standard text (.blank (.ofName "")) (.start (.blank (.ofName "")) 2)
    let d₁ := loaded.1
    loaded.2.2 = .ok ⟨⟨2, 1, 0⟩, 0⟩ ∧ ∃ d₂ report',
      load .standard (ofDocument d₁) (.blank (.ofName "")) loaded.2.1 =
        (d₂, loaded.2.1.save d₂, .ok report') ∧
      d₂.metadata = d₁.metadata ∧ d₂.viewport = d₁.viewport ∧ d₂.focus.frames = d₁.focus.frames ∧
      d₂.active = d₁.active.canonical.reloaded ∧
      (d₂.active = d₁.active.canonical ↔ d₁.active.Faithful) ∧
      ∀ (name'' : String) (h'' : History), ∃ report'',
        load .standard (ofDocument d₂) (.blank (.ofName name'')) h'' =
          (d₂.setActive d₂.active.canonical, h''.save (d₂.setActive d₂.active.canonical),
            .ok report'') := by
  intro text loaded d₁
  have hreport : loaded.2.2 = .ok ⟨⟨2, 1, 0⟩, 0⟩ := by decide +kernel
  exact ⟨hreport, load_ofDocument_of_load (Prod.ext rfl (Prod.ext rfl hreport)) "" loaded.2.1⟩

/-- A group that is declared as a node has no boundary nodes; read back it has both. -/
theorem reload_adds_boundary_nodes :
    let h := History.start (.blank (.ofName "")) 2
    let d₁ := (load .standard "node 1 \"group\";" (.blank (.ofName "")) h).1
    let d₂ := (load .standard (ofDocument d₁) (.blank (.ofName "")) h).1
    d₁.active.nodes.map (·.inner.map Graph.ids) = [some []] ∧
      d₂.active.nodes.map (·.inner.map Graph.ids) = [some [1, 2]] :=
  ⟨by decide +kernel, by decide +kernel⟩

end Script

end FlowGraph
