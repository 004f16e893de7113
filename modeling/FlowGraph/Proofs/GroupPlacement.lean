import FlowGraph.Proofs.MemberNames

/-! Where the steps inside a group are written: where flow comes to the group, if it enters at the
first plain flow input, and else in a routine. Flow that enters a group at other inputs only is not
noticed. -/
namespace FlowGraph

namespace Text

theorem exists_joinLines_cons (line : String) (lines : List String) :
    ∃ rest, joinLines (line :: lines) = line ++ rest := by
  cases lines with
  | nil => exact ⟨"", by rw [joinLines, String.intercalate_singleton, String.append_empty]⟩
  | cons next lines =>
    exact ⟨"\n" ++ joinLines (next :: lines),
      by rw [joinLines, String.intercalate_cons_cons, String.append_assoc]; rfl⟩

theorem isBlankText_of_append {s rest : String} (h : isBlankText (s ++ rest) = true) :
    isBlankText s = true := by
  rw [isBlankText, allBlank, String.toList_append, List.all_append, Bool.and_eq_true] at h
  exact h.1

/-- Pieces that are put together are empty unless one of them can be seen. -/
theorem stack_eq_empty {chunks : List String} (h : isBlankText (stack chunks) = true) :
    stack chunks = "" := by
  rw [stack] at h ⊢
  cases hseen : chunks.filter (!isBlankText ·) with
  | nil => rfl
  | cons line lines =>
    obtain ⟨rest, hrest⟩ := exists_joinLines_cons line lines
    have hline : line ∈ chunks.filter (!isBlankText ·) := hseen ▸ List.mem_cons_self
    rw [hseen, hrest] at h
    simp [isBlankText_of_append h] at hline

theorem exists_stack_pair (chunks : List String) (next : String) :
    ∃ rest, stack [stack chunks, next] = stack chunks ++ rest := by
  cases hblank : isBlankText (stack chunks) with
  | true =>
    rw [stack_eq_empty hblank]
    exact ⟨_, String.empty_append.symm⟩
  | false =>
    rw [stack, List.filter_cons_of_pos (by rw [hblank]; rfl)]
    exact exists_joinLines_cons _ _

theorem stack_empty_pair (chunks : List String) : stack ["", stack chunks] = stack chunks := by
  rw [stack, List.filter_cons_of_neg (by decide)]
  cases hblank : isBlankText (stack chunks) with
  | true =>
    rw [List.filter_cons_of_neg (by simp [hblank]), stack_eq_empty hblank]
    rfl
  | false =>
    rw [List.filter_cons_of_pos (by rw [hblank]; rfl), List.filter_nil, joinLines,
      String.intercalate_singleton]

end Text

/-! ### Flow into groups -/

namespace Placed

def EnteredAt (q : Placed) (port : Nat) : Prop :=
  ∃ l ∈ q.graph.links, l.target.node = q.node.id ∧ l.target.port.toNat = port

/-- Flow enters the group, at an input that carries plain or named flow. -/
def Entered (q : Placed) : Prop :=
  ∃ port label, q.node.inputs[port]? = some label ∧ Label.isFlow label = true ∧ q.EnteredAt port

/-- Flow enters the group at the first of its inputs that carry plain flow. -/
def EnteredFirst (q : Placed) : Prop :=
  ∃ port, q.node.inputs[port]? = some Label.flow ∧
    (∀ j < port, q.node.inputs[j]? ≠ some Label.flow) ∧ q.EnteredAt port

variable {q : Placed}

theorem EnteredFirst.entered (h : q.EnteredFirst) : q.Entered := by
  obtain ⟨port, hlabel, -, hat⟩ := h
  exact ⟨port, Label.flow, hlabel, by decide, hat⟩

theorem enteredAt_iff {port : Nat} :
    (q.graph.incoming? q.node.id port).isSome = true ↔ q.EnteredAt port := by
  simp [Graph.incoming?, List.find?_isSome, EnteredAt]

theorem flowPort?_eq_some_iff {port : Nat} : q.node.flowPort? .input = some port ↔
    q.node.inputs[port]? = some Label.flow ∧ ∀ j < port, q.node.inputs[j]? ≠ some Label.flow := by
  constructor
  · intro hport
    refine ⟨Node.getElem?_of_flowPort? hport, fun j hj heq => ?_⟩
    obtain ⟨_, -, hbefore⟩ := List.findIdx?_eq_some_iff_getElem.1 hport
    obtain ⟨hlt, hget⟩ := List.getElem?_eq_some_iff.1 heq
    exact hbefore j hj (beq_iff_eq.2 hget)
  · rintro ⟨hlabel, hbefore⟩
    obtain ⟨hlt, hget⟩ := List.getElem?_eq_some_iff.1 hlabel
    refine List.findIdx?_eq_some_iff_getElem.2 ⟨hlt, beq_iff_eq.2 hget, fun j hj heq => ?_⟩
    exact hbefore j hj (List.getElem?_eq_some_iff.2 ⟨Nat.lt_trans hj hlt, beq_iff_eq.1 heq⟩)

theorem hasIncomingFlow_iff : q.graph.hasIncomingFlow q.node = true ↔ q.EnteredFirst := by
  rw [Graph.hasIncomingFlow]
  constructor
  · intro hflow
    split at hflow
    · next port hport =>
      obtain ⟨hlabel, hbefore⟩ := flowPort?_eq_some_iff.1 hport
      exact ⟨port, hlabel, hbefore, enteredAt_iff.1 hflow⟩
    · cases hflow
  · rintro ⟨port, hlabel, hbefore, hat⟩
    rw [flowPort?_eq_some_iff.2 ⟨hlabel, hbefore⟩]
    exact enteredAt_iff.2 hat

theorem isFree_iff : q.isFree = true ↔ ¬q.EnteredFirst := by
  rw [← hasIncomingFlow_iff, isFree, Bool.not_eq_true', Bool.not_eq_true]

end Placed

theorem Graph.GroupAt.isGroup {g : Graph} {path : List NodeId} {q : Placed} (h : g.GroupAt path q) :
    q.node ∈ q.graph.nodes ∧ q.node.isGroup = true := by
  induction h with
  | here hn hgroup => exact ⟨hn, hgroup⟩
  | inside _ _ _ _ ih => exact ih

theorem Graph.GroupAt.of_everywhere {P : Graph → Prop} {g : Graph} {path : List NodeId} {q : Placed}
    (h : g.GroupAt path q) (hg : g.Everywhere P) : P q.graph := by
  induction h with
  | here => exact hg.here
  | inside hn _ hi _ ih => exact ih (hg.inside hn hi)

/-! ### Groups that are reached -/

namespace Placed

def scope (q : Placed) : Scope := ⟨.standard, q.graph, Scope.stemAt q.path⟩

def next (q : Placed) (bound : Nat) (left : List NodeId) : List Outline :=
  (Scope.chain (q.scope.visit q.scope.groupOutline bound) (left.erase q.node.id)
    (q.scope.following q.node)).1

def reached (q : Placed) (bound : Nat) (left : List NodeId) : Option Outline :=
  (q.scope.visit q.scope.groupOutline (bound + 1) left q.node.id).1

/-- A group is a step of its own. Its text is what is inside, unless that is a routine, and what
follows. -/
theorem text_reached {q : Placed} (hsound : q.graph.Sound)
    (hcovers : Catalog.standard.Covers q.graph) (hnode : q.node ∈ q.graph.nodes)
    (hgroup : q.node.isGroup = true) (bound : Nat) {left : List NodeId} (hleft : q.node.id ∈ left) :
    (q.reached bound left).map Outline.text =
      some (Text.stack [if q.isFree then "" else Outline.source q.outline,
        Outline.source (q.next bound left)]) := by
  obtain ⟨template, htemplate⟩ := hcovers q.node hnode
  have hfind : q.scope.graph.find? q.node.id = some q.node :=
    (Graph.find?_eq_some_iff hsound.ascending).2 ⟨hnode, rfl⟩
  have hbody : Outline.source (if q.graph.hasIncomingFlow q.node then q.outline else []) =
      if q.isFree then "" else Outline.source q.outline := by
    rw [isFree]
    cases q.graph.hasIncomingFlow q.node <;> rfl
  rw [reached, Scope.visit_of_mem hleft hfind htemplate, Option.map_some, Scope.text_stepAt,
    if_pos hgroup, ← hbody]
  rfl

end Placed

namespace Module

/-- Where a module writes the steps inside groups. -/
structure PlacesGroups (root : Graph) (m : Module) : Prop where
  /-- The bodies of a module are the texts of these steps. -/
  sections_eq : m.sections.map (fun x => (x.sect, x.body)) =
    (sectionsOf root).map fun sect => (sect, Outline.source (sectionOutline root sect))
  routines_eq : m.routines.map (fun r => (r.group, r.body)) =
    (routineGroups root).map fun q => (q.node.id, Outline.source q.outline)
  /-- The routines are the groups that flow does not enter at the first plain flow input. -/
  routine_iff : ∀ q, root.GroupAt [] q → (q ∈ routineGroups root ↔ ¬q.EnteredFirst)
  /-- So a group is a routine just if no flow enters it, unless flow enters it at other inputs
  only. -/
  routine_iff_not_entered : ∀ q, root.GroupAt [] q →
    ((q ∈ routineGroups root ↔ ¬q.Entered) ↔ (q.Entered → q.EnteredFirst))
  /-- A group that flow enters so begins with what is inside it, wherever it is reached while its id
  is left. -/
  inlined : ∀ q, root.GroupAt [] q → q.EnteredFirst → ∀ bound left, q.node.id ∈ left →
    ∃ o rest, q.reached bound left = some o ∧ o.text = Outline.source q.outline ++ rest
  /-- A routine adds nothing there, and only what follows is written. -/
  skipped : ∀ q ∈ routineGroups root, ∀ bound left, q.node.id ∈ left →
    ∃ o, q.reached bound left = some o ∧ o.text = Outline.source (q.next bound left)

theorem mem_routineGroups_iff {root : Graph} {q : Placed} :
    q ∈ routineGroups root ↔ root.GroupAt [] q ∧ ¬q.EnteredFirst := by
  rw [routineGroups, List.mem_filter, Graph.mem_groups_iff_groupAt, Placed.isFree_iff]

/-- Every module of a well-formed graph writes what is inside a group in the group's routine, or
where flow comes to the group. -/
theorem generate_placesGroups {root : Graph} (hwf : root.WellFormed) {options : Options}
    {metadata : Metadata} {m : Module} (h : generate .standard options metadata root = .ok m) :
    PlacesGroups root m := by
  obtain ⟨hsections, hroutines⟩ := bodies_of_generate h
  have hcovers : root.Everywhere Catalog.standard.Covers := by
    rw [← unknownType?_eq_none_iff]
    rw [generate] at h
    split at h
    · cases h
    · assumption
  have hroutine : ∀ q, root.GroupAt [] q → (q ∈ routineGroups root ↔ ¬q.EnteredFirst) :=
    fun q hq => by
    rw [mem_routineGroups_iff, and_iff_right hq]
  have htext : ∀ q, root.GroupAt [] q → ∀ bound left, q.node.id ∈ left → ∃ o,
      q.reached bound left = some o ∧
      o.text = Text.stack [if q.isFree then "" else Outline.source q.outline,
        Outline.source (q.next bound left)] := by
    intro q hq bound left hleft
    exact Option.map_eq_some_iff.1
      (Placed.text_reached (hq.of_everywhere hwf) (hq.of_everywhere hcovers)
      hq.isGroup.1 hq.isGroup.2 bound hleft)
  exact {
    sections_eq := hsections
    routines_eq := hroutines
    routine_iff := hroutine
    routine_iff_not_entered := fun q hq => by
      rw [hroutine q hq]
      have hentered : q.EnteredFirst → q.Entered := Placed.EnteredFirst.entered
      tauto
    inlined := fun q hq hentered bound left hleft => by
      obtain ⟨o, ho, htext⟩ := htext q hq bound left hleft
      rw [if_neg (fun hfree => Placed.isFree_iff.1 hfree hentered)] at htext
      obtain ⟨rest, hrest⟩ :=
        Text.exists_stack_pair (Outline.texts q.outline) (Outline.source (q.next bound left))
      exact ⟨o, rest, ho, htext.trans hrest⟩
    skipped := fun q hq bound left hleft => by
      obtain ⟨hat, hentered⟩ := mem_routineGroups_iff.1 hq
      obtain ⟨o, ho, htext⟩ := htext q hat bound left hleft
      rw [if_pos (Placed.isFree_iff.2 hentered)] at htext
      exact ⟨o, ho, htext.trans (Text.stack_empty_pair _)⟩ }

/-- Flow enters group 2 and comes to what is inside it; group 4 is a routine. -/
theorem generate_placesGroups_twoGroups :
    ∃ m, generate .standard .standard (.ofName "Module") twoGroups = .ok m ∧
    PlacesGroups twoGroups m ∧ (routineGroups twoGroups).map (·.inside) = [[4]] ∧
    m.sections.map (·.body) = ["log(\"\");\nlog(\"\");", "", "", ""] := by
  have hbodies : (generate .standard .standard (.ofName "Module") twoGroups).map
      (fun m => m.sections.map (·.body)) = .ok ["log(\"\");\nlog(\"\");", "", "", ""] := by
        decide +kernel
  cases hm : generate .standard .standard (.ofName "Module") twoGroups with
  | error e =>
    rw [hm] at hbodies
    cases hbodies
  | ok m =>
    rw [hm] at hbodies
    exact ⟨m, rfl, generate_placesGroups wellFormed_twoGroups hm,
      by decide +kernel, Except.ok.inj hbodies⟩

def namedEntry : Placed where
  path := []
  node := .group 2 "Body" ["flow:go"] [] ⟨[.ofType 1 "log" ["flow", "message"] ["flow"]], []⟩
  graph := ⟨[.ofType 1 "on-start" [] ["flow"],
    .group 2 "Body" ["flow:go"] [] ⟨[.ofType 1 "log" ["flow", "message"] ["flow"]], []⟩],
      [⟨⟨1, 0⟩, ⟨2, 0⟩⟩]⟩

theorem wellFormed_namedEntry : namedEntry.graph.WellFormed := by
  refine .intro (Graph.sound_of_fits (by decide) (List.all_eq_true.1 (by decide)) (by decide))
    fun n hn k hk => ?_
  simp only [namedEntry, List.mem_cons, List.not_mem_nil, or_false] at hn
  rcases hn with rfl | rfl
  · cases hk
  · obtain rfl := Option.some.inj hk
    refine .intro (Graph.sound_of_fits (by decide) (List.all_eq_true.1 (by decide)) (by decide))
      fun n hn k hk => ?_
    obtain rfl := List.mem_singleton.1 hn
    cases hk

/-- Flow that enters a group at a named flow input is not noticed: the group is a routine, and where
flow comes to it nothing is written. -/
theorem named_entry_not_inlined :
    namedEntry.graph.WellFormed ∧ namedEntry.graph.GroupAt [] namedEntry ∧ namedEntry.Entered ∧
    ¬(namedEntry ∈ routineGroups namedEntry.graph ↔ ¬namedEntry.Entered) ∧
    (namedEntry.reached 1 [1, 2]).map Outline.text = some "" ∧
    Outline.source namedEntry.outline = "log(\"\");" ∧
    (generate .standard .standard (.ofName "Player") namedEntry.graph).map (fun m =>
        (m.sections.map (·.body), m.routines.map fun r => (r.group, r.body))) =
      .ok (["", "", "", ""], [(2, "log(\"\");")]) := by
  have hat : namedEntry.graph.GroupAt [] namedEntry :=
    .here (List.mem_cons_of_mem _ List.mem_cons_self) rfl
  have hentered : namedEntry.Entered :=
    ⟨0, "flow:go", rfl, by decide, ⟨⟨1, 0⟩, ⟨2, 0⟩⟩, List.mem_cons_self, rfl, rfl⟩
  have hroutine : namedEntry ∈ routineGroups namedEntry.graph :=
    List.mem_filter.2 ⟨Graph.mem_groups_iff_groupAt.2 hat, by decide⟩
  exact ⟨wellFormed_namedEntry, hat, hentered, fun hiff => hiff.1 hroutine hentered,
    by decide +kernel, by decide +kernel, by decide +kernel⟩

end Module
end FlowGraph
