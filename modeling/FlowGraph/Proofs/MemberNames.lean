import FlowGraph.Proofs.CheckedGeneration
import FlowGraph.Proofs.Emission

/-! The names of the members of a module. Members are named in turn, each by the first of its
candidates that is free, so no two members have the same name, and none has a name that the class
itself needs. -/
namespace FlowGraph

/-! ### Places of groups -/

/-- A group of a graph at its place, where `path` leads to the graph. Only groups are around it. -/
inductive Graph.GroupAt : Graph → List NodeId → Placed → Prop
  | here {g : Graph} {path : List NodeId} {n : Node Graph} (hn : n ∈ g.nodes)
      (hgroup : n.isGroup = true) :
      GroupAt g path ⟨path, g, n⟩
  | inside {g : Graph} {path : List NodeId} {n : Node Graph} (hn : n ∈ g.nodes)
      (hgroup : n.isGroup = true)
      {inner : Graph} (hi : n.inner = some inner) {q : Placed}
      (hq : GroupAt inner (path ++ [n.id]) q) :
      GroupAt g path q

namespace Graph

theorem mem_groups_iff_groupAt {g : Graph} {path : List NodeId} {q : Placed} :
    q ∈ g.groups path ↔ g.GroupAt path q := by
  constructor
  · intro hq
    induction g using nestedInduction generalizing path with
    | step g ih =>
      obtain ⟨n, hn, hgroup, rfl | ⟨inner, hi, hq⟩⟩ := mem_groups_cases hq
      · exact .here hn hgroup
      · exact .inside hn hgroup hi (ih n hn inner hi hq)
  · intro hq
    induction hq with
    | here hn hgroup =>
      rw [groups_eq]
      exact List.mem_flatMap.2 ⟨_, hn, by rw [if_pos hgroup]; exact List.mem_cons_self⟩
    | inside hn hgroup hi _ ih =>
      rw [groups_eq]
      refine List.mem_flatMap.2 ⟨_, hn, ?_⟩
      rw [if_pos hgroup, hi]
      exact List.mem_cons_of_mem _ ih

/-- The groups are among all nodes, in the same order. -/
theorem map_groups_sublist (g : Graph) (path : List NodeId) :
    ((g.groups path).map fun q => (q.inside, q.node)).Sublist
    (g.listing.map fun p => (path ++ p.1, p.2)) := by
  induction g using nestedInduction generalizing path with
  | step g ih =>
    rw [groups_eq, listing_eq, List.map_flatMap, List.map_flatMap]
    refine List.Sublist.flatMap_right _ fun n hn => ?_
    split
    · rw [List.map_cons, List.map_cons]
      refine .cons_cons _ ?_
      cases hi : n.inner with
      | none => exact List.nil_sublist _
      | some inner =>
        have hinner := ih n hn inner hi (path ++ [n.id])
        simpa only [Option.map_some, Option.getD_some, List.map_map, Function.comp_def,
          List.append_assoc, List.singleton_append] using hinner
    · exact List.nil_sublist _

/-- Where ids ascend at every level, groups stand in the order of their paths. -/
theorem ascending_groups {g : Graph} (h : g.Everywhere fun g => g.nodes.Pairwise (·.id < ·.id)) :
    (g.groups []).Pairwise fun q r => List.Lex (· < ·) q.inside r.inside := by
  have hlisting : (g.listing.map fun p => ([] ++ p.1, p.2)).Pairwise fun p q => List.Lex
      (· < ·) p.1 q.1 :=
    List.pairwise_map.2 (ascending_listing h)
  have hgroups := List.pairwise_map.1 (hlisting.sublist (map_groups_sublist g []))
  exact hgroups

end Graph

namespace Module

/-! ### Names in turn -/

def FirstFree (taken : List String) (wanted : String × NodeId) (name : String) : Prop :=
  ∃ k, name = candidate (Text.identifier wanted.1) wanted.2 k ∧ name ∉ taken ∧
    ∀ j < k, candidate (Text.identifier wanted.1) wanted.2 j ∈ taken

/-- Names chosen one after the other, each the first that is free and taken from then on. -/
inductive NamedInTurn : List String → List (String × NodeId) → List String → Prop
  | nil {taken : List String} : NamedInTurn taken [] []
  | cons {taken : List String} {x : String × NodeId} {name : String}
      (hname : FirstFree taken x name)
      {xs : List (String × NodeId)} {names : List String}
      (hrest : NamedInTurn (name :: taken) xs names) :
      NamedInTurn taken (x :: xs) (name :: names)

theorem firstFree_freeName (taken : List String) (x : String × NodeId) :
    FirstFree taken x (freeName (Text.identifier x.1) x.2 0 taken) := by
  obtain ⟨k, -, -, hname, hfree, htaken⟩ := freeName_spec (Text.identifier x.1) x.2 0 taken
  rw [hname]
  exact ⟨k, rfl, hfree, fun j hj => htaken j (Nat.zero_le _) hj⟩

namespace NamedInTurn

theorem assignNames {α : Type} (wanted : α → String × NodeId) (taken : List String) (xs : List α) :
    NamedInTurn taken (xs.map wanted) ((assignNames wanted taken xs).map Prod.snd) := by
  induction xs generalizing taken with
  | nil => exact .nil
  | cons x xs ih => exact .cons (firstFree_freeName taken (wanted x)) (ih _)

variable {taken : List String} {xs ys : List (String × NodeId)} {names names' : List String}

theorem append (h : NamedInTurn taken xs names)
    (h' : NamedInTurn (names.reverse ++ taken) ys names') :
    NamedInTurn taken (xs ++ ys) (names ++ names') := by
  induction h with
  | nil => exact h'
  | cons hname _ ih =>
    refine .cons hname (ih ?_)
    rwa [List.reverse_cons, List.append_assoc] at h'

/-- What is chosen in turn is new each time. -/
theorem nodup (h : NamedInTurn taken xs names) (htaken : taken.Nodup) : (taken ++ names).Nodup := by
  induction h with
  | nil => rwa [List.append_nil]
  | cons hname _ ih =>
    obtain ⟨k, -, hfree, -⟩ := hname
    exact List.perm_middle.nodup_iff.2 (ih (List.nodup_cons.2 ⟨hfree, htaken⟩))

theorem exists_firstFree (h : NamedInTurn taken xs names) {name : String} (hmem : name ∈ names) :
    ∃ taken x, FirstFree taken x name := by
  induction h with
  | nil => cases hmem
  | cons hname _ ih =>
    rcases List.mem_cons.1 hmem with rfl | hmem
    · exact ⟨_, _, hname⟩
    · exact ih hmem

end NamedInTurn

/-! ### Characters -/

/-- What is written in source as one name: letters, numerals and underscores, of which the first is
no numeral. -/
def IsName (name : String) : Prop :=
  name.toList.all Text.isNameChar = true ∧ ∃ c, name.toList.head? = some c ∧
    Text.isNumeral c = false

theorem isNumeral_of_bounds {c : Char} (h : '0'.toNat ≤ c.toNat ∧ c.toNat ≤ '9'.toNat) :
    Text.isNumeral c = true :=
  List.any_eq_true.2 ⟨(0x30, 0x39), List.mem_cons_self, by simpa using h⟩

theorem isNameChar_of_isNumeral {c : Char} (h : Text.isNumeral c = true) :
    Text.isNameChar c = true := by
  rw [Text.isNameChar, h, Bool.or_true, Bool.true_or]

theorem isNameChar_of_mem_toDigits {n : Nat} {c : Char} (hc : c ∈ Nat.toDigits 10 n) :
    Text.isNameChar c = true := by
  have hdigit := Nat.isDigit_of_mem_toDigits (by decide) (by decide) hc
  rw [Char.isDigit, Bool.and_eq_true, decide_eq_true_eq, decide_eq_true_eq] at hdigit
  exact isNameChar_of_isNumeral (isNumeral_of_bounds hdigit)

theorem isName_identifier (text : String) : IsName (Text.identifier text) := by
  rw [IsName, Text.identifier, String.toList_ofList]
  exact ⟨Text.all_isNameChar_identifierChars _, Text.head?_identifierChars _⟩

theorem IsName.append {name suffix : String} (h : IsName name)
    (hsuffix : suffix.toList.all Text.isNameChar = true) : IsName (name ++ suffix) := by
  obtain ⟨hall, c, hhead, hc⟩ := h
  rw [IsName, String.toList_append, List.all_append, hall, hsuffix, List.head?_append, hhead]
  exact ⟨rfl, c, rfl, hc⟩

theorem isName_candidate {base : String} (h : IsName base) (id : NodeId) (k : Nat) :
    IsName (candidate base id k) := by
  have hmark : "_".toList.all Text.isNameChar = true :=
    List.all_eq_true.2 fun c hc => List.mem_singleton.1 hc ▸ Text.isNameChar_underscore
  have hdigits : ∀ n, (Nat.repr n).toList.all Text.isNameChar = true := fun n => by
    rw [Nat.toList_repr, List.all_eq_true]
    exact fun c => isNameChar_of_mem_toDigits
  rcases k with _ | _ | k
  · exact h
  · exact (h.append hmark).append (hdigits _)
  · exact (((h.append hmark).append (hdigits _)).append hmark).append (hdigits _)

/-! ### Members -/

/-- A node that a section starts at: the section is anchored there, and no flow enters the node. -/
def StartsAt (catalog : Catalog) (root : Graph) (sect : Section) (n : Node Graph) : Prop :=
  n ∈ root.nodes ∧ (∃ t, catalog.find? n.type = some t ∧ t.anchor n = some sect) ∧
    root.hasIncomingFlow n = false

def customTitles (catalog : Catalog) (root : Graph) : List (String × NodeId) :=
  (customSections (anchors ⟨catalog, root, ""⟩)).entries

def routineGroups (root : Graph) : List Placed := (root.groups []).filter (·.isFree)

def customMethods (m : Module) : List SectionMethod := m.sections.drop Section.lifecycle.length

def chosenNames (m : Module) : List String :=
  m.customMethods.map (·.name) ++ m.routines.map (·.name)

theorem mem_anchors {catalog : Catalog} {root : Graph} {p : Section × NodeId} :
    p ∈ anchors ⟨catalog, root, ""⟩ ↔ ∃ n, StartsAt catalog root p.1 n ∧ n.id = p.2 := by
  rw [anchors, List.mem_filterMap]
  simp only [Option.bind_eq_bind, Option.bind_eq_some_iff]
  constructor
  · rintro ⟨n, hn, t, ht, sect, hsect, hsome⟩
    split at hsome
    · cases hsome
    · next hunfed =>
      obtain rfl := Option.some.inj hsome
      exact ⟨n, ⟨hn, ⟨t, ht, hsect⟩, by simpa using hunfed⟩, rfl⟩
  · rintro ⟨n, ⟨hn, ⟨t, ht, hsect⟩, hunfed⟩, hid⟩
    refine ⟨n, hn, t, ht, p.1, hsect, ?_⟩
    rw [hunfed, hid]
    rfl

/-- Anchors are listed by ascending id. -/
theorem ascending_anchors {catalog : Catalog} {root : Graph}
    (h : root.nodes.Pairwise (·.id < ·.id)) :
    (anchors ⟨catalog, root, ""⟩).Pairwise (·.2 < ·.2) := by
  have hids : ((anchors ⟨catalog, root, ""⟩).map Prod.snd).Sublist (root.nodes.map (·.id)) := by
    refine map_filterMap_sublist fun n p hp => ?_
    simp only [Option.bind_eq_bind, Option.bind_eq_some_iff] at hp
    obtain ⟨t, -, sect, -, hsome⟩ := hp
    split at hsome
    · cases hsome
    · rw [← Option.some.inj hsome]
  exact List.pairwise_map.1 ((List.pairwise_map.2 h).sublist hids)

/-- A fold that adds custom sections and passes over others keeps the first id of each. -/
theorem get?_foldl_custom {f : NameMap NodeId → Section × NodeId → NameMap NodeId}
    (hcustom : ∀ m name id, f m (.custom name, id) = m.insertNew name id)
    (hother : ∀ m p, (∀ name, p.1 ≠ .custom name) → f m p = m) (anchors : List (Section × NodeId))
    (title : String) (m : NameMap NodeId) : (anchors.foldl f m).get? title =
      (m.get? title).or ((anchors.find? (·.1 == .custom title)).map Prod.snd) := by
  induction anchors generalizing m with
  | nil => simp
  | cons p anchors ih =>
    obtain ⟨sect, id⟩ := p
    rw [List.foldl_cons, ih]
    cases sect with
    | custom name =>
      rw [hcustom, NameMap.get?_insertNew, Option.or_assoc]
      by_cases hname : title = name
      · rw [if_pos hname, List.find?_cons_of_pos (by simp [hname]), Option.some_or, Option.map_some]
      · rw [if_neg hname, List.find?_cons_of_neg (by simpa using fun h => hname h.symm),
          Option.none_or]
    | _ => simp [hother]

/-- A custom section has the id of the first anchor in the list. -/
theorem get?_customSections (anchors : List (Section × NodeId)) (title : String) :
    (customSections anchors).get? title = (anchors.find? (·.1 == .custom title)).map Prod.snd := by
  rw [customSections, get?_foldl_custom (fun _ _ _ => rfl)]
  · exact Option.none_or
  · intro m p hp
    obtain ⟨sect, id⟩ := p
    cases sect with
    | custom name => exact absurd rfl (hp name)
    | _ => rfl

/-- The groups that become routines, whatever the catalog writes in them. -/
theorem map_fst_freeGroups (catalog : Catalog) (g : Graph) (path : List NodeId) (stem : String) :
    (freeGroups catalog g stem).map Prod.fst =
      ((g.groups path).filter (·.isFree)).map (·.node) := by
  induction g using Graph.nestedInduction generalizing path stem with
  | step g ih =>
    rw [freeGroups_eq, List.map_flatMap, List.map_eq_flatMap (f := Placed.node),
      Graph.flatMap_free_eq]
    refine List.flatMap_congr fun n hn => ?_
    split
    · rw [List.map_append]
      congr 1
      · split <;> rfl
      · cases hi : n.inner with
        | none => rfl
        | some inner =>
          rw [Option.map_some, Option.getD_some, ih n hn inner hi (path ++ [n.id]),
            List.map_eq_flatMap]
          rfl
    · rfl

structure NamesMembers (catalog : Catalog) (root : Graph) (m : Module) : Prop where
  /-- No two members have the same name, nor that of the constructor or the base class. -/
  nodup : (["constructor", "super"] ++ (m.sections.map (·.name) ++ m.routines.map (·.name))).Nodup
  /-- The lifecycle comes first, under names of its own. -/
  hooks : (m.sections.take Section.lifecycle.length).map (fun x => (x.sect, x.name)) =
    [(.init, "start"), (.update, "update"), (.render, "render"), (.teardown, "destroy")]
  /-- Custom sections follow by ascending title. -/
  titles : m.customMethods.map (·.sect) = (customTitles catalog root).map fun e => .custom e.1
  ascending_titles : ((customTitles catalog root).map Prod.fst).Pairwise (· < ·)
  /-- Each title that a section starts at is there, with the lowest id of the nodes that it starts
  at. -/
  lowest : root.nodes.Pairwise (·.id < ·.id) → ∀ title id, (title, id) ∈ customTitles catalog root ↔
    (∃ n, StartsAt catalog root (.custom title) n ∧ n.id = id) ∧
      ∀ n, StartsAt catalog root (.custom title) n → id ≤ n.id
  /-- The routines are the groups at any depth that no flow enters, by ascending paths. -/
  groups : m.routines.map (·.group) = (routineGroups root).map (·.node.id)
  mem_routineGroups : ∀ q, q ∈ routineGroups root ↔ root.GroupAt [] q ∧
    q.graph.hasIncomingFlow q.node = false
  ascending_groups : root.Everywhere (fun g => g.nodes.Pairwise (·.id < ·.id)) →
    (routineGroups root).Pairwise fun q r => List.Lex (· < ·) q.inside r.inside
  /-- Custom sections and then routines get the first free name in turn. -/
  chosen : NamedInTurn reserved
    (customTitles catalog root ++ (routineGroups root).map fun q => (q.node.displayName, q.node.id))
      m.chosenNames
  /-- What is chosen is written as one name. -/
  isName : ∀ name ∈ m.chosenNames, IsName name

section Generated

variable {catalog : Catalog} {options : Options} {metadata : Metadata} {root : Graph} {m : Module}

theorem members_of_generate (h : generate catalog options metadata root = .ok m) :
    ∃ hooks custom, m.sections = hooks ++ custom ∧
      hooks.map (fun x => (x.sect, x.name)) = Section.lifecycle.map
      (fun sect => (sect, sect.hook)) ∧
      custom.map (·.sect) = (customTitles catalog root).map (fun e => .custom e.1) ∧
      m.routines.map (·.group) = (routineGroups root).map (·.node.id) ∧
      NamedInTurn reserved (customTitles catalog root) (custom.map (·.name)) ∧
      NamedInTurn ((custom.map (·.name)).reverse ++ reserved)
        ((routineGroups root).map fun q => (q.node.displayName, q.node.id))
        (m.routines.map (·.name)) := by
  have hgroups := map_fst_freeGroups catalog root [] ""
  rw [generate] at h
  split at h
  · cases h
  · obtain rfl := Except.ok.inj h
    refine ⟨_, _, rfl, ?_, ?_, ?_, ?_, ?_⟩
    · rw [List.map_map]
      rfl
    · rw [List.map_map]
      exact map_assignNames (fun e : String × NodeId => Section.custom e.1) _ _ _
    · rw [List.map_map]
      refine (map_assignNames (fun x : Node Graph × String => x.1.id) _ _ _).trans ?_
      have hids := congrArg (List.map Node.id) hgroups
      rwa [List.map_map, List.map_map] at hids
    · rw [List.map_map]
      have hnamed := NamedInTurn.assignNames id reserved (customTitles catalog root)
      rwa [List.map_id] at hnamed
    · have hwanted : (routineGroups root).map (fun q => (q.node.displayName, q.node.id)) =
          (freeGroups catalog root "").map fun x => (x.1.displayName, x.1.id) := by
        have hnames := congrArg (List.map fun n => (n.displayName, n.id)) hgroups
        rw [List.map_map, List.map_map] at hnames
        exact hnames.symm
      rw [hwanted, List.map_map (l := assignNames _ _ (freeGroups catalog root ""))]
      exact NamedInTurn.assignNames _ _ _

/-- The first anchor of a custom section is its lowest. -/
theorem lowest_of_find? (h : root.nodes.Pairwise (·.id < ·.id)) {title : String}
    {p : Section × NodeId}
    (hfind : (anchors ⟨catalog, root, ""⟩).find? (·.1 == .custom title) = some p) :
    (∃ n, StartsAt catalog root (.custom title) n ∧ n.id = p.2) ∧
      ∀ n, StartsAt catalog root (.custom title) n → p.2 ≤ n.id := by
  have hasc : (anchors ⟨catalog, root, ""⟩).Pairwise (·.2 < ·.2) := ascending_anchors h
  obtain ⟨hsect, front, back, hsplit, hfront⟩ := List.find?_eq_some_iff_append.1 hfind
  obtain ⟨sect, id⟩ := p
  obtain rfl : sect = .custom title := beq_iff_eq.1 hsect
  refine ⟨mem_anchors.1 (List.mem_of_find?_eq_some hfind), fun n hn => ?_⟩
  have hmem : (Section.custom title, n.id) ∈ anchors ⟨catalog, root, ""⟩ :=
    mem_anchors.2 ⟨n, hn, rfl⟩
  rw [hsplit, List.pairwise_append, List.pairwise_cons] at hasc
  rw [hsplit, List.mem_append, List.mem_cons] at hmem
  rcases hmem with hmem | hmem | hmem
  · simpa using hfront _ hmem
  · exact UInt32.le_of_eq (Prod.mk.inj hmem).2.symm
  · exact UInt32.le_of_lt (hasc.2.1.1 _ hmem)

theorem mem_customTitles_iff (h : root.nodes.Pairwise (·.id < ·.id)) {title : String}
    {id : NodeId} :
    (title, id) ∈ customTitles catalog root ↔
      (∃ n, StartsAt catalog root (.custom title) n ∧ n.id = id) ∧
      ∀ n, StartsAt catalog root (.custom title) n → id ≤ n.id := by
  rw [customTitles, NameMap.mem_entries_iff, get?_customSections, Option.map_eq_some_iff]
  constructor
  · rintro ⟨p, hfind, rfl⟩
    exact lowest_of_find? h hfind
  · rintro ⟨⟨n, hn, rfl⟩, hlow⟩
    have hmem : (Section.custom title, n.id) ∈ anchors ⟨catalog, root, ""⟩ :=
      mem_anchors.2 ⟨n, hn, rfl⟩
    cases hfind : (anchors ⟨catalog, root, ""⟩).find? (·.1 == .custom title) with
    | none => simpa using List.find?_eq_none.1 hfind _ hmem
    | some p =>
      obtain ⟨⟨n', hn', hid⟩, hlow'⟩ := lowest_of_find? h hfind
      exact ⟨p, rfl, UInt32.le_antisymm (hlow' n hn) (hid ▸ hlow n' hn')⟩

/-- In every module that is generated, members have names that tell them apart. -/
theorem generate_namesMembers (h : generate catalog options metadata root = .ok m) :
    NamesMembers catalog root m := by
  obtain ⟨hooks, custom, hsections, hhooks, htitles, hgroups, hcustom, hroutines⟩ :=
    members_of_generate h
  have hlength : hooks.length = Section.lifecycle.length := by
    simpa only [List.length_map] using congrArg List.length hhooks
  have hmethods : m.customMethods = custom := by
    rw [customMethods, hsections, ← hlength, List.drop_left]
  have hchosen := hcustom.append hroutines
  rw [← hmethods] at hchosen htitles
  have hnames : m.sections.map (·.name) =
      Section.lifecycle.map Section.hook ++ m.customMethods.map (·.name) := by
    have hhooks := congrArg (List.map Prod.snd) hhooks
    rw [List.map_map, List.map_map] at hhooks
    rw [hmethods, hsections, List.map_append]
    exact congrArg (· ++ _) hhooks
  exact {
    nodup := by
      have hnodup := hchosen.nodup (by decide)
      rw [hnames, List.append_assoc, ← List.append_assoc]
      exact hnodup
    hooks := by rw [hsections, ← hlength, List.take_left, hhooks]; rfl
    titles := htitles
    ascending_titles := NameMap.sorted _
    lowest := fun hroot _ _ => mem_customTitles_iff hroot
    groups := hgroups
    mem_routineGroups := fun q => by
      rw [routineGroups, List.mem_filter, Graph.mem_groups_iff_groupAt, Placed.isFree,
        Bool.not_eq_true']
    ascending_groups := fun hroot => (Graph.ascending_groups hroot).filter _
    chosen := hchosen
    isName := fun name hmem => by
      obtain ⟨taken, x, k, rfl, -, -⟩ := hchosen.exists_firstFree hmem
      exact isName_candidate (isName_identifier _) _ _ }

end Generated

def crowded : Graph :=
  let named (id : NodeId) (name : String) : Node Graph :=
    { (Node.ofType id "custom-event" [] ["flow"] : Node Graph) with
      fields := .ofList [("name", .text name)] }
  ⟨[named 1 "super", named 2 "start",
    .group 3 "A" [] []
      ⟨[.group 3 "A" [] [] ⟨[.group 3 "A" [] [] .empty], []⟩, .group 4 "1 2" ["flow"] [] .empty],
      []⟩], []⟩

theorem generate_namesMembers_crowded :
    ∃ m, generate .standard .standard (.ofName "Module") crowded = .ok m ∧
    m.chosenNames = ["start_2", "super_1", "A", "A_3", "A_3_2", "_1_2"] ∧
      NamesMembers .standard crowded m := by
  have hnames : (generate .standard .standard (.ofName "Module") crowded).map chosenNames =
      .ok ["start_2", "super_1", "A", "A_3", "A_3_2", "_1_2"] := by decide +kernel
  cases hm : generate .standard .standard (.ofName "Module") crowded with
  | error e =>
    rw [hm] at hnames
    cases hnames
  | ok m =>
    rw [hm] at hnames
    exact ⟨m, rfl, Except.ok.inj hnames, generate_namesMembers hm⟩

end Module
end FlowGraph
