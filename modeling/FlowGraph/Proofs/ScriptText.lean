import FlowGraph.Proofs.ScriptGrammar
import FlowGraph.Proofs.WellFormed

/-! The script of a graph. Its text is read as one statement for each node, in order, and one for
each link; numbers are read in their canonical form. -/
namespace FlowGraph

/-! ### Canonical numbers everywhere -/

def Value.canonical : Value → Value
  | .number n => .number n.canonical
  | .bool b => .bool b
  | .text s => .text s
  | .vector ns => .vector (ns.map Number.canonical)

def Position.canonical (p : Position) : Position := ⟨p.x.canonical, p.y.canonical⟩

def Size.canonical (s : Size) : Size := ⟨s.width.canonical, s.height.canonical⟩

theorem Size.canonical_agrees (s t : Size) : s.canonical.agrees t = s.agrees t := by
  simp [agrees, canonical, Number.canonical_sameValue]

namespace NameMap

variable {α β : Type}

def map (f : α → β) (m : NameMap α) : NameMap β where
  entries := m.entries.map fun e => (e.1, f e.2)
  sorted := by
    rw [List.map_map]
    exact m.sorted

theorem get?_map (f : α → β) (m : NameMap α) (name : String) :
    (m.map f).get? name = (m.get? name).map f := by
  simp [get?, map, List.find?_map, Function.comp_def, Option.map_map]

end NameMap

def Node.canonical {G : Type} (n : Node G) (inner : Option G) : Node G :=
  { n with
    position := n.position.canonical
    size := n.size.canonical
    fields := n.fields.map Value.canonical
    inner }

theorem Node.text?_canonical {G : Type} (n : Node G) (inner : Option G) (name : String) :
    (n.canonical inner).text? name = n.text? name := by
  have htext : ∀ v : Value, v.canonical.text? = v.text? := fun v => by cases v <;> rfl
  simp only [text?, canonical, NameMap.get?_map]
  cases n.fields.get? name with
  | none => rfl
  | some v => simp [htext]

/-- The graph with canonical numbers at every level. -/
def Graph.canonical : Graph → Graph := fold fun entries links =>
  ⟨entries.map fun (n, inner) => n.canonical inner, links⟩

theorem Graph.canonical_eq (g : Graph) :
    g.canonical = ⟨g.nodes.map fun n => n.canonical (n.inner.map canonical), g.links⟩ := by
  rw [canonical, fold_eq, List.map_map]
  rfl

/-! ### The statements of a graph -/

namespace Script

def placementOf {G : Type} (n : Node G) : Placement :=
  ⟨some n.position, if n.size.agrees .standard then none else some n.size⟩

def nodeDeclOf {G : Type} (n : Node G) : NodeDecl := ⟨n.id, n.type, placementOf n, n.fields⟩

def otherFields {G : Type} (n : Node G) : Fields where
  entries := n.fields.entries.filter (·.1 != "name")
  sorted := n.fields.sorted.sublist (List.filter_sublist.map _)

def groupDeclOf {G : Type} (n : Node G) : GroupDecl :=
  ⟨n.id, n.displayName, placementOf n, n.inputs, n.outputs, otherFields n⟩

/-- The statement of a node; `inside` are the statements of its nested graph. -/
def statementOf {G : Type} (n : Node G) (inside : List Statement) : Statement :=
  if n.isGroup then .group 0 (groupDeclOf n) inside else .node 0 (nodeDeclOf n)

def graphStatements : Graph → List Statement := Graph.fold fun entries links =>
  entries.map (fun (n, inside) => statementOf n (inside.getD [])) ++ links.map (.connect 0)

theorem graphStatements_eq (g : Graph) : graphStatements g =
    g.nodes.map (fun n => statementOf n ((n.inner.map graphStatements).getD [])) ++
      g.links.map (.connect 0) := by
  rw [graphStatements, Graph.fold_eq, List.map_map]
  rfl

def flagStatements (flags : NameMap Bool) : List Statement :=
  flags.entries.map fun (name, value) => .flag 0 name value

def metadataStatements (m : Metadata) : List Statement :=
  .title 0 m.name :: (if m.space.isEmpty then [] else [.space 0 m.space]) ++
    (if m.description.isEmpty then [] else [.description 0 m.description]) ++ flagStatements m.flags

/-! ### The text of a graph -/

theorem reads_valueText (v : Value) : ReadsOpen (valueText v) (valueTokens v.canonical) := by
  cases v with
  | number n => exact reads_numberText n
  | bool b => exact (Spelling.bool b).readsOpen
  | text s => exact (reads_quote s).toOpen
  | vector ns =>
    have h := (reads_bracketed reads_numberText ns).toOpen
    rwa [← Function.comp_def, ← List.map_map] at h

theorem reads_pairText (a b : Number) : Reads (pairText a b) (pairTokens a.canonical b.canonical) :=
  have hopen : Reads "(" [.mark .openParen] := reads_mark [] [] rfl rfl rfl rfl
  have hclose : Reads ")" [.mark .closeParen] := reads_mark [] [] rfl rfl rfl rfl
  (((hopen.appendOpen (reads_numberText a)).append reads_comma rfl).appendOpen
    (reads_numberText b)).append
    hclose rfl

theorem reads_placementText {G : Type} (n : Node G) (inner : Option G) :
    Reads (placementText n) (placementTokens (placementOf (n.canonical inner))) := by
  have hplace : Reads " at " [.keyword .place] := reads_keyword [' '] .place rfl rfl
  have hsize : Reads " size " [.keyword .size] := reads_keyword [' '] .size rfl rfl
  have hposition := hplace.append (reads_pairText n.position.x n.position.y)
  have hagrees : (n.canonical inner).size.agrees .standard = n.size.agrees .standard :=
    n.size.canonical_agrees .standard
  unfold placementText placementOf
  rw [hagrees]
  cases n.size.agrees .standard with
  | true => exact hposition.append (reads_blanks rfl)
  | false => exact hposition.append (hsize.append (reads_pairText n.size.width n.size.height))

theorem reads_labelsText (labels : List String) : Reads (labelsText labels) (labelsTokens labels) :=
  reads_bracketed (fun s => (reads_quote s).toOpen) labels

theorem reads_fieldText (depth : Nat) (entry : String × Value) :
    Reads (fieldText depth entry) (fieldTokens (entry.1, entry.2.canonical)) := by
  have hname := (reads_indent depth).appendOpen (spelling_nameText entry.1).readsOpen
  exact ((hname.append reads_equals rfl).appendOpen (reads_valueText entry.2)).append
    reads_semicolon rfl

theorem reads_fieldsText (depth : Nat) (entries : List (String × Value)) :
    Reads (fieldsText depth entries)
    ((entries.map fun e => (e.1, e.2.canonical)).flatMap fieldTokens) := by
  rw [List.flatMap_map]
  exact reads_join fun entry _ => reads_fieldText depth entry

theorem reads_idText (id : NodeId) : ReadsOpen (idText id) [indexToken id.toNat] :=
  reads_repr id.toNat

theorem reads_endpointText (e : Endpoint) : ReadsOpen (endpointText e) (endpointTokens e) := by
  have hcolon : Reads ":" [.mark .colon] := reads_mark [] [] rfl rfl rfl rfl
  exact ((reads_idText e.node).append hcolon rfl).appendOpen (reads_repr e.port.toNat)

theorem reads_linkText (depth : Nat) (l : Link) :
    Reads (linkText depth l) (Statement.connect 0 l).tokens := by
  have hconnect : Reads "connect " [.keyword .connect] := reads_keyword [] .connect rfl rfl
  have harrow : Reads " -> " [.mark .arrow] :=
    Spelling.arrow.reads [' '] [' '] rfl rfl rfl (fun h => by cases h)
  have hsource := ((reads_indent depth).append hconnect).appendOpen (reads_endpointText l.source)
  exact ((hsource.append harrow rfl).appendOpen (reads_endpointText l.target)).append
    reads_semicolon rfl

theorem reads_nodeText {G : Type} (depth : Nat) (n : Node G) (inner : Option G) :
    Reads (nodeText depth n) (Statement.node 0 (nodeDeclOf (n.canonical inner))).tokens := by
  have hnode : Reads "node " [.keyword .node] := reads_keyword [] .node rfl rfl
  have hid := ((reads_indent depth).append hnode).appendOpen (reads_idText n.id)
  have htype := (hid.append (reads_blanks (s := " ") rfl) rfl).append (reads_quote n.type)
  have hblock : Reads (if n.fields.entries.isEmpty then ";\n"
      else " \x7b\n" ++ fieldsText (depth + 1) n.fields.entries ++ indent depth ++ "\x7d\n")
      (blockTokens (n.fields.map Value.canonical)) := by
    have hempty : (n.fields.map Value.canonical).entries.isEmpty = n.fields.entries.isEmpty := by
      simp [NameMap.map]
    rw [blockTokens, hempty]
    split
    · exact reads_semicolon
    · have hfields := reads_openBrace.append (reads_fieldsText (depth + 1) n.fields.entries)
      have h := (hfields.append (reads_indent depth)).append reads_closeBrace
      simpa [NameMap.map] using h
  have h := (htype.append (reads_placementText n inner)).append hblock
  have htokens : (Statement.node 0 (nodeDeclOf (n.canonical inner))).tokens =
      .keyword .node :: indexToken n.id.toNat :: .text n.type ::
        (placementTokens (placementOf (n.canonical inner)) ++ blockTokens
          (n.fields.map Value.canonical)) := rfl
  rw [htokens]
  simp only [List.nil_append, List.cons_append] at h
  exact h

theorem reads_groupText {G : Type} (depth : Nat) (n : Node G) (inner : Option G) {body : String}
    {inside : List Statement} (hbody : Reads body (inside.flatMap Statement.tokens)) :
    Reads (groupText depth n body)
      (Statement.group 0 (groupDeclOf (n.canonical inner)) inside).tokens := by
  have hgroup : Reads "group " [.keyword .group] := reads_keyword [] .group rfl rfl
  have hinputs : Reads " inputs " [.keyword .inputs] := reads_keyword [' '] .inputs rfl rfl
  have houtputs : Reads " outputs " [.keyword .outputs] := reads_keyword [' '] .outputs rfl rfl
  have hid := ((reads_indent depth).append hgroup).appendOpen (reads_idText n.id)
  have hname := (hid.append (reads_blanks (s := " ") rfl) rfl).append (reads_quote n.displayName)
  have hplacement := hname.append (reads_placementText n inner)
  have hins := (hplacement.append hinputs).append (reads_labelsText n.inputs)
  have houts := (hins.append houtputs).append (reads_labelsText n.outputs)
  have hfields := (houts.append reads_openBrace).append
    (reads_fieldsText (depth + 1) (n.fields.entries.filter (·.1 != "name")))
  have h := ((hfields.append hbody).append (reads_indent depth)).append reads_closeBrace
  have hother : (otherFields (n.canonical inner)).entries =
      (n.fields.entries.filter (·.1 != "name")).map fun e => (e.1, e.2.canonical) := by
    simp [otherFields, Node.canonical, NameMap.map, List.filter_map, Function.comp_def]
  rw [Statement.tokens_group, GroupDecl.headTokens, groupDeclOf, hother, Node.displayName,
    n.text?_canonical]
  simp only [List.nil_append, List.cons_append, List.append_assoc] at h ⊢
  exact h

theorem graphText_eq (g : Graph) (depth : Nat) : graphText g depth =
    String.join (g.nodes.map fun n =>
      if n.isGroup then
        groupText depth n ((n.inner.map fun inner => graphText inner (depth + 1)).getD "")
      else nodeText depth n) ++
    String.join (g.links.map (linkText depth)) := by
  rw [graphText, Graph.fold_eq, List.map_map]
  refine congrArg (String.join · ++ _) (List.map_congr_left fun n _ => ?_)
  cases hi : n.inner <;> simp [hi]

/-- The text of a graph is read as its statements. -/
theorem reads_graphText (g : Graph) (depth : Nat) :
    Reads (graphText g depth) ((graphStatements g.canonical).flatMap Statement.tokens) := by
  induction g using Graph.nestedInduction generalizing depth with
  | step g ih =>
    rw [graphText_eq, graphStatements_eq, Graph.canonical_eq, List.flatMap_append, List.map_map,
      List.flatMap_map, List.flatMap_map]
    refine (reads_join fun n hn => ?_).append (reads_join fun l _ => reads_linkText depth l)
    have hisGroup : (n.canonical (n.inner.map Graph.canonical)).isGroup = n.isGroup := rfl
    rw [Function.comp_apply, statementOf, hisGroup]
    cases n.isGroup with
    | false => exact reads_nodeText depth n _
    | true =>
      refine reads_groupText depth n _ ?_
      cases hi : n.inner with
      | none => exact reads_blanks rfl
      | some inner => exact ih n hn inner hi (depth + 1)

/-- A text of the metadata, which is left out where it is empty. -/
theorem reads_optionalText {lead s : String} {k : Keyword} (statement : Statement)
    (hlead : Reads lead [.keyword k])
    (htokens : statement.tokens = [.keyword k, .text s, .mark .semicolon]) :
    Reads (if s.isEmpty then "" else lead ++ Text.quote s ++ ";\n")
      ((if s.isEmpty then [] else [statement]).flatMap Statement.tokens) := by
  split
  · exact reads_blanks rfl
  · rw [List.flatMap_singleton, htokens]
    exact (hlead.append (reads_quote s)).append reads_semicolon

theorem reads_metadataText (m : Metadata) :
    Reads (metadataText m) ((metadataStatements m).flatMap Statement.tokens) := by
  have htitle : Reads "module " [.keyword .title] := reads_keyword [] .title rfl rfl
  have hflag : Reads "flag " [.keyword .flag] := reads_keyword [] .flag rfl rfl
  have hflags : Reads (String.join (m.flags.entries.map fun (name, value) =>
      "flag " ++ nameText name ++ " = " ++ Value.boolText value ++ ";\n"))
      ((flagStatements m.flags).flatMap Statement.tokens) := by
    rw [flagStatements, List.flatMap_map]
    refine reads_join fun (name, value) _ => ?_
    have hname := (hflag.appendOpen (spelling_nameText name).readsOpen).append reads_equals rfl
    exact (hname.appendOpen (Spelling.bool value).readsOpen).append reads_semicolon rfl
  have hname := (htitle.append (reads_quote m.name)).append reads_semicolon
  have hlead : Reads "namespace " [.keyword .space] := reads_keyword [] .space rfl rfl
  have hspace := reads_optionalText (.space 0 m.space) hlead rfl
  have hlead : Reads "description " [.keyword .description] := reads_keyword [] .description rfl rfl
  have hdescription := reads_optionalText (.description 0 m.description) hlead rfl
  rw [metadataStatements, List.flatMap_append, List.flatMap_append, List.flatMap_cons]
  exact ((hname.append hspace).append hdescription).append hflags

theorem reads_render (m : Metadata) (g : Graph) : Reads (render m g)
    ((metadataStatements m ++ graphStatements g.canonical).flatMap Statement.tokens) := by
  have hline : Reads (if g.isEmpty then "" else "\n") [] := by
    split
    · exact reads_blanks rfl
    · exact reads_blanks rfl
  have h := ((reads_metadataText m).append hline).append (reads_graphText g 0)
  rwa [List.append_nil, ← List.flatMap_append] at h

end Script

/-! ### Reading the text back -/

def Graph.IsReadable (g : Graph) : Prop :=
  g.Everywhere fun h => ∀ l ∈ h.links, Script.ReadablePorts l

theorem Graph.IsReadable.canonical {g : Graph} (h : g.IsReadable) : g.canonical.IsReadable := by
  induction h with
  | @intro g here _ ih =>
    rw [canonical_eq]
    refine .intro here fun n hn inner hi => ?_
    obtain ⟨m, hm, rfl⟩ := List.mem_map.1 hn
    obtain ⟨k, hk, rfl⟩ := Option.map_eq_some_iff.1 hi
    exact ih m hm k hk

namespace Script

theorem isReadable_graphStatements {g : Graph} (h : g.IsReadable) :
    ∀ s ∈ graphStatements g, s.IsReadable := by
  induction h with
  | @intro g here _ ih =>
    intro s hs
    rw [graphStatements_eq] at hs
    rcases List.mem_append.1 hs with hs | hs
    · obtain ⟨n, hn, rfl⟩ := List.mem_map.1 hs
      unfold statementOf
      split
      · refine .intro (fun _ _ h => by cases h) fun t ht => ?_
        cases hi : n.inner with
        | none => simp [Statement.body, hi] at ht
        | some inner =>
          rw [hi] at ht
          exact ih n hn inner hi t ht
      · exact Statement.isReadable_of_plain rfl (fun _ _ h => by cases h)
    · obtain ⟨l, hl, rfl⟩ := List.mem_map.1 hs
      refine .intro (fun line link heq => ?_) fun t ht => by cases ht
      cases heq
      exact here l hl

theorem isReadable_metadataStatements (m : Metadata) :
    ∀ s ∈ metadataStatements m, s.IsReadable := by
  intro s hs
  simp only [metadataStatements, flagStatements, List.mem_append, List.mem_cons, List.mem_map,
    List.mem_ite_nil_left, List.not_mem_nil, or_false] at hs
  obtain ((rfl | ⟨-, rfl⟩) | ⟨-, rfl⟩) | ⟨e, -, rfl⟩ := hs
  · exact Statement.isReadable_of_plain rfl (fun _ _ h => by cases h)
  · exact Statement.isReadable_of_plain rfl (fun _ _ h => by cases h)
  · exact Statement.isReadable_of_plain rfl (fun _ _ h => by cases h)
  · exact Statement.isReadable_of_plain rfl (fun _ _ h => by cases h)

/-- The script of a graph is read as the statements for its metadata, nodes and links. -/
theorem parse_render (m : Metadata) {g : Graph} (h : g.IsReadable) :
    ∃ script, parse (render m g) = .ok script ∧
    script.map Statement.bare = (metadataStatements m ++ graphStatements g.canonical).map
      Statement.bare := by
  have hspells := reads_render m g [] [] .done
  rw [List.append_nil, List.append_nil] at hspells
  obtain ⟨ls, hls, htokens⟩ := hspells.lexemesFrom 0 1
  have hreadable : ∀ s ∈ metadataStatements m ++ graphStatements g.canonical, s.IsReadable :=
    fun s hs =>
    (List.mem_append.1 hs).elim (isReadable_metadataStatements m s)
      (isReadable_graphStatements h.canonical s)
  obtain ⟨script, hscript, hbare⟩ := statements_eq hreadable htokens
  refine ⟨script, ?_, hbare⟩
  rw [parse, lexemes, hls]
  exact congrArg (Except.mapError _) hscript

end Script
end FlowGraph
