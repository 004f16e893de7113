import FlowGraph.Proofs.Snapshots

/-! Documents of stored graphs. Any record stands for a well-formed graph, however little sense it
makes: of the nodes of one id the first is taken, and of the links into one input the last that
joins what may be joined. Storing a graph again gives a normal form. -/
namespace FlowGraph

/-- The first of the nodes with an id, where those of other types than admitted do not count. -/
def IsFirst {G : Type} (admits : String → Prop) (nodes : List (Node G)) (n : Node G) : Prop :=
  ∃ front back, nodes = front ++ n :: back ∧ admits n.type ∧ ∀ m ∈ front,
    admits m.type → m.id ≠ n.id

/-- The last of the links into an input, where those that are not valid do not count. -/
def IsLast (valid : Link → Prop) (links : List Link) (l : Link) : Prop :=
  ∃ front back, links = front ++ l :: back ∧ valid l ∧ ∀ k ∈ back, valid k → k.target ≠ l.target

section First

variable {G H : Type} {admits : String → Prop} {nodes : List (Node G)} {n k : Node G}

theorem IsFirst.mem (h : IsFirst admits nodes n) : n ∈ nodes := by
  obtain ⟨front, back, rfl, -, -⟩ := h
  simp

theorem IsFirst.admitted (h : IsFirst admits nodes n) : admits n.type := by
  obtain ⟨front, back, -, hadmits, -⟩ := h
  exact hadmits

theorem isFirst_concat : IsFirst admits (nodes ++ [k]) n ↔
    IsFirst admits nodes n ∨
      (n = k ∧ admits k.type ∧ ∀ m ∈ nodes, admits m.type → m.id ≠ k.id) := by
  constructor
  · rintro ⟨front, back, hnodes, hadmits, hfront⟩
    cases back using List.reverseRecOn with
    | nil =>
      obtain ⟨rfl, heq⟩ := List.append_inj' hnodes rfl
      obtain rfl : k = n := List.singleton_inj.1 heq
      exact .inr ⟨rfl, hadmits, hfront⟩
    | append_singleton back last =>
      rw [← List.cons_append, ← List.append_assoc] at hnodes
      exact .inl ⟨front, back, (List.append_inj' hnodes rfl).1, hadmits, hfront⟩
  · rintro (⟨front, back, rfl, hadmits, hfront⟩ | ⟨rfl, hadmits, hfront⟩)
    · exact ⟨front, back ++ [k], by simp, hadmits, hfront⟩
    · exact ⟨nodes, [], rfl, hadmits, hfront⟩

/-- There is a first one for every id that an admitted node has. -/
theorem exists_isFirst (hk : k ∈ nodes) (hadmits : admits k.type) :
    ∃ m, IsFirst admits nodes m ∧ m.id = k.id := by
  classical
  have hsome : (nodes.find? fun m => decide (admits m.type ∧ m.id = k.id)).isSome :=
    List.find?_isSome.2 ⟨k, hk, by simp [hadmits]⟩
  obtain ⟨m, hm⟩ := Option.isSome_iff_exists.1 hsome
  obtain ⟨hfound, front, back, hnodes, hfront⟩ := List.find?_eq_some_iff_append.1 hm
  have hfound : admits m.type ∧ m.id = k.id := by simpa using hfound
  refine ⟨m, ⟨front, back, hnodes, hfound.1, fun j hj hjadmits hid => ?_⟩, hfound.2⟩
  simpa [hjadmits, hid.trans hfound.2] using hfront j hj

/-- What is read of the nodes does not matter, as long as ids and types stay. -/
theorem isFirst_map {f : Node G → Node H} (hid : ∀ n, (f n).id = n.id)
    (htype : ∀ n, (f n).type = n.type) {m : Node H} :
    IsFirst admits (nodes.map f) m ↔ ∃ n, IsFirst admits nodes n ∧ m = f n := by
  constructor
  · rintro ⟨front, back, hnodes, hadmits, hfront⟩
    obtain ⟨front, rest, rfl, rfl, hrest⟩ := List.map_eq_append_iff.1 hnodes
    obtain ⟨n, back, rfl, rfl, rfl⟩ := List.map_eq_cons_iff.1 hrest
    refine ⟨n, ⟨front, back, rfl, htype n ▸ hadmits, fun j hj hjadmits => ?_⟩, rfl⟩
    have hne := hfront (f j) (List.mem_map.2 ⟨j, hj, rfl⟩) (by rwa [htype])
    rwa [hid, hid] at hne
  · rintro ⟨n, ⟨front, back, rfl, hadmits, hfront⟩, rfl⟩
    refine ⟨front.map f, back.map f, by simp, by rwa [htype], fun j hj hjadmits => ?_⟩
    obtain ⟨k, hk, rfl⟩ := List.mem_map.1 hj
    rw [hid, hid]
    exact hfront k hk (by rwa [htype] at hjadmits)

end First

theorem isLast_concat {valid : Link → Prop} {links : List Link} {k l : Link} :
    IsLast valid (links ++ [k]) l ↔
    (valid k ∧ l = k) ∨ (IsLast valid links l ∧ (valid k → k.target ≠ l.target)) := by
  constructor
  · rintro ⟨front, back, hlinks, hvalid, hback⟩
    cases back using List.reverseRecOn with
    | nil =>
      obtain rfl : k = l := List.singleton_inj.1 (List.append_inj' hlinks rfl).2
      exact .inl ⟨hvalid, rfl⟩
    | append_singleton back last =>
      rw [← List.cons_append, ← List.append_assoc] at hlinks
      obtain ⟨rfl, heq⟩ := List.append_inj' hlinks rfl
      obtain rfl : k = last := List.singleton_inj.1 heq
      exact .inr ⟨⟨front, back, rfl, hvalid, fun j hj => hback j (by simp [hj])⟩, hback k (by simp)⟩
  · rintro (⟨hvalid, rfl⟩ | ⟨⟨front, back, rfl, hvalid, hback⟩, hlast⟩)
    · exact ⟨links, [], rfl, hvalid, by simp⟩
    · refine ⟨front, back ++ [k], by simp, hvalid, fun j hj => ?_⟩
      rcases List.mem_append.1 hj with hj | hj
      · exact hback j hj
      · rw [List.mem_singleton.1 hj]
        exact hlast

namespace GraphRecord

/-- What a graph takes from a record: at every level the first node of each id and the last valid
link into each input, and nothing else. In nested records all types are admitted. -/
inductive Restores : (String → Prop) → GraphRecord → Graph → Prop
  | intro {admits : String → Prop} {r : GraphRecord} {g : Graph}
      (ascending : g.nodes.Pairwise (·.id < ·.id))
      (taken : ∀ n, IsFirst admits r.nodes n →
        ∃ m ∈ g.nodes, m = n.withInner m.inner ∧ m.inner.isSome = n.inner.isSome)
      (only : ∀ m ∈ g.nodes, ∃ n, IsFirst admits r.nodes n ∧ n.id = m.id)
      (inside : ∀ n, IsFirst admits r.nodes n → ∀ m ∈ g.nodes, m.id = n.id → ∀ record inner,
        n.inner = some record → m.inner = some inner → Restores (fun _ => True) record inner)
      (links : ∀ l, l ∈ g.links ↔ IsLast g.Joins (r.links ++ r.boundaryLinks) l)
      (order : g.links.Sublist (r.links ++ r.boundaryLinks)) : Restores admits r g

/-! ### Nodes -/

theorem addNodes_append (add : Graph → Node Graph → Except EditError Graph)
    (front : List (Node Graph)) (n : Node Graph) : addNodes add (front ++ [n]) =
      match add (addNodes add front) n with | .ok h => h | .error _ => addNodes add front := by
  rw [addNodes, List.foldl_append]
  rfl

/-- The nodes that are taken, one by one. -/
theorem mem_addNodes {add : Graph → Node Graph → Except EditError Graph} {admits : String → Prop}
    (hadd : ∀ g n h, add g n = .ok h ↔ admits n.type ∧ g.insert n = .ok h)
    (nodes : List (Node Graph)) (m : Node Graph) :
    m ∈ (addNodes add nodes).nodes ↔ IsFirst admits nodes m := by
  induction nodes using List.reverseRecOn generalizing m with
  | nil =>
    constructor
    · intro hm
      cases hm
    · intro hm
      cases hm.mem
  | append_singleton front n ih =>
    have hfree : (∀ k ∈ (addNodes add front).nodes, k.id ≠ n.id) ↔ ∀ k ∈ front, admits k.type →
        k.id ≠ n.id := by
      constructor
      · intro h k hk hadmits
        obtain ⟨j, hj, hid⟩ := exists_isFirst hk hadmits
        exact hid ▸ h j ((ih j).2 hj)
      · intro h k hk
        have hfirst := (ih k).1 hk
        exact h k hfirst.mem hfirst.admitted
    rw [addNodes_append, isFirst_concat, ← ih m, ← hfree]
    cases hok : add (addNodes add front) n with
    | ok h =>
      obtain ⟨hadmits, hins⟩ := (hadd _ _ _).1 hok
      obtain ⟨hnew, rfl⟩ := Graph.insert_eq_ok_iff.1 hins
      show m ∈ Graph.place n _ ↔ _
      rw [Graph.mem_place]
      constructor
      · rintro (rfl | hm)
        · exact .inr ⟨rfl, hadmits, hnew⟩
        · exact .inl hm
      · rintro (hm | ⟨rfl, -, -⟩)
        · exact .inr hm
        · exact .inl rfl
    | error e =>
      -- what is refused is no first node
      refine ⟨.inl, fun h => h.resolve_right ?_⟩
      rintro ⟨rfl, hadmits, hnew⟩
      have hins := Graph.insert_eq_ok_iff.2 ⟨hnew, rfl⟩
      rw [(hadd _ _ _).2 ⟨hadmits, hins⟩] at hok
      cases hok

/-! ### Links -/

theorem connectLink_of_joins {g : Graph} (hasc : g.nodes.Pairwise (·.id < ·.id)) {l : Link}
    (hl : g.Joins l) :
    g.connectLink l = .ok { g with links := g.links.filter (·.target != l.target) ++ [l] } := by
  obtain ⟨a, b, ha, hb, hjoin⟩ := Graph.resolve_of_joins hasc hl
  simp [Graph.connectLink, Graph.connect, ha, hb, hjoin, bind, Except.bind, pure,
    Except.pure, Except.map]

theorem joins_of_connectLink {g h : Graph} {l : Link} (hok : g.connectLink l = .ok h) :
    g.Joins l := by
  apply Graph.joins_of_fits
  simp only [Graph.connectLink, Graph.connect] at hok
  cases ha : g.resolve ⟨l.source.node, .output, l.source.port⟩ with
  | error e => simp [ha, bind, Except.bind, Except.map] at hok
  | ok a =>
    cases hb : g.resolve ⟨l.target.node, .input, l.target.port⟩ with
    | error e => simp [ha, hb, bind, Except.bind, Except.map] at hok
    | ok b =>
      cases hjoin : a.join b with
      | error e => simp [ha, hb, hjoin, bind, Except.bind, Except.map] at hok
      | ok u => simp [Graph.fits, ha, hb, hjoin, Except.toBool]

theorem addLinks_append (g : Graph) (front : List Link) (l : Link) : addLinks g (front ++ [l]) =
    match (addLinks g front).connectLink l with | .ok h => h | .error _ => addLinks g front := by
  rw [addLinks, List.foldl_append]
  rfl

section Links

variable {nodes : List (Node Graph)} (hasc : nodes.Pairwise (·.id < ·.id))

include hasc

/-- One more link: it takes the place of a link into its input if it is valid, and is left out if
not. -/
theorem addLinks_step (front : List Link) (l : Link)
    (hnodes : (addLinks ⟨nodes, []⟩ front).nodes = nodes) :
    ((⟨nodes, []⟩ : Graph).Joins l ∧ addLinks ⟨nodes, []⟩ (front ++ [l]) =
        ⟨nodes, (addLinks ⟨nodes, []⟩ front).links.filter (·.target != l.target) ++ [l]⟩) ∨
      (¬(⟨nodes, []⟩ : Graph).Joins l ∧
        addLinks ⟨nodes, []⟩ (front ++ [l]) = addLinks ⟨nodes, []⟩ front) := by
  have hjoins : (addLinks ⟨nodes, []⟩ front).Joins l ↔ (⟨nodes, []⟩ : Graph).Joins l :=
    Graph.joins_congr hnodes
  rw [addLinks_append]
  by_cases hl : (⟨nodes, []⟩ : Graph).Joins l
  · have hasc' : (addLinks ⟨nodes, []⟩ front).nodes.Pairwise (·.id < ·.id) := by rwa [hnodes]
    have hok := connectLink_of_joins hasc' (hjoins.2 hl)
    rw [hnodes] at hok
    exact .inl ⟨hl, by rw [hok]⟩
  · cases hok : (addLinks ⟨nodes, []⟩ front).connectLink l with
    | ok h => exact absurd (hjoins.1 (joins_of_connectLink hok)) hl
    | error e => exact .inr ⟨hl, rfl⟩

theorem nodes_addLinks (links : List Link) : (addLinks ⟨nodes, []⟩ links).nodes = nodes := by
  induction links using List.reverseRecOn with
  | nil => rfl
  | append_singleton front l ih =>
    rcases addLinks_step hasc front l ih with ⟨-, heq⟩ | ⟨-, heq⟩
    · rw [heq]
    · rw [heq, ih]

theorem addLinks_sublist (links : List Link) :
    (addLinks ⟨nodes, []⟩ links).links.Sublist links := by
  induction links using List.reverseRecOn with
  | nil => exact .slnil
  | append_singleton front l ih =>
    rcases addLinks_step hasc front l (nodes_addLinks hasc front) with ⟨-, heq⟩ | ⟨-, heq⟩
    · rw [heq]
      exact (List.filter_sublist.trans ih).append (List.Sublist.refl _)
    · rw [heq]
      exact ih.trans (List.sublist_append_left _ _)

/-- The links that are taken, one by one. -/
theorem mem_addLinks (links : List Link) (l : Link) :
    l ∈ (addLinks ⟨nodes, []⟩ links).links ↔ IsLast (⟨nodes, []⟩ : Graph).Joins links l := by
  induction links using List.reverseRecOn with
  | nil =>
    constructor
    · intro hl
      cases hl
    · rintro ⟨front, back, hnil, -, -⟩
      simp at hnil
  | append_singleton front k ih =>
    rw [isLast_concat, ← ih]
    rcases addLinks_step hasc front k (nodes_addLinks hasc front) with ⟨hk, heq⟩ | ⟨hk, heq⟩
    · simp only [heq, List.mem_append, List.mem_filter, List.mem_singleton, bne_iff_ne, ne_eq,
        hk, true_and, true_implies, eq_comm (a := l.target)]
      exact or_comm
    · simp [heq, hk]

end Links

/-! ### Records -/

section Rebuild

variable {add : Graph → Node Graph → Except EditError Graph} {admits : String → Prop}

theorem ascending_addNodes (hadd : ∀ g n h, add g n = .ok h ↔ admits n.type ∧ g.insert n = .ok h)
    (nodes : List (Node Graph)) :
    (addNodes add nodes).nodes.Pairwise (·.id < ·.id) ∧ (addNodes add nodes).links = [] := by
  refine addNodes_keeps (P := fun g => g.nodes.Pairwise (·.id < ·.id) ∧ g.links = []) ⟨.nil, rfl⟩ ?_
  rintro n - g h ⟨hasc, hlinks⟩ hok
  obtain ⟨hnew, rfl⟩ := Graph.insert_eq_ok_iff.1 ((hadd g n h).1 hok).2
  exact ⟨Graph.ascending_place hasc hnew, hlinks⟩

/-- The graph that is built of a record, where what is nested in it is restored already. -/
theorem restores_rebuild (hadd : ∀ g n h, add g n = .ok h ↔ admits n.type ∧ g.insert n = .ok h)
    {r : GraphRecord} {read : GraphRecord → Graph}
    (hread : ∀ n ∈ r.nodes, ∀ record, n.inner = some record →
      Restores (fun _ => True) record (read record)) :
    Restores admits r
      (rebuild add (r.nodes.map fun n => (n, n.inner.map read)) r.links r.boundaryLinks) := by
  have hentries : (r.nodes.map fun n => (n, n.inner.map read)).map (fun e => e.1.withInner e.2) =
      r.nodes.map fun n => n.withInner (n.inner.map read) := by
    simp [Function.comp_def]
  obtain ⟨hasc, hlinks⟩ :=
    ascending_addNodes hadd (r.nodes.map fun n => n.withInner (n.inner.map read))
  have hmem : ∀ m, m ∈ (addNodes add (r.nodes.map fun n => n.withInner (n.inner.map read))).nodes ↔
      ∃ n, IsFirst admits r.nodes n ∧ m = n.withInner (n.inner.map read) := by
    intro m
    rw [mem_addNodes hadd]
    exact isFirst_map (f := fun n => n.withInner (n.inner.map read)) (fun _ => rfl) (fun _ => rfl)
  rw [rebuild, hentries]
  generalize addNodes add (r.nodes.map fun n => n.withInner (n.inner.map read)) =
    g at hasc hlinks hmem
  obtain ⟨nodes, links⟩ := g
  obtain rfl : links = [] := hlinks
  have hnodes := nodes_addLinks hasc (r.links ++ r.boundaryLinks)
  have hjoins : ∀ l, (addLinks ⟨nodes, []⟩ (r.links ++ r.boundaryLinks)).Joins l ↔
      (⟨nodes, []⟩ : Graph).Joins l :=
    fun l => Graph.joins_congr hnodes
  refine .intro ?_ ?_ ?_ ?_ ?_ (addLinks_sublist hasc _)
  · rwa [hnodes]
  · intro n hn
    rw [hnodes]
    exact ⟨n.withInner (n.inner.map read), (hmem _).2 ⟨n, hn, rfl⟩, rfl, Option.isSome_map⟩
  · intro m hm
    rw [hnodes] at hm
    obtain ⟨n, hn, rfl⟩ := (hmem m).1 hm
    exact ⟨n, hn, rfl⟩
  · intro n hn m hm hid record inner hrecord hinner
    rw [hnodes] at hm
    -- ids are unique, so that this is the node that was taken
    have hsame : m = n.withInner (n.inner.map read) :=
      Graph.eq_of_mem_of_id_eq hasc hm ((hmem _).2 ⟨n, hn, rfl⟩) hid
    rw [hsame] at hinner
    have hread' : inner = read record := by
      have hsome : n.inner.map read = some inner := hinner
      rw [hrecord] at hsome
      exact (Option.some.inj hsome).symm
    rw [hread']
    exact hread n hn.mem record hrecord
  · intro l
    rw [mem_addLinks hasc, funext fun l => propext (hjoins l)]

end Rebuild

theorem restores_toNestedGraph (r : GraphRecord) : Restores (fun _ => True) r r.toNestedGraph := by
  induction r using nestedInduction with
  | step r ih =>
    rw [toNestedGraph, fold_eq]
    exact restores_rebuild (by simp) ih

theorem restores_toGraph (r : GraphRecord) :
    Restores (fun type => ∀ side, type ≠ Node.boundaryType side) r r.toGraph := by
  refine restores_rebuild (fun g n h => ?_) fun n _ record _ => restores_toNestedGraph record
  constructor
  · intro hok
    obtain ⟨hplain, hins⟩ := Graph.insert_of_add hok
    refine ⟨fun side htype => ?_, hins⟩
    rw [Node.isBoundary_iff.2 ⟨side, htype⟩] at hplain
    cases hplain
  · rintro ⟨htype, hins⟩
    have hplain : ¬n.isBoundary = true := fun hb => by
      obtain ⟨side, hside⟩ := Node.isBoundary_iff.1 hb
      exact htype side hside
    rw [Graph.add, if_neg hplain, hins]

end GraphRecord

namespace ProjectFile

def normalized (p : ProjectFile) : Except FileError ProjectFile := p.toDocument.map ofDocument

theorem toDocument_eq (p : ProjectFile) (h : p.version = projectVersion) :
    p.toDocument = .ok (.ofGraph p.metadata p.viewport p.root.toGraph) := by
  rw [toDocument, if_pos h]

/-- The file of a document without open groups stands for the document with its links regrouped. -/
theorem toDocument_ofDocument {m : Metadata} {v : Viewport} {g : Graph} (hg : g.WellFormed)
    (hplain : g.Plain) :
    (ofDocument (.ofGraph m v g)).toDocument = .ok (Document.ofGraph m v g).regroup := by
  have hversion : (ofDocument (.ofGraph m v g)).version = projectVersion := rfl
  have hroot : (ofDocument (.ofGraph m v g)).root.toGraph = g.regroup :=
    GraphRecord.toGraph_ofGraph hg hplain
  rw [toDocument, if_pos hversion, hroot]
  rfl

theorem ofDocument_regroup (d : Document) : ofDocument d.regroup = ofDocument d := by
  have hroot : GraphRecord.ofGraph d.regroup.root = GraphRecord.ofGraph d.root := by
    rw [Document.root, Document.root, Document.regroup, Focus.root_regroup,
      GraphRecord.ofGraph_regroup]
  rw [ofDocument, hroot]
  rfl

/-- What is saved of a document comes back as it is from the next load and save. -/
theorem normalized_ofDocument (metadata : Metadata) (viewport : Viewport) {g : Graph}
    (hg : g.WellFormed) (hplain : g.Plain) :
    (ofDocument (.ofGraph metadata viewport g)).normalized =
    .ok (ofDocument (.ofGraph metadata viewport g)) := by
  rw [normalized, toDocument_ofDocument hg hplain]
  exact congrArg Except.ok (ofDocument_regroup _)

/-- Every file of the supported version gives a document. Its graph is well-formed, has no boundary
nodes, and has taken from the file the first node of each id and the last valid link into each
input, at every level. What is saved of the document comes back as it is from the next load and
save. -/
theorem restores_toDocument (p : ProjectFile) (hversion : p.version = projectVersion) :
    ∃ d, p.toDocument = .ok d ∧ d.metadata = p.metadata ∧ d.viewport = p.viewport ∧
      d.focus.frames = [] ∧
      d.root.WellFormed ∧ (∀ n ∈ d.root.nodes, ∀ side, n.type ≠ Node.boundaryType side) ∧
      p.root.Restores (fun type => ∀ side, type ≠ Node.boundaryType side) d.root ∧
      ∃ q, p.normalized = .ok q ∧ q = ofDocument d ∧ q.normalized = .ok q := by
  have hwf := GraphRecord.wellFormed_toGraph p.root
  have hplain := GraphRecord.plain_toGraph p.root
  refine ⟨_, toDocument_eq p hversion, rfl, rfl, rfl, hwf, fun n hn side htype => ?_,
    GraphRecord.restores_toGraph p.root, _, ?_, rfl, normalized_ofDocument _ _ hwf hplain⟩
  · have hboundary := hplain.isBoundary hn
    rw [Node.isBoundary_iff.2 ⟨side, htype⟩] at hboundary
    cases hboundary
  · rw [normalized, toDocument_eq p hversion]
    rfl

/-- A file with a boundary node outside of groups, ids that are used twice, and links from nowhere,
from a node to itself, between flow and data, and twice into one input. -/
def tangled : ProjectFile where
  version := 1
  metadata := .ofName "Module"
  root :=
    ⟨[.boundary .input 1, .ofType 3 "relay" ["flow"] ["flow"],
        .group 2 "Body" ["flow"] ["flow"]
          ⟨[.ofType 5 "relay" ["flow"] ["flow"], .boundary .input 1,
            .ofType 1 "relay" ["flow"] ["flow"]],
            [⟨⟨1, 0⟩, ⟨5, 0⟩⟩], [⟨⟨1, 0⟩, ⟨5, 0⟩⟩, ⟨⟨5, 0⟩, ⟨1, 0⟩⟩]⟩,
        .ofType 1 "relay" ["flow", "value"] ["flow"], .ofType 1 "other" [] []],
      [⟨⟨9, 0⟩, ⟨1, 0⟩⟩, ⟨⟨1, 0⟩, ⟨1, 0⟩⟩, ⟨⟨3, 0⟩, ⟨1, 1⟩⟩, ⟨⟨3, 0⟩, ⟨1, 0⟩⟩, ⟨⟨2, 0⟩, ⟨1, 0⟩⟩],
      [⟨⟨3, 0⟩, ⟨1, 0⟩⟩]⟩
  viewport := .standard

theorem restores_toDocument_tangled :
    tangled.version = projectVersion ∧
      tangled.root.toGraph.roster = [(1, "relay"), (2, "group"), (3, "relay")] ∧
      tangled.root.toGraph.links = [⟨⟨3, 0⟩, ⟨1, 0⟩⟩] ∧
      ((tangled.root.toGraph.inner? [2]).map (·.roster)) = some [(1, "group-input"), (5, "relay")] ∧
      ∃ d, tangled.toDocument = .ok d ∧ d.metadata = tangled.metadata ∧
        d.viewport = tangled.viewport ∧ d.focus.frames = [] ∧ d.root.WellFormed ∧
        (∀ n ∈ d.root.nodes, ∀ side, n.type ≠ Node.boundaryType side) ∧
        tangled.root.Restores (fun type => ∀ side, type ≠ Node.boundaryType side) d.root ∧
        ∃ q, tangled.normalized = .ok q ∧ q = ofDocument d ∧ q.normalized = .ok q :=
  ⟨rfl, by decide +kernel, by decide +kernel, by decide +kernel, restores_toDocument tangled rfl⟩

end ProjectFile
end FlowGraph
