import FlowGraph.Graph.Boundary

/-! Well-formed graphs. At every level of nesting the ids ascend, every link joins an output and an
input that may be joined, and no input has two links. Each edit of a graph is shown to keep this. -/
namespace FlowGraph

theorem Terminal.join_eq_ok_iff {a b : Terminal} :
    a.join b = .ok () ↔ a.node ≠ b.node ∧ a.direction ≠ b.direction ∧ a.kind = b.kind := by
  unfold join
  by_cases hnode : a.node = b.node
  · simp [hnode]
  by_cases hdir : a.direction = b.direction
  · simp [hnode, hdir]
  rw [if_neg hnode, if_neg hdir]
  by_cases hout : a.direction = .output
  · rw [if_pos hout]
    by_cases hkind : a.kind = b.kind <;> simp [hkind, hnode, hdir]
  · rw [if_neg hout]
    by_cases hkind : a.kind = b.kind
    · simp [hkind, hnode, hdir]
    · simp [hkind, Ne.symm hkind]

namespace Graph

/-- A link leads from an output of a node to an input of another node that carries the same kind. -/
def Joins (g : Graph) (l : Link) : Prop :=
  ∃ n ∈ g.nodes, ∃ m ∈ g.nodes, n.id = l.source.node ∧ m.id = l.target.node ∧ n.id ≠ m.id ∧
    ∃ a b, n.outputs[l.source.port.toNat]? = some a ∧ m.inputs[l.target.port.toNat]? = some b ∧
      PortKind.ofLabel a = PortKind.ofLabel b

/-- What a graph keeps at its own level: it holds its nodes under their ids, its links join what may
be joined, and an input has one link at most. -/
structure Sound (g : Graph) : Prop where
  ascending : g.nodes.Pairwise (·.id < ·.id)
  joined : ∀ l ∈ g.links, g.Joins l
  single : g.links.Pairwise (·.target ≠ ·.target)

/-- A property of a graph and of all graphs nested in it. -/
inductive Everywhere (P : Graph → Prop) : Graph → Prop
  | intro {g : Graph} (here : P g)
      (inside : ∀ n ∈ g.nodes, ∀ inner, n.inner = some inner → Everywhere P inner) : Everywhere P g

theorem Everywhere.here {P : Graph → Prop} {g : Graph} : g.Everywhere P → P g
  | .intro here _ => here

theorem Everywhere.inside {P : Graph → Prop} {g : Graph} (h : g.Everywhere P) {n : Node Graph}
    (hn : n ∈ g.nodes) {inner : Graph} (hi : n.inner = some inner) : inner.Everywhere P := by
  cases h with
  | intro _ inside => exact inside n hn inner hi

theorem everywhere_iff {P : Graph → Prop} {g : Graph} : g.Everywhere P ↔
    P g ∧ ∀ n ∈ g.nodes, ∀ inner, n.inner = some inner → inner.Everywhere P :=
  ⟨fun h => ⟨h.here, fun _ hn _ hi => h.inside hn hi⟩, fun h => .intro h.1 h.2⟩

theorem Everywhere.imp {P Q : Graph → Prop} (hPQ : ∀ g, P g → Q g) {g : Graph}
    (h : g.Everywhere P) : g.Everywhere Q := by
  induction h with
  | intro here _ ih => exact .intro (hPQ _ here) ih

def WellFormed (g : Graph) : Prop := g.Everywhere Sound

/-- Induction over nested graphs. -/
theorem nestedInduction {P : Graph → Prop}
    (step : ∀ g : Graph, (∀ n ∈ g.nodes, ∀ inner, n.inner = some inner → P inner) → P g) :
    ∀ g : Graph, P g
  | ⟨nodes, links⟩ => step ⟨nodes, links⟩ fun n hn inner hi =>
    have hsize : sizeOf inner < sizeOf (⟨nodes, links⟩ : Graph) := by
      have hmem := List.sizeOf_lt_of_mem hn
      cases n
      simp_all
      omega
    nestedInduction step inner
termination_by g => sizeOf g
decreasing_by exact hsize

/-! ### Looking nodes up -/

theorem find?_mem {g : Graph} {id : NodeId} {n : Node Graph} (h : g.find? id = some n) :
    n ∈ g.nodes ∧ n.id = id :=
  ⟨List.mem_of_find?_eq_some h, by simpa using List.find?_some h⟩

theorem eq_of_mem_of_id_eq {nodes : List (Node Graph)} (h : nodes.Pairwise (·.id < ·.id))
    {n m : Node Graph} (hn : n ∈ nodes) (hm : m ∈ nodes) (hid : n.id = m.id) : n = m := by
  induction nodes with
  | nil => cases hn
  | cons k ks ih =>
    rw [List.pairwise_cons] at h
    rcases List.mem_cons.1 hn with rfl | hn' <;> rcases List.mem_cons.1 hm with rfl | hm'
    · rfl
    · exact absurd (h.1 m hm') (by simp [hid])
    · exact absurd (h.1 n hn') (by simp [hid])
    · exact ih h.2 hn' hm'

theorem find?_eq_some_iff {g : Graph} (h : g.nodes.Pairwise (·.id < ·.id)) {id : NodeId}
    {n : Node Graph} : g.find? id = some n ↔ n ∈ g.nodes ∧ n.id = id := by
  refine ⟨find?_mem, fun ⟨hn, hid⟩ => ?_⟩
  cases hfind : g.find? id with
  | none => exact absurd hid (by simpa using List.find?_eq_none.1 hfind n hn)
  | some m =>
    have hm := find?_mem hfind
    rw [eq_of_mem_of_id_eq h hn hm.1 (hid.trans hm.2.symm)]

theorem contains_iff {g : Graph} {id : NodeId} :
    g.contains id = true ↔ ∃ n ∈ g.nodes, n.id = id := by
  simp [contains, find?]

/-! ### Graphs inside groups -/

section Inside

variable {g : Graph}

/-- The graph inside nested groups, given by their ids. -/
def inner? : Graph → List NodeId → Option Graph
  | g, [] => some g
  | g, id :: path => (g.find? id).bind fun n => n.inner.bind fun inner => inner.inner? path

theorem inner?_cons (hg : g.Sound) {n : Node Graph} (hn : n ∈ g.nodes) {inner : Graph}
    (hi : n.inner = some inner) (path : List NodeId) :
    g.inner? (n.id :: path) = inner.inner? path := by
  rw [inner?, (find?_eq_some_iff hg.ascending).2 ⟨hn, rfl⟩, Option.bind_some, hi, Option.bind_some]

theorem exists_of_inner?_cons {id : NodeId} {path : List NodeId} {k : Graph}
    (h : g.inner? (id :: path) = some k) :
    ∃ n ∈ g.nodes, n.id = id ∧ ∃ inner, n.inner = some inner ∧ inner.inner? path = some k := by
  obtain ⟨n, hn, hinner⟩ := Option.bind_eq_some_iff.1 h
  obtain ⟨inner, hi, hk⟩ := Option.bind_eq_some_iff.1 hinner
  exact ⟨n, (find?_mem hn).1, (find?_mem hn).2, inner, hi, hk⟩

theorem inner?_append (path path' : List NodeId) :
    g.inner? (path ++ path') = (g.inner? path).bind fun inner => inner.inner? path' := by
  induction path generalizing g with
  | nil => rfl
  | cons id path ih =>
    rw [List.cons_append, inner?, inner?]
    cases g.find? id with
    | none => rfl
    | some n =>
      rw [Option.bind_some, Option.bind_some]
      cases n.inner with
      | none => rfl
      | some inner => exact ih

theorem Everywhere.inner? {P : Graph → Prop} (h : g.Everywhere P) {path : List NodeId} {k : Graph}
    (hk : g.inner? path = some k) : k.Everywhere P := by
  induction path generalizing g with
  | nil => exact Option.some.inj hk ▸ h
  | cons id path ih =>
    obtain ⟨n, hn, -, inner, hi, hk⟩ := exists_of_inner?_cons hk
    exact ih (h.inside hn hi) hk

end Inside

/-! ### Links that fit -/

theorem resolve_eq_ok_iff {g : Graph} {p : Port} {t : Terminal} :
    g.resolve p = .ok t ↔ ∃ n label, g.find? p.node = some n ∧
      (n.ports p.direction)[p.index.toNat]? = some label ∧ t = ⟨p.node, p.direction, label⟩ := by
  unfold resolve
  cases hfind : g.find? p.node with
  | none => simp
  | some n => cases hlabel : (n.ports p.direction)[p.index.toNat]? <;> simp [hlabel, eq_comm]

theorem joins_of_resolve {g : Graph} {l : Link} {a b : Terminal}
    (ha : g.resolve ⟨l.source.node, .output, l.source.port⟩ = .ok a)
    (hb : g.resolve ⟨l.target.node, .input, l.target.port⟩ = .ok b)
    (hne : l.source.node ≠ l.target.node) (hkind : a.kind = b.kind) : g.Joins l := by
  obtain ⟨n, x, hn, hx, rfl⟩ := resolve_eq_ok_iff.1 ha
  obtain ⟨m, y, hm, hy, rfl⟩ := resolve_eq_ok_iff.1 hb
  have hn := find?_mem hn
  have hm := find?_mem hm
  refine ⟨n, hn.1, m, hm.1, hn.2, hm.2, ?_, x, y, hx, hy, hkind⟩
  rw [hn.2, hm.2]
  exact hne

theorem resolve_of_joins {g : Graph} (h : g.nodes.Pairwise (·.id < ·.id)) {l : Link}
    (hl : g.Joins l) : ∃ a b, g.resolve ⟨l.source.node, .output, l.source.port⟩ = .ok a ∧
      g.resolve ⟨l.target.node, .input, l.target.port⟩ = .ok b ∧ a.join b = .ok () := by
  obtain ⟨n, hn, m, hm, hsource, htarget, hne, x, y, hx, hy, hkind⟩ := hl
  have hfindn := (find?_eq_some_iff h).2 ⟨hn, hsource⟩
  have hfindm := (find?_eq_some_iff h).2 ⟨hm, htarget⟩
  refine ⟨⟨l.source.node, .output, x⟩, ⟨l.target.node, .input, y⟩, ?_, ?_, ?_⟩
  · exact resolve_eq_ok_iff.2 ⟨n, x, hfindn, hx, rfl⟩
  · exact resolve_eq_ok_iff.2 ⟨m, y, hfindm, hy, rfl⟩
  · refine Terminal.join_eq_ok_iff.2 ⟨?_, by simp, hkind⟩
    rw [hsource, htarget] at hne
    exact hne

theorem joins_of_fits {g : Graph} {l : Link} (hl : g.fits l = true) : g.Joins l := by
  unfold fits at hl
  split at hl
  · next a b ha hb =>
    have hjoin : a.join b = .ok () := by
      cases hj : a.join b with
      | ok u => rfl
      | error e => simp [hj, Except.toBool] at hl
    obtain ⟨hne, -, hkind⟩ := Terminal.join_eq_ok_iff.1 hjoin
    obtain ⟨n, x, -, -, rfl⟩ := resolve_eq_ok_iff.1 ha
    obtain ⟨m, y, -, -, rfl⟩ := resolve_eq_ok_iff.1 hb
    exact joins_of_resolve ha hb hne hkind
  · cases hl

theorem fits_iff {g : Graph} (h : g.nodes.Pairwise (·.id < ·.id)) {l : Link} :
    g.fits l = true ↔ g.Joins l := by
  refine ⟨joins_of_fits, fun hl => ?_⟩
  obtain ⟨a, b, ha, hb, hjoin⟩ := resolve_of_joins h hl
  simp [fits, ha, hb, hjoin, Except.toBool]

/-! ### Levels -/

theorem sound_of_fits {g : Graph} (hasc : g.nodes.Pairwise (·.id < ·.id))
    (hfits : ∀ l ∈ g.links, g.fits l = true) (hsingle : g.links.Pairwise (·.target ≠ ·.target)) :
    g.Sound :=
  ⟨hasc, fun l hl => joins_of_fits (hfits l hl), hsingle⟩

theorem WellFormed.sound {g : Graph} (h : g.WellFormed) : g.Sound := h.here

theorem WellFormed.nested {g : Graph} (h : g.WellFormed) {n : Node Graph} (hn : n ∈ g.nodes)
    {inner : Graph} (hi : n.inner = some inner) : inner.WellFormed := h.inside hn hi

theorem wellFormed_empty : empty.WellFormed :=
  .intro ⟨.nil, by simp [empty], .nil⟩ (by simp [empty])

/-- Links stay joined where the nodes at their ends keep their ids and ports. -/
theorem Joins.transport {g h : Graph} {l : Link} (hl : g.Joins l)
    (keep : ∀ n ∈ g.nodes, n.id = l.source.node ∨ n.id = l.target.node →
      ∃ m ∈ h.nodes, m.id = n.id ∧ m.inputs = n.inputs ∧ m.outputs = n.outputs) : h.Joins l := by
  obtain ⟨n, hn, m, hm, hsource, htarget, hne, a, b, ha, hb, hkind⟩ := hl
  obtain ⟨n', hn', hnid, -, hnout⟩ := keep n hn (.inl hsource)
  obtain ⟨m', hm', hmid, hmin, -⟩ := keep m hm (.inr htarget)
  refine ⟨n', hn', m', hm', hnid.trans hsource, hmid.trans htarget, ?_, a, b, ?_, ?_, hkind⟩
  · rw [hnid, hmid]
    exact hne
  · rw [hnout]
    exact ha
  · rw [hmin]
    exact hb

theorem joins_congr {g h : Graph} (hnodes : g.nodes = h.nodes) {l : Link} :
    g.Joins l ↔ h.Joins l := by
  unfold Joins
  rw [hnodes]

/-- Fewer links do no harm. -/
theorem Sound.withLinks {g : Graph} (h : g.Sound) {links : List Link}
    (hsub : links.Sublist g.links) : ({ g with links } : Graph).Sound where
  ascending := h.ascending
  joined l hl := (joins_congr rfl).1 (h.joined l (hsub.subset hl))
  single := h.single.sublist hsub

theorem WellFormed.withLinks {g : Graph} (h : g.WellFormed) {links : List Link}
    (hlinks : ({ g with links } : Graph).Sound) : ({ g with links } : Graph).WellFormed :=
  .intro hlinks fun _ hn _ hi => h.nested hn hi

/-! ### Adding and removing nodes -/

theorem mem_place {n m : Node Graph} {nodes : List (Node Graph)} :
    m ∈ place n nodes ↔ m = n ∨ m ∈ nodes := by
  induction nodes with
  | nil => simp [place]
  | cons k ks ih =>
    rw [place]
    split
    · simp
    · simp only [List.mem_cons, ih]
      constructor <;> rintro (h | h | h) <;> simp [h]

theorem ascending_place {n : Node Graph} {nodes : List (Node Graph)}
    (h : nodes.Pairwise (·.id < ·.id)) (hnew : ∀ m ∈ nodes, m.id ≠ n.id) :
    (place n nodes).Pairwise (·.id < ·.id) := by
  induction nodes with
  | nil => simp [place]
  | cons k ks ih =>
    rw [List.pairwise_cons] at h
    rw [place]
    split
    · next hlt =>
      refine List.pairwise_cons.2 ⟨fun m hm => ?_, List.pairwise_cons.2 h⟩
      rcases List.mem_cons.1 hm with rfl | hm
      · exact hlt
      · exact UInt32.lt_trans hlt (h.1 m hm)
    · next hlt =>
      have hk : k.id < n.id :=
        UInt32.lt_of_le_of_ne (UInt32.not_lt.1 hlt) (hnew k List.mem_cons_self)
      refine List.pairwise_cons.2 ⟨fun m hm => ?_, ih h.2 fun m hm => hnew m (.tail _ hm)⟩
      rcases mem_place.1 hm with rfl | hm
      · exact hk
      · exact h.1 m hm

theorem insert_eq_ok_iff {g h : Graph} {n : Node Graph} : g.insert n = .ok h ↔
    (∀ m ∈ g.nodes, m.id ≠ n.id) ∧ h = { g with nodes := place n g.nodes } := by
  unfold insert
  cases hc : g.contains n.id with
  | true =>
    obtain ⟨m, hm, hid⟩ := contains_iff.1 hc
    simp only [if_true, reduceCtorEq, false_iff]
    exact fun hnew => hnew.1 m hm hid
  | false =>
    have hnew : ∀ m ∈ g.nodes, m.id ≠ n.id := fun m hm hid => by
      have := contains_iff.2 ⟨m, hm, hid⟩
      simp [hc] at this
    simp only [Bool.false_eq_true, if_false, Except.ok.injEq]
    exact ⟨fun h => ⟨hnew, h.symm⟩, fun h => h.2.symm⟩

section Behind

variable {front : List (Node Graph)} {n : Node Graph}

theorem place_of_lt (hfront : ∀ m ∈ front, m.id < n.id) : place n front = front ++ [n] := by
  induction front with
  | nil => rfl
  | cons m ms ih =>
    have hlt : ¬n.id < m.id := UInt32.lt_asymm (hfront m List.mem_cons_self)
    rw [place, if_neg hlt, ih fun k hk => hfront k (.tail _ hk)]
    rfl

theorem id_ne_of_lt (hfront : ∀ m ∈ front, m.id < n.id) : ∀ m ∈ front, m.id ≠ n.id := by
  intro m hm heq
  have hlt := hfront m hm
  rw [heq] at hlt
  exact UInt32.lt_irrefl _ hlt

/-- A node with a larger id than all others goes behind them. -/
theorem insert_of_lt (hfront : ∀ m ∈ front, m.id < n.id) (links : List Link) :
    (⟨front, links⟩ : Graph).insert n = .ok ⟨front ++ [n], links⟩ :=
  insert_eq_ok_iff.2 ⟨id_ne_of_lt hfront, by rw [place_of_lt hfront]⟩

theorem find?_of_lt {id : NodeId} (hfront : ∀ m ∈ front, m.id < id) (hid : n.id = id)
    (links : List Link) : (⟨front ++ [n], links⟩ : Graph).find? id = some n := by
  subst hid
  have hnone : front.find? (·.id == n.id) = none :=
    List.find?_eq_none.2 fun m hm => by simpa using id_ne_of_lt hfront m hm
  simp [find?, List.find?_append, hnone]

theorem modify_of_lt {id : NodeId} (hfront : ∀ m ∈ front, m.id < id) (hid : n.id = id)
    (links : List Link) (f : Node Graph → Node Graph) :
    (⟨front ++ [n], links⟩ : Graph).modify id f = ⟨front ++ [f n], links⟩ := by
  subst hid
  have hkeep : front.map (fun m => if m.id == n.id then f m else m) = front := by
    refine (List.map_congr_left fun m hm => ?_).trans (List.map_id _)
    rw [if_neg (by simpa using id_ne_of_lt hfront m hm), id_eq]
  simp only [modify, List.map_append, hkeep, List.map_cons, List.map_nil, beq_self_eq_true, if_true]

end Behind

theorem WellFormed.insert {g h : Graph} {n : Node Graph} (hg : g.WellFormed)
    (hn : ∀ inner, n.inner = some inner → inner.WellFormed) (hins : g.insert n = .ok h) :
    h.WellFormed := by
  obtain ⟨hnew, rfl⟩ := insert_eq_ok_iff.1 hins
  refine .intro ⟨ascending_place hg.sound.ascending hnew, fun l hl => ?_, hg.sound.single⟩ ?_
  · exact (hg.sound.joined l hl).transport fun m hm _ => ⟨m, mem_place.2 (.inr hm), rfl, rfl, rfl⟩
  · intro m hm inner hi
    rcases mem_place.1 hm with rfl | hm
    · exact hn inner hi
    · exact hg.nested hm hi

theorem insert_of_add {g h : Graph} {n : Node Graph} (hadd : g.add n = .ok h) :
    n.isBoundary = false ∧ g.insert n = .ok h := by
  unfold add at hadd
  cases hb : n.isBoundary with
  | true => simp [hb] at hadd
  | false => exact ⟨rfl, by simpa [hb] using hadd⟩

theorem touches_iff {l : Link} {id : NodeId} :
    l.touches id = true ↔ l.source.node = id ∨ l.target.node = id := by
  simp [Link.touches]

theorem WellFormed.erase {g : Graph} (hg : g.WellFormed) (id : NodeId) :
    (g.erase id).WellFormed := by
  refine .intro ⟨hg.sound.ascending.filter _, fun l hl => ?_, hg.sound.single.filter _⟩ ?_
  · obtain ⟨hl, htouch⟩ := List.mem_filter.1 hl
    have htouch : ¬(l.source.node = id ∨ l.target.node = id) := by
      rw [← touches_iff]
      simpa using htouch
    refine (hg.sound.joined l hl).transport fun n hn hend => ⟨n, ?_, rfl, rfl, rfl⟩
    refine List.mem_filter.2 ⟨hn, ?_⟩
    have hne : n.id ≠ id := fun h => htouch (hend.imp (·.symm.trans h) (·.symm.trans h))
    simpa using hne
  · intro n hn inner hi
    exact hg.nested (List.mem_filter.1 hn).1 hi

theorem WellFormed.eraseAll {g : Graph} (hg : g.WellFormed) (ids : List NodeId) :
    (ids.foldl Graph.erase g).WellFormed := by
  induction ids generalizing g with
  | nil => exact hg
  | cons id ids ih => exact ih (hg.erase id)

theorem remove_eq_ok {g h : Graph} {id : NodeId} {n : Node Graph}
    (hrem : g.remove id = .ok (n, h)) :
    g.find? id = some n ∧ n.isBoundary = false ∧ h = g.erase id := by
  unfold remove at hrem
  split at hrem
  · cases hrem
  · next m hfind =>
    cases hb : m.isBoundary with
    | true => simp [hb] at hrem
    | false =>
      simp only [hb, Bool.false_eq_true, if_false, Except.ok.injEq, Prod.mk.injEq] at hrem
      obtain ⟨rfl, rfl⟩ := hrem
      exact ⟨hfind, hb, rfl⟩

/-! ### Changing nodes in place -/

theorem mem_modify {g : Graph} {id : NodeId} {f : Node Graph → Node Graph} {m : Node Graph} :
    m ∈ (g.modify id f).nodes ↔ ∃ n ∈ g.nodes, m = if n.id = id then f n else n := by
  simp only [modify, List.mem_map, beq_iff_eq]
  exact exists_congr fun n => and_congr_right fun _ => eq_comm

theorem ascending_modify {g : Graph} (h : g.nodes.Pairwise (·.id < ·.id)) {id : NodeId}
    {f : Node Graph → Node Graph} (hf : ∀ n ∈ g.nodes, n.id = id → (f n).id = id) :
    (g.modify id f).nodes.Pairwise (·.id < ·.id) := by
  have hid : ∀ n ∈ g.nodes, (if n.id == id then f n else n).id = n.id := fun n hn => by
    by_cases hn' : n.id = id <;> simp [hn', hf n hn]
  refine List.pairwise_map.2 (h.imp_of_mem fun hn hm hlt => ?_)
  rw [hid _ hn, hid _ hm]
  exact hlt

/-- A change of a node that keeps its id and ports. -/
theorem WellFormed.modify {g : Graph} (hg : g.WellFormed) {id : NodeId}
    {f : Node Graph → Node Graph} (hid : ∀ n, (f n).id = n.id)
    (hinputs : ∀ n, (f n).inputs = n.inputs) (houtputs : ∀ n, (f n).outputs = n.outputs)
    (hinner : ∀ n ∈ g.nodes, ∀ inner, (f n).inner = some inner → inner.WellFormed) :
    (g.modify id f).WellFormed := by
  refine .intro ⟨ascending_modify hg.sound.ascending fun n _ h => (hid n).trans h, fun l hl => ?_,
    hg.sound.single⟩ ?_
  · refine (hg.sound.joined l hl).transport fun n hn _ => ⟨_, mem_modify.2 ⟨n, hn, rfl⟩, ?_⟩
    by_cases h : n.id = id <;> simp [h, hid, hinputs, houtputs]
  · intro m hm inner hi
    obtain ⟨n, hn, rfl⟩ := mem_modify.1 hm
    by_cases h : n.id = id
    · rw [if_pos h] at hi
      exact hinner n hn inner hi
    · rw [if_neg h] at hi
      exact hg.nested hn hi

theorem update_eq_ok {g h : Graph} {id : NodeId} {f : Node Graph → Node Graph}
    (hup : g.update id f = .ok h) : h = g.modify id f := by
  unfold update at hup
  split at hup
  · exact (Except.ok.inj hup).symm
  · cases hup

theorem WellFormed.move {g h : Graph} (hg : g.WellFormed) {id : NodeId} {position : Position}
    (hmove : g.move id position = .ok h) : h.WellFormed := by
  rw [update_eq_ok hmove]
  exact hg.modify (fun _ => rfl) (fun _ => rfl) (fun _ => rfl) fun _ hn _ hi => hg.nested hn hi

theorem WellFormed.setField {g h : Graph} (hg : g.WellFormed) {id : NodeId} {name : String}
    {value : Value} (hset : g.setField id name value = .ok h) : h.WellFormed := by
  rw [update_eq_ok hset]
  exact hg.modify (fun _ => rfl) (fun _ => rfl) (fun _ => rfl) fun _ hn _ hi => hg.nested hn hi

/-- Fills a node with a nested graph, or takes it out. -/
theorem WellFormed.setInner {g : Graph} (hg : g.WellFormed) {id : NodeId} {inner : Option Graph}
    (hinner : ∀ h, inner = some h → h.WellFormed) :
    (g.modify id fun n => { n with inner }).WellFormed :=
  hg.modify (fun _ => rfl) (fun _ => rfl) (fun _ => rfl) fun _ _ h hi => hinner h hi

/-! ### Links -/

theorem connect_eq_ok {g h : Graph} {a b : Port} {l : Link} (hcon : g.connect a b = .ok (l, h)) :
    g.Joins l ∧ h = { g with links := g.links.filter (·.target != l.target) ++ [l] } := by
  unfold connect at hcon
  cases ha : g.resolve a with
  | error e => simp [ha, bind, Except.bind] at hcon
  | ok s =>
    cases hb : g.resolve b with
    | error e => simp [ha, hb, bind, Except.bind] at hcon
    | ok t =>
      cases hj : s.join t with
      | error e => simp [ha, hb, hj, bind, Except.bind] at hcon
      | ok u =>
        obtain ⟨hne, hdir, hkind⟩ := Terminal.join_eq_ok_iff.1 hj
        obtain ⟨n, x, -, -, rfl⟩ := resolve_eq_ok_iff.1 ha
        obtain ⟨m, y, -, -, rfl⟩ := resolve_eq_ok_iff.1 hb
        simp only [ha, hb, hj, bind, Except.bind, pure, Except.pure, Except.ok.injEq,
          Prod.mk.injEq] at hcon
        obtain ⟨rfl, rfl⟩ := hcon
        refine ⟨?_, rfl⟩
        -- Either port may be the output; the link runs from the output to the input.
        obtain ⟨node, dir, index⟩ := a
        obtain ⟨node', dir', index'⟩ := b
        cases dir <;> cases dir'
        · exact absurd rfl hdir
        · exact joins_of_resolve hb ha (Ne.symm hne) hkind.symm
        · exact joins_of_resolve ha hb hne hkind
        · exact absurd rfl hdir

/-- A link into a free input goes behind the others. -/
theorem connect_of_joins {g : Graph} (hasc : g.nodes.Pairwise (·.id < ·.id)) {l : Link}
    (hl : g.Joins l) (hfree : ∀ k ∈ g.links, k.target ≠ l.target) :
    g.connect ⟨l.source.node, .output, l.source.port⟩ ⟨l.target.node, .input, l.target.port⟩ =
      .ok (l, { g with links := g.links ++ [l] }) := by
  obtain ⟨a, b, ha, hb, hjoin⟩ := resolve_of_joins hasc hl
  have hkeep : g.links.filter (·.target != l.target) = g.links :=
    List.filter_eq_self.2 fun k hk => by simpa using hfree k hk
  simp [connect, ha, hb, hjoin, hkeep, bind, Except.bind, pure, Except.pure]

theorem Sound.relink {g : Graph} (hg : g.Sound) {l : Link} (hl : g.Joins l) :
    ({ g with links := g.links.filter (·.target != l.target) ++ [l] } : Graph).Sound where
  ascending := hg.ascending
  joined k hk := by
    refine (joins_congr rfl).1 ?_
    rcases List.mem_append.1 hk with hk | hk
    · exact hg.joined k (List.mem_filter.1 hk).1
    · rw [List.mem_singleton.1 hk]
      exact hl
  single := by
    refine List.pairwise_append.2 ⟨hg.single.filter _, List.pairwise_singleton _ _, ?_⟩
    intro k hk m hm
    rw [List.mem_singleton.1 hm]
    simpa using (List.mem_filter.1 hk).2

theorem WellFormed.connect {g h : Graph} (hg : g.WellFormed) {a b : Port} {l : Link}
    (hcon : g.connect a b = .ok (l, h)) : h.WellFormed := by
  obtain ⟨hl, rfl⟩ := connect_eq_ok hcon
  exact hg.withLinks (hg.sound.relink hl)

theorem WellFormed.disconnect {g : Graph} (hg : g.WellFormed) (p : Link → Bool) :
    (g.disconnect p).2.WellFormed :=
  hg.withLinks (hg.sound.withLinks List.filter_sublist)

theorem mem_staleLinks {g : Graph} {l : Link} :
    l ∈ g.staleLinks ↔ l ∈ g.links ∧ g.fits l = false := by
  simp [staleLinks]

/-- Listing the stale links and dropping what is listed keeps the links that fit, also where a link
stands twice. -/
theorem prune_eq_filter (g : Graph) : g.prune = { g with links := g.links.filter g.fits } := by
  have hkept : ∀ l ∈ g.links, (!g.staleLinks.contains l) = g.fits l := fun l hl => by
    cases hfits : g.fits l <;> simp [mem_staleLinks, hl, hfits]
  simp only [prune]
  split
  · next hnone =>
    have hfits : ∀ l ∈ g.links, g.fits l = true := fun l hl => by
      rw [← hkept l hl, List.isEmpty_iff.1 hnone]
      rfl
    rw [List.filter_eq_self.2 hfits]
    cases g
    rfl
  · rw [List.filter_congr hkept]

@[simp] theorem nodes_prune (g : Graph) : g.prune.nodes = g.nodes := by rw [prune_eq_filter]

theorem links_prune (g : Graph) : g.prune.links = g.links.filter g.fits := by rw [prune_eq_filter]

/-- Pruning makes the links of a graph sound, whatever became of its ports. -/
theorem sound_prune {g : Graph} (hasc : g.nodes.Pairwise (·.id < ·.id))
    (hsingle : g.links.Pairwise (·.target ≠ ·.target)) : g.prune.Sound := by
  rw [prune_eq_filter]
  exact ⟨hasc, fun _ hl => (joins_congr rfl).1 (joins_of_fits (List.mem_filter.1 hl).2),
    hsingle.filter _⟩

theorem WellFormed.prune {g : Graph} (hg : g.WellFormed) : g.prune.WellFormed := by
  have hsound := sound_prune hg.sound.ascending hg.sound.single
  rw [prune_eq_filter] at hsound ⊢
  exact hg.withLinks hsound

theorem Sound.prune_eq {g : Graph} (hg : g.Sound) : g.prune = g := by
  have hall : g.links.filter g.fits = g.links :=
    List.filter_eq_self.2 fun l hl => (fits_iff hg.ascending).2 (hg.joined l hl)
  rw [prune_eq_filter, hall]
  cases g
  rfl

/-! ### Boundary nodes -/

theorem WellFormed.reconcileSide {g : Graph} (hg : g.WellFormed) (side : Direction)
    (wanted : Bool) : (g.reconcileSide side wanted).2.WellFormed := by
  unfold Graph.reconcileSide
  split
  · exact hg
  · split
    · next h hins =>
      refine hg.insert (fun inner hi => ?_) hins
      cases side <;> cases hi
    · exact hg
  · exact hg.eraseAll _
  · exact hg.eraseAll _

theorem WellFormed.reconcile {g : Graph} (hg : g.WellFormed) (group : Node Graph) :
    (g.reconcile group).2.WellFormed :=
  (hg.reconcileSide .input _).reconcileSide .output _

theorem WellFormed.getD {n : Node Graph} (hn : ∀ inner, n.inner = some inner → inner.WellFormed) :
    (n.inner.getD .empty).WellFormed := by
  cases hi : n.inner with
  | none => exact wellFormed_empty
  | some inner => exact hn inner hi

theorem WellFormed.setPorts {g h : Graph} (hg : g.WellFormed) {id : NodeId}
    {inputs outputs : List String} {b : Boundary}
    (hset : g.setPorts id inputs outputs = .ok (b, h)) : h.WellFormed := by
  unfold Graph.setPorts at hset
  split at hset
  · cases hset
  · next n hfind =>
    split at hset
    · simp only [Except.ok.injEq, Prod.mk.injEq] at hset
      obtain ⟨-, rfl⟩ := hset
      obtain ⟨hn, hid⟩ := find?_mem hfind
      have hinner :=
        (WellFormed.getD fun _ hi => hg.nested hn hi).reconcile { n with inputs, outputs }
      -- The links may no longer fit the new ports: pruning alone makes them sound again.
      refine .intro (sound_prune (ascending_modify hg.sound.ascending fun _ _ _ => hid)
        hg.sound.single) fun m hm inner hi => ?_
      rw [nodes_prune] at hm
      obtain ⟨k, hk, rfl⟩ := mem_modify.1 hm
      by_cases hkid : k.id = id
      · rw [if_pos hkid] at hi
        rw [← Option.some.inj hi]
        exact hinner.prune
      · rw [if_neg hkid] at hi
        exact hg.nested hk hi
    · cases hset

end Graph
end FlowGraph
