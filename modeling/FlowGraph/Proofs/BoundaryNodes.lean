import FlowGraph.Proofs.WellFormed

/-! Boundary nodes under editing. Reconciling a nested graph with its group leaves one boundary node
for each plain flow port, and from then on no edit adds or takes one away. -/
namespace FlowGraph

theorem Node.isBoundary_iff {G : Type} {n : Node G} :
    n.isBoundary = true ↔ ∃ side, n.type = boundaryType side := by
  unfold isBoundary boundarySide?
  by_cases hin : n.type = boundaryType .input
  · simp only [hin, if_true, Option.isSome_some, true_iff]
    exact ⟨.input, rfl⟩
  by_cases hout : n.type = boundaryType .output
  · rw [if_neg hin, if_pos hout]
    simp only [Option.isSome_some, true_iff]
    exact ⟨.output, hout⟩
  · rw [if_neg hin, if_neg hout]
    simp only [Option.isSome_none, Bool.false_eq_true, false_iff, not_exists]
    intro side
    cases side
    · exact hin
    · exact hout

theorem Node.boundaryType_injective {a b : Direction} (h : boundaryType a = boundaryType b) :
    a = b := by
  cases a <;> cases b <;> simp [boundaryType] at h ⊢

theorem Node.exposes_eq {G : Type} (group : Node G) (side : Direction) :
    group.exposes side = decide (Label.flow ∈ group.ports side) := by
  rw [Bool.eq_iff_iff]
  simp [Node.exposes, Node.flowPort?, List.findIdx?_isSome]

theorem Node.exposes_iff {G : Type} {n : Node G} {side : Direction} :
    n.exposes side = true ↔ Label.flow ∈ n.ports side := by
  rw [exposes_eq, decide_eq_true_iff]

namespace Graph

/-- The ids and types of the nodes, which alone decide which of them are boundary nodes. -/
def roster (g : Graph) : List (NodeId × String) := g.nodes.map fun n => (n.id, n.type)

theorem boundaryIds_eq_roster (g : Graph) (side : Direction) :
    g.boundaryIds side = (g.roster.filter (·.2 == Node.boundaryType side)).map Prod.fst := by
  simp [boundaryIds, roster, List.filter_map, Function.comp_def]

theorem boundaryIds_congr {g h : Graph} (hroster : g.roster = h.roster) (side : Direction) :
    g.boundaryIds side = h.boundaryIds side := by
  rw [boundaryIds_eq_roster, boundaryIds_eq_roster, hroster]

theorem mem_boundaryIds {g : Graph} {side : Direction} {id : NodeId} :
    id ∈ g.boundaryIds side ↔ ∃ n ∈ g.nodes, n.type = Node.boundaryType side ∧ n.id = id := by
  simp [boundaryIds, and_assoc]

theorem ascending_boundaryIds {g : Graph} (hasc : g.nodes.Pairwise (·.id < ·.id))
    (side : Direction) : (g.boundaryIds side).Pairwise (· < ·) :=
  List.pairwise_map.2 (hasc.filter _)

theorem nodup_boundaryIds {g : Graph} (hasc : g.nodes.Pairwise (·.id < ·.id)) (side : Direction) :
    (g.boundaryIds side).Nodup :=
  (ascending_boundaryIds hasc side).imp UInt32.ne_of_lt

def Plain (g : Graph) : Prop := ∀ side, g.boundaryIds side = []

theorem plain_empty : empty.Plain := fun _ => rfl

theorem Plain.congr {g h : Graph} (hg : g.Plain)
    (hids : ∀ side, h.boundaryIds side = g.boundaryIds side) : h.Plain :=
  fun side => (hids side).trans (hg side)

theorem Plain.isBoundary {g : Graph} (hg : g.Plain) {n : Node Graph} (hn : n ∈ g.nodes) :
    n.isBoundary = false := by
  refine Bool.eq_false_iff.2 fun hb => ?_
  obtain ⟨side, htype⟩ := Node.isBoundary_iff.1 hb
  have hmem : n.id ∈ g.boundaryIds side := mem_boundaryIds.2 ⟨n, hn, htype, rfl⟩
  rw [hg side] at hmem
  cases hmem

/-- One boundary node for each plain flow port of the group, and no others. -/
def InSync (g : Graph) (group : Node Graph) : Prop :=
  ∀ side, (g.boundaryIds side).length = if group.exposes side then 1 else 0

theorem countP_boundary (g : Graph) (side : Direction) :
    g.nodes.countP (·.type == Node.boundaryType side) = (g.boundaryIds side).length := by
  rw [List.countP_eq_length_filter, boundaryIds, List.length_map]

theorem InSync.countP_eq {g : Graph} {group : Node Graph} (h : g.InSync group) (side : Direction) :
    g.nodes.countP (·.type == Node.boundaryType side) =
      if Label.flow ∈ group.ports side then 1 else 0 := by
  rw [countP_boundary, h side]
  simp only [Node.exposes_iff]

theorem InSync.congr {g h : Graph} {group : Node Graph} (hg : g.InSync group)
    (hids : ∀ side, h.boundaryIds side = g.boundaryIds side) : h.InSync group := fun side => by
  rw [hids side]
  exact hg side

/-! ### Edits -/

theorem roster_prune (g : Graph) : g.prune.roster = g.roster := by
  rw [roster, nodes_prune, roster]

theorem roster_modify {g : Graph} {id : NodeId} {f : Node Graph → Node Graph}
    (hf : ∀ n ∈ g.nodes, n.id = id → (f n).id = n.id ∧ (f n).type = n.type) :
    (g.modify id f).roster = g.roster := by
  simp only [roster, modify, List.map_map]
  refine List.map_congr_left fun n hn => ?_
  by_cases hid : n.id = id
  · simp [hid, hf n hn hid]
  · simp [hid]

theorem boundaryIds_place {n : Node Graph} (nodes : List (Node Graph)) (links : List Link)
    {side : Direction} (hn : n.type ≠ Node.boundaryType side) :
    (⟨place n nodes, links⟩ : Graph).boundaryIds side =
    (⟨nodes, links⟩ : Graph).boundaryIds side := by
  unfold boundaryIds
  congr 1
  induction nodes with
  | nil => simp [place, hn]
  | cons m ms ih =>
    rw [place]
    split
    · simp [hn]
    · rw [List.filter_cons, List.filter_cons, ih]

theorem length_boundaryIds_place {n : Node Graph} (nodes : List (Node Graph)) (links : List Link)
    {side : Direction} (hn : n.type = Node.boundaryType side) :
    ((⟨place n nodes, links⟩ : Graph).boundaryIds side).length =
      ((⟨nodes, links⟩ : Graph).boundaryIds side).length + 1 := by
  simp only [boundaryIds, List.length_map]
  induction nodes with
  | nil => simp [place, hn]
  | cons m ms ih =>
    rw [place]
    split
    · simp [List.filter_cons, hn]
    · rw [List.filter_cons, List.filter_cons]
      split
      · simp [ih]
      · exact ih

theorem boundaryIds_place_of_nil {n : Node Graph} (nodes : List (Node Graph)) (links : List Link)
    {side : Direction} (hn : n.type = Node.boundaryType side)
    (hnil : (⟨nodes, links⟩ : Graph).boundaryIds side = []) :
    (⟨place n nodes, links⟩ : Graph).boundaryIds side = [n.id] := by
  have hlength := length_boundaryIds_place nodes links hn
  rw [hnil] at hlength
  obtain ⟨id, hid⟩ := List.length_eq_one_iff.1 hlength
  have hmem : n.id ∈ (⟨place n nodes, links⟩ : Graph).boundaryIds side :=
    mem_boundaryIds.2 ⟨n, mem_place.2 (.inl rfl), hn, rfl⟩
  rw [hid] at hmem ⊢
  rw [List.mem_singleton.1 hmem]

/-- Adding a node that is no boundary node. -/
theorem boundaryIds_insert {g h : Graph} {n : Node Graph} (hins : g.insert n = .ok h)
    {side : Direction} (hn : n.type ≠ Node.boundaryType side) :
    h.boundaryIds side = g.boundaryIds side := by
  obtain ⟨-, rfl⟩ := insert_eq_ok_iff.1 hins
  exact boundaryIds_place g.nodes g.links hn

theorem boundaryIds_add {g h : Graph} {n : Node Graph} (hadd : g.add n = .ok h) (side : Direction) :
    h.boundaryIds side = g.boundaryIds side := by
  obtain ⟨hb, hins⟩ := insert_of_add hadd
  refine boundaryIds_insert hins fun htype => ?_
  rw [Node.isBoundary_iff.2 ⟨side, htype⟩] at hb
  cases hb

theorem boundaryIds_erase (g : Graph) (id : NodeId) (side : Direction) :
    (g.erase id).boundaryIds side = (g.boundaryIds side).filter (· != id) := by
  simp [boundaryIds, erase, List.filter_map, List.filter_filter, Function.comp_def, Bool.and_comm]

theorem boundaryIds_eraseAll (g : Graph) (ids : List NodeId) (side : Direction) :
    (ids.foldl erase g).boundaryIds side = (g.boundaryIds side).filter (!ids.contains ·) := by
  induction ids generalizing g with
  | nil => exact (List.filter_eq_self.2 fun _ _ => rfl).symm
  | cons id ids ih =>
    rw [List.foldl_cons, ih, boundaryIds_erase, List.filter_filter]
    congr 1
    funext x
    by_cases hx : x = id <;> simp [hx]

theorem nodes_eraseAll (g : Graph) (ids : List NodeId) :
    (ids.foldl erase g).nodes = g.nodes.filter fun n => !ids.contains n.id := by
  induction ids generalizing g with
  | nil => exact (List.filter_eq_self.2 fun _ _ => rfl).symm
  | cons id ids ih =>
    rw [List.foldl_cons, ih, erase, List.filter_filter]
    congr 1
    funext n
    by_cases hn : n.id = id <;> simp [hn]

theorem boundaryIds_remove {g h : Graph} (hg : g.WellFormed) {id : NodeId} {n : Node Graph}
    (hrem : g.remove id = .ok (n, h)) (side : Direction) :
    h.boundaryIds side = g.boundaryIds side := by
  obtain ⟨hfind, hb, rfl⟩ := remove_eq_ok hrem
  rw [boundaryIds_erase]
  refine List.filter_eq_self.2 fun x hx => ?_
  obtain ⟨m, hm, htype, rfl⟩ := mem_boundaryIds.1 hx
  have hne : m.id ≠ id := fun hid => by
    have hmn := (find?_eq_some_iff hg.sound.ascending).2 ⟨hm, hid⟩
    rw [hfind] at hmn
    rw [Option.some.inj hmn, Node.isBoundary_iff.2 ⟨side, htype⟩] at hb
    cases hb
  simpa using hne

theorem roster_setPorts {g h : Graph} (hg : g.WellFormed) {id : NodeId}
    {inputs outputs : List String} {b : Boundary}
    (hset : g.setPorts id inputs outputs = .ok (b, h)) : h.roster = g.roster := by
  unfold setPorts at hset
  split at hset
  · cases hset
  · next n hfind =>
    split at hset
    · simp only [Except.ok.injEq, Prod.mk.injEq] at hset
      obtain ⟨-, rfl⟩ := hset
      rw [roster_prune]
      refine roster_modify (g := g) fun m hm hid => ?_
      have hmn := (find?_eq_some_iff hg.sound.ascending).2 ⟨hm, hid⟩
      rw [hfind] at hmn
      rw [Option.some.inj hmn]
      exact ⟨rfl, rfl⟩
    · cases hset

/-! ### Reconciling -/

/-- As long as the ids end below `k`, the next one is above them and no greater than `k`. -/
theorem nextId_bounds {g : Graph} {k : Nat} (hpos : 0 < k) (hk : k < UInt32.size)
    (hids : ∀ n ∈ g.nodes, n.id.toNat < k) :
    g.nextId.toNat ≤ k ∧ ∀ n ∈ g.nodes, n.id.toNat < g.nextId.toNat := by
  have hfold : ∀ (nodes : List (Node Graph)) (top : NodeId), top.toNat < k →
      (∀ n ∈ nodes, n.id.toNat < k) →
      let last := nodes.foldl (fun top n => max top n.id) top
      last.toNat < k ∧ top ≤ last ∧ ∀ n ∈ nodes, n.id ≤ last := by
    intro nodes
    induction nodes with
    | nil => exact fun top htop _ => ⟨htop, UInt32.le_refl _, by simp⟩
    | cons m ms ih =>
      intro top htop hlt
      have hm := hlt m List.mem_cons_self
      have hmax : (max top m.id).toNat < k ∧ top ≤ max top m.id ∧ m.id ≤ max top m.id := by
        by_cases hle : top ≤ m.id
        · have heq : max top m.id = m.id := if_pos hle
          rw [heq]
          exact ⟨hm, hle, UInt32.le_refl _⟩
        · have heq : max top m.id = top := if_neg hle
          rw [heq]
          exact ⟨htop, UInt32.le_refl _, UInt32.le_of_lt (UInt32.not_le.1 hle)⟩
      obtain ⟨hlast, htop', hms⟩ := ih (max top m.id) hmax.1 fun n hn => hlt n (.tail _ hn)
      refine ⟨hlast, UInt32.le_trans hmax.2.1 htop', fun n hn => ?_⟩
      rcases List.mem_cons.1 hn with rfl | hn
      · exact UInt32.le_trans hmax.2.2 htop'
      · exact hms n hn
  obtain ⟨hlast, -, hle⟩ := hfold g.nodes 0 hpos hids
  have hnext : g.nextId.toNat =
      (g.nodes.foldl (fun top (n : Node Graph) => max top n.id) 0).toNat + 1 := by
    rw [nextId, UInt32.toNat_add]
    simp only [UInt32.toNat_one, UInt32.size] at hk ⊢
    omega
  refine ⟨by omega, fun n hn => ?_⟩
  have := UInt32.le_iff_toNat_le.1 (hle n hn)
  omega

/-- The next id is not in use. Only where the ids have run up to the last one may it be. -/
def HasFreshId (g : Graph) : Prop := g.contains g.nextId = false

def Offers (g : Graph) (side : Direction) (wanted : Bool) : Prop :=
  wanted = true → g.boundaryIds side = [] → g.HasFreshId

theorem type_boundary (side : Direction) (id : NodeId) :
    (Node.boundary side id : Node Graph).type = Node.boundaryType side := by
  cases side <;> rfl

theorem id_boundary (side : Direction) (id : NodeId) :
    (Node.boundary side id : Node Graph).id = id := by
  cases side <;> rfl

theorem insert_of_hasFreshId {g : Graph} (hg : g.HasFreshId) (side : Direction) :
    g.insert (.boundary side g.nextId) =
      .ok { g with nodes := place (.boundary side g.nextId) g.nodes } := by
  rw [insert, id_boundary, if_neg (by rw [hg]; exact Bool.false_ne_true)]

/-- Of a side that is reconciled the boundary node is left that is reported. -/
theorem boundaryIds_reconcileSide_self {g : Graph} (hasc : g.nodes.Pairwise (·.id < ·.id))
    {side : Direction} {wanted : Bool} (hoffer : g.Offers side wanted) :
    (g.reconcileSide side wanted).1.isSome = wanted ∧
      (g.reconcileSide side wanted).2.boundaryIds side =
      (g.reconcileSide side wanted).1.toList := by
  cases hids : g.boundaryIds side with
  | nil =>
    cases wanted with
    | false => simp [reconcileSide, hids]
    | true =>
      have hplaced := boundaryIds_place_of_nil g.nodes g.links (type_boundary side g.nextId) hids
      rw [id_boundary] at hplaced
      simp [reconcileSide, hids, insert_of_hasFreshId (hoffer rfl hids), hplaced]
  | cons first rest =>
    have hnodup := nodup_boundaryIds hasc side
    rw [hids, List.nodup_cons] at hnodup
    cases wanted with
    | false =>
      have hgone : ((g.boundaryIds side).foldl erase g).boundaryIds side = [] := by
        simp [boundaryIds_eraseAll]
      simp only [reconcileSide, hids] at hgone ⊢
      exact ⟨rfl, hgone⟩
    | true => simp [reconcileSide, boundaryIds_eraseAll, hids, hnodup.1]

theorem length_boundaryIds_reconcileSide {g : Graph} (hasc : g.nodes.Pairwise (·.id < ·.id))
    {side : Direction} {wanted : Bool} (hoffer : g.Offers side wanted) :
    ((g.reconcileSide side wanted).2.boundaryIds side).length = if wanted then 1 else 0 := by
  obtain ⟨hsome, hids⟩ := boundaryIds_reconcileSide_self hasc hoffer
  rw [hids]
  cases hleft : (g.reconcileSide side wanted).1
  all_goals
    rw [hleft] at hsome
    rw [← hsome]
    rfl

theorem ascending_reconcileSide {g : Graph} (hasc : g.nodes.Pairwise (·.id < ·.id))
    (side : Direction) (wanted : Bool) :
    (g.reconcileSide side wanted).2.nodes.Pairwise (·.id < ·.id) := by
  have herase : ∀ ids : List NodeId, (ids.foldl erase g).nodes.Pairwise (·.id < ·.id) :=
    fun ids => by
    rw [nodes_eraseAll]
    exact hasc.filter _
  unfold reconcileSide
  split
  · exact hasc
  · split
    · next hins =>
      obtain ⟨hnew, rfl⟩ := insert_eq_ok_iff.1 hins
      exact ascending_place hasc hnew
    · exact hasc
  · exact herase _
  · exact herase _

/-- Reconciling one side leaves the other alone. -/
theorem boundaryIds_reconcileSide {g : Graph} (hasc : g.nodes.Pairwise (·.id < ·.id))
    {side other : Direction} (hne : other ≠ side) (wanted : Bool) :
    (g.reconcileSide side wanted).2.boundaryIds other = g.boundaryIds other := by
  have herase : ∀ ids : List NodeId, (∀ id ∈ ids, id ∈ g.boundaryIds side) →
      (ids.foldl erase g).boundaryIds other = g.boundaryIds other := by
    intro ids hids
    rw [boundaryIds_eraseAll]
    refine List.filter_eq_self.2 fun id hid => ?_
    -- One node cannot be a boundary node of both sides.
    have hnot : id ∉ ids := fun hmem => by
      obtain ⟨n, hn, hn', rfl⟩ := mem_boundaryIds.1 hid
      obtain ⟨m, hm, hm', heq⟩ := mem_boundaryIds.1 (hids _ hmem)
      obtain rfl := eq_of_mem_of_id_eq hasc hm hn heq
      exact hne (Node.boundaryType_injective (hn'.symm.trans hm'))
    simpa using hnot
  unfold reconcileSide
  split
  · rfl
  · split
    · next hins =>
      refine boundaryIds_insert hins ?_
      rw [type_boundary]
      exact fun htype => hne (Node.boundaryType_injective htype).symm
    · rfl
  · next first rest hids => exact herase rest fun id hid => hids ▸ .tail _ hid
  · exact herase _ fun id hid => hid

def Reconcilable (g : Graph) (group : Node Graph) : Prop :=
  g.Offers .input (group.exposes .input) ∧
    (g.reconcileSide .input (group.exposes .input)).2.Offers .output (group.exposes .output)

theorem hasFreshId_of_lt {g : Graph} {k : Nat} (hpos : 0 < k) (hk : k < UInt32.size)
    (hids : ∀ n ∈ g.nodes, n.id.toNat < k) : g.HasFreshId := by
  refine Bool.eq_false_iff.2 fun hcontains => ?_
  obtain ⟨n, hn, hid⟩ := contains_iff.1 hcontains
  have hlt := (nextId_bounds hpos hk hids).2 n hn
  rw [hid] at hlt
  exact Nat.lt_irrefl _ hlt

theorem mem_reconcileSide {g : Graph} {side : Direction} {wanted : Bool} {n : Node Graph}
    (hn : n ∈ (g.reconcileSide side wanted).2.nodes) : n ∈ g.nodes ∨ n.id = g.nextId := by
  have herase : ∀ ids : List NodeId, n ∈ (ids.foldl erase g).nodes → n ∈ g.nodes := fun ids hn => by
    rw [nodes_eraseAll] at hn
    exact (List.mem_filter.1 hn).1
  unfold reconcileSide at hn
  split at hn
  · exact .inl hn
  · split at hn
    · next hins =>
      obtain ⟨-, rfl⟩ := insert_eq_ok_iff.1 hins
      rcases mem_place.1 hn with rfl | hn
      · exact .inr (by cases side <;> rfl)
      · exact .inl hn
    · exact .inl hn
  · exact .inl (herase _ hn)
  · exact .inl (herase _ hn)

/-- Two ids that are left are enough for the boundary nodes of any group. -/
theorem reconcilable_of_lt {g : Graph} {k : Nat} (hpos : 0 < k) (hk : k + 1 < UInt32.size)
    (hids : ∀ n ∈ g.nodes, n.id.toNat < k) (group : Node Graph) : g.Reconcilable group := by
  have hk' : k < UInt32.size := Nat.lt_of_succ_lt hk
  refine ⟨fun _ _ => hasFreshId_of_lt hpos hk' hids, fun _ _ => ?_⟩
  refine hasFreshId_of_lt (Nat.succ_pos k) hk fun n hn => ?_
  rcases mem_reconcileSide hn with hn | hn
  · exact Nat.lt_succ_of_lt (hids n hn)
  · rw [hn]
    exact Nat.lt_succ_of_le (nextId_bounds hpos hk' hids).1

theorem inSync_reconcile {g : Graph} (hasc : g.nodes.Pairwise (·.id < ·.id)) {group : Node Graph}
    (hgroup : g.Reconcilable group) : (g.reconcile group).2.InSync group := by
  have hinput := ascending_reconcileSide hasc .input (group.exposes .input)
  intro side
  cases side with
  | input =>
    have hother := boundaryIds_reconcileSide hinput (by simp : Direction.input ≠ .output)
      (group.exposes .output)
    rw [← length_boundaryIds_reconcileSide hasc hgroup.1, ← hother]
    rfl
  | output => exact length_boundaryIds_reconcileSide hinput hgroup.2

theorem reconcileSide_of_length {g : Graph} {side : Direction} {wanted : Bool}
    (h : (g.boundaryIds side).length = if wanted then 1 else 0) :
    g.reconcileSide side wanted = ((g.boundaryIds side).head?, g) := by
  unfold reconcileSide
  cases wanted with
  | false =>
    rw [List.length_eq_zero_iff.1 h]
    rfl
  | true =>
    obtain ⟨id, hid⟩ := List.length_eq_one_iff.1 h
    rw [hid]
    rfl

theorem reconcileSide_eq_self {g : Graph} {side : Direction} {wanted : Bool}
    (h : (g.boundaryIds side).length = if wanted then 1 else 0) :
    (g.reconcileSide side wanted).2 = g := by
  rw [reconcileSide_of_length h]

/-- A graph that is in sync stays as it is, and its boundary nodes are found. -/
theorem InSync.reconcile_eq_boundary {g : Graph} {group : Node Graph} (h : g.InSync group) :
    g.reconcile group = (g.boundary, g) := by
  simp only [Graph.reconcile, reconcileSide_of_length (h .input), reconcileSide_of_length
    (h .output), boundary]

theorem InSync.reconcile_eq {g : Graph} {group : Node Graph} (h : g.InSync group) :
    (g.reconcile group).2 = g := by
  rw [h.reconcile_eq_boundary]

/-! ### Boundary nodes that are still to come -/

/-- No more boundary nodes than the group asks for: at most one for each plain flow port. -/
def Allowed (g : Graph) (group : Node Graph) : Prop :=
  ∀ side, (g.boundaryIds side).length ≤ if group.exposes side then 1 else 0

/-- No boundary node is missing that could be made. -/
def Tended (g : Graph) (group : Node Graph) : Prop :=
  ∀ side, group.exposes side = true → g.boundaryIds side ≠ [] ∨ ¬g.HasFreshId

variable {g h : Graph} {group : Node Graph}

theorem InSync.allowed (hg : g.InSync group) : g.Allowed group := fun side => Nat.le_of_eq (hg side)

theorem InSync.tended (hg : g.InSync group) : g.Tended group :=
  fun side hexposes => .inl fun hnil => by
  have hlength := hg side
  rw [hnil, hexposes] at hlength
  cases hlength

theorem allowed_empty (group : Node Graph) : empty.Allowed group := fun _ => Nat.zero_le _

theorem Allowed.congr (hg : g.Allowed group)
    (hids : ∀ side, h.boundaryIds side = g.boundaryIds side) :
    h.Allowed group := fun side => by
  rw [hids side]
  exact hg side

/-- Which ids are in use decides whether there is a fresh one. -/
theorem hasFreshId_congr (hroster : g.roster = h.roster) : g.HasFreshId ↔ h.HasFreshId := by
  have hids : g.nodes.map (·.id) = h.nodes.map (·.id) := by
    simpa [roster, Function.comp_def] using congrArg (List.map Prod.fst) hroster
  have hnext : ∀ k : Graph, k.nextId = (k.nodes.map (·.id)).foldl max 0 + 1 := fun k => by
    rw [nextId, List.foldl_map]
  have hcontains : ∀ (k : Graph) id, k.contains id = (k.nodes.map (·.id)).any (· == id) :=
    fun k id => by
    rw [Bool.eq_iff_iff, contains_iff]
    simp
  rw [HasFreshId, HasFreshId, hnext, hnext, hcontains, hcontains, hids]

theorem tended_congr (hroster : g.roster = h.roster) : g.Tended group ↔ h.Tended group := by
  refine forall_congr' fun side => imp_congr_right fun _ => ?_
  rw [boundaryIds_congr hroster, hasFreshId_congr hroster]

theorem hasFreshId_of_insert {side : Direction}
    (hins : g.insert (.boundary side g.nextId) = .ok h) : g.HasFreshId := by
  refine Bool.eq_false_iff.2 fun hcontains => ?_
  obtain ⟨n, hn, hid⟩ := contains_iff.1 hcontains
  refine (insert_eq_ok_iff.1 hins).1 n hn (hid.trans ?_)
  cases side <;> rfl

/-- Where no boundary node is too many, a side is left as it is, or gets the node that it lacks. -/
theorem reconcileSide_cases {side : Direction} {wanted : Bool}
    (hside : (g.boundaryIds side).length ≤ if wanted then 1 else 0) :
    ((g.reconcileSide side wanted).2 = g ∧
      (wanted = true → g.boundaryIds side ≠ [] ∨ ¬g.HasFreshId)) ∨
      (g.insert (.boundary side g.nextId) = .ok (g.reconcileSide side wanted).2 ∧ wanted = true ∧
        g.boundaryIds side = []) := by
  cases hids : g.boundaryIds side with
  | nil =>
    cases wanted with
    | false => exact .inl ⟨by simp [reconcileSide, hids], fun hwanted => by cases hwanted⟩
    | true =>
      cases hins : g.insert (.boundary side g.nextId) with
      | ok h => exact .inr ⟨by simp [reconcileSide, hids, hins], rfl, rfl⟩
      | error e =>
        refine .inl ⟨by simp [reconcileSide, hids, hins], fun _ => .inr fun hfresh => ?_⟩
        rw [insert_of_hasFreshId hfresh] at hins
        cases hins
  | cons id rest =>
    have hlength : (g.boundaryIds side).length = if wanted then 1 else 0 := by
      refine Nat.le_antisymm hside ?_
      rw [hids, List.length_cons]
      split <;> omega
    exact .inl ⟨reconcileSide_eq_self hlength, fun _ => .inl (List.cons_ne_nil _ _)⟩

theorem length_place (n : Node Graph) (nodes : List (Node Graph)) :
    (place n nodes).length = nodes.length + 1 := by
  induction nodes with
  | nil => rfl
  | cons m ms ih =>
    rw [place]
    split <;> simp [ih]

section Allowed

variable {side : Direction} {wanted : Bool}

theorem boundaryIds_ne_nil_of_insert {id : NodeId} (hins : g.insert (.boundary side id) = .ok h) :
    h.boundaryIds side ≠ [] := by
  refine List.ne_nil_of_mem (mem_boundaryIds.2 ⟨.boundary side id, ?_, type_boundary side id, rfl⟩)
  rw [(insert_eq_ok_iff.1 hins).2]
  exact mem_place.2 (.inl rfl)

theorem length_of_insert {n : Node Graph} (hins : g.insert n = .ok h) :
    h.nodes.length = g.nodes.length + 1 := by
  rw [(insert_eq_ok_iff.1 hins).2, length_place]

theorem length_le_reconcileSide (hside : (g.boundaryIds side).length ≤ if wanted then 1 else 0) :
    g.nodes.length ≤ (g.reconcileSide side wanted).2.nodes.length := by
  rcases reconcileSide_cases hside with ⟨heq, -⟩ | ⟨hins, -⟩
  · exact Nat.le_of_eq (by rw [heq])
  · have hlength := length_of_insert hins
    omega

theorem reconcileSide_eq_of_length_le
    (hside : (g.boundaryIds side).length ≤ if wanted then 1 else 0)
    (hle : (g.reconcileSide side wanted).2.nodes.length ≤ g.nodes.length) :
    (g.reconcileSide side wanted).2 = g := by
  rcases reconcileSide_cases hside with ⟨heq, -⟩ | ⟨hins, -⟩
  · exact heq
  · have hlength := length_of_insert hins
    omega

theorem reconcileSide_eq_self_iff (hside : (g.boundaryIds side).length ≤ if wanted then 1 else 0) :
    (g.reconcileSide side wanted).2 = g ↔
    (wanted = true → g.boundaryIds side ≠ [] ∨ ¬g.HasFreshId) := by
  rcases reconcileSide_cases hside with ⟨heq, htended⟩ | ⟨hins, hwanted, hnil⟩
  · exact ⟨fun _ => htended, fun _ => heq⟩
  · refine ⟨fun heq => ?_, fun htended => ?_⟩
    · have hlength := length_of_insert hins
      rw [heq] at hlength
      omega
    · rcases htended hwanted with hids | hfresh
      · exact absurd hnil hids
      · exact absurd (hasFreshId_of_insert hins) hfresh

theorem length_boundaryIds_le_reconcileSide
    (hside : (g.boundaryIds side).length ≤ if wanted then 1 else 0) :
    ((g.reconcileSide side wanted).2.boundaryIds side).length ≤ if wanted then 1 else 0 := by
  rcases reconcileSide_cases hside with ⟨heq, -⟩ | ⟨hins, hwanted, hnil⟩
  · rw [heq]
    exact hside
  · have hlength := length_boundaryIds_place g.nodes g.links (type_boundary side g.nextId)
    have hnil : (⟨g.nodes, g.links⟩ : Graph).boundaryIds side = [] := hnil
    rw [hnil] at hlength
    rw [(insert_eq_ok_iff.1 hins).2, hwanted]
    exact Nat.le_of_eq hlength

variable (hg : g.WellFormed) (hallowed : g.Allowed group)

include hg hallowed

theorem allowed_reconcileSide :
    ((g.reconcileSide .input (group.exposes .input)).2.boundaryIds .output).length ≤
      if group.exposes .output then 1 else 0 := by
  rw [boundaryIds_reconcileSide hg.sound.ascending (by simp)]
  exact hallowed .output

theorem Allowed.reconcile : (g.reconcile group).2.Allowed group := by
  intro side
  cases side with
  | input =>
    have hother :=
      boundaryIds_reconcileSide (hg.reconcileSide .input (group.exposes .input)).sound.ascending
      (by simp : Direction.input ≠ .output) (group.exposes .output)
    have hinput := length_boundaryIds_le_reconcileSide (hallowed .input)
    rw [← hother] at hinput
    exact hinput
  | output => exact length_boundaryIds_le_reconcileSide (allowed_reconcileSide hg hallowed)

/-- A graph that gets no node by reconciling gets nothing on either side. -/
theorem reconcileSides_eq_of_length_le (hle : (g.reconcile group).2.nodes.length ≤ g.nodes.length) :
    (g.reconcileSide .input (group.exposes .input)).2 = g ∧
      (g.reconcileSide .output (group.exposes .output)).2 = g := by
  have hmore := length_le_reconcileSide (allowed_reconcileSide hg hallowed)
  have hfirst := reconcileSide_eq_of_length_le (hallowed .input) (Nat.le_trans hmore hle)
  have hsecond : ((g.reconcileSide .input (group.exposes .input)).2.reconcileSide .output
      (group.exposes .output)).2.nodes.length ≤ g.nodes.length := hle
  rw [hfirst] at hsecond
  exact ⟨hfirst, reconcileSide_eq_of_length_le (hallowed .output) hsecond⟩

theorem reconcile_eq_of_length_le (hle : (g.reconcile group).2.nodes.length ≤ g.nodes.length) :
    (g.reconcile group).2 = g := by
  obtain ⟨hfirst, hsecond⟩ := reconcileSides_eq_of_length_le hg hallowed hle
  simp only [reconcile, hfirst, hsecond]

/-- Reconciling changes nothing where no boundary node is missing. -/
theorem reconcile_eq_self_iff : (g.reconcile group).2 = g ↔ g.Tended group := by
  constructor
  · intro heq side
    obtain ⟨hfirst, hsecond⟩ :=
      reconcileSides_eq_of_length_le hg hallowed (Nat.le_of_eq (by rw [heq]))
    cases side with
    | input => exact (reconcileSide_eq_self_iff (hallowed .input)).1 hfirst
    | output => exact (reconcileSide_eq_self_iff (hallowed .output)).1 hsecond
  · intro htended
    have hfirst := (reconcileSide_eq_self_iff (hallowed .input)).2 (htended .input)
    have hsecond := (reconcileSide_eq_self_iff (hallowed .output)).2 (htended .output)
    simp only [reconcile, hfirst, hsecond]

/-- Nothing is missing after reconciling. -/
theorem tended_reconcile : (g.reconcile group).2.Tended group := by
  have hsecond := allowed_reconcileSide hg hallowed
  intro side hexposes
  cases side with
  | output =>
    rcases reconcileSide_cases hsecond with ⟨heq, htended⟩ | ⟨hins, -, -⟩
    · have hself : (g.reconcile group).2 = (g.reconcileSide .input (group.exposes .input)).2 := heq
      rw [hself]
      exact htended hexposes
    · exact .inl (boundaryIds_ne_nil_of_insert hins)
  | input =>
    have hids : (g.reconcile group).2.boundaryIds .input =
        (g.reconcileSide .input (group.exposes .input)).2.boundaryIds .input :=
      boundaryIds_reconcileSide (hg.reconcileSide .input _).sound.ascending (by simp) _
    rcases reconcileSide_cases (hallowed .input) with ⟨heq, htended⟩ | ⟨hins, -, -⟩
    · rw [heq] at hsecond
      rcases reconcileSide_cases hsecond with ⟨heq', -⟩ | ⟨hins', -, -⟩
      · have hself : (g.reconcile group).2 = g := by simp only [reconcile, heq, heq']
        rw [hself]
        exact htended hexposes
      · -- There was a fresh id, so that the side had its node.
        rw [hids, heq]
        exact .inl ((htended hexposes).resolve_right fun h => h (hasFreshId_of_insert hins'))
    · rw [hids]
      exact .inl (boundaryIds_ne_nil_of_insert hins)

end Allowed

end Graph
end FlowGraph
