import Mathlib.Data.List.Nodup
import Mathlib.Logic.Relation
import FlowGraph.Proofs.Outlines

/-! Where flow goes within one graph. A node with one flow input at most is entered by one link at
most, so that what flow reaches is a forest: a run takes every node of it, and none twice. -/
namespace FlowGraph

/-- The outputs along which flow goes on from a node: the named flow outputs, unless the node is a
group, and the first plain flow output. -/
def Node.leaving (n : Node Graph) : List Nat :=
  (if n.isGroup then [] else (n.outputs.zipIdx.filter fun e => Label.isNamedFlow e.1).map (·.2)) ++
    (n.flowPort? .output).toList

theorem eq_of_countP_le_one {α : Type} {p : α → Bool} {xs : List α} (h : xs.countP p ≤ 1)
    {i j : Nat} {x y : α} (hi : xs[i]? = some x) (hj : xs[j]? = some y) (hx : p x = true)
    (hy : p y = true) : i = j := by
  induction xs generalizing i j with
  | nil => cases hi
  | cons z zs ih =>
    rw [List.countP_cons] at h
    -- the first of two places leaves no room for the second
    have hone : ∀ {k : Nat} {w : α}, zs[k]? = some w → p w = true → p z = true → False := by
      intro k w hk hw hz
      have := List.countP_pos_iff.2 ⟨w, List.mem_of_getElem? hk, hw⟩
      simp only [hz, if_true] at h
      omega
    cases i <;> cases j
    · rfl
    · obtain rfl := Option.some.inj hi
      exact (hone hj hy hx).elim
    · obtain rfl := Option.some.inj hj
      exact (hone hi hx hy).elim
    · exact congrArg _ (ih (by omega) hi hj)

namespace Graph

variable {g : Graph}

def Leads (g : Graph) (a b : NodeId) : Prop :=
  ∃ n ∈ g.nodes, n.id = a ∧ ∃ port ∈ n.leaving, ∃ l ∈ g.outgoing a port, l.target.node = b

/-! ### One way in -/

def SingleEntry (g : Graph) : Prop := ∀ n ∈ g.nodes, n.inputs.countP Label.isFlow ≤ 1

def CarriesFlow (g : Graph) (l : Link) : Prop :=
  ∃ m ∈ g.nodes, m.id = l.target.node ∧ ∃ label, m.inputs[l.target.port.toNat]? = some label ∧
    Label.isFlow label = true

theorem isFlow_of_leaving {n : Node Graph} {port : Nat} (hport : port ∈ n.leaving) :
    ∃ label, n.outputs[port]? = some label ∧ Label.isFlow label = true := by
  rcases List.mem_append.1 hport with hnamed | hplain
  · cases hgroup : n.isGroup with
    | true => simp [hgroup] at hnamed
    | false =>
      simp only [hgroup, Bool.false_eq_true, if_false, List.mem_map, List.mem_filter] at hnamed
      obtain ⟨e, ⟨he, hlabel⟩, rfl⟩ := hnamed
      exact ⟨e.1, List.mk_mem_zipIdx_iff_getElem?.1 he, by simp [Label.isFlow, hlabel]⟩
  · have hfound : n.flowPort? .output = some port := by simpa using hplain
    exact ⟨Label.flow, Node.getElem?_of_flowPort? hfound, by decide⟩

theorem carriesFlow_of_leaving (hg : g.Sound) {n : Node Graph} (hn : n ∈ g.nodes) {port : Nat}
    (hport : port ∈ n.leaving) {l : Link} (hl : l ∈ g.outgoing n.id port) :
    l ∈ g.links ∧ g.CarriesFlow l := by
  simp only [outgoing, List.mem_filter, Bool.and_eq_true, beq_iff_eq] at hl
  obtain ⟨hmem, hsource, hindex⟩ := hl
  obtain ⟨n', hn', m, hm, hsource', htarget, -, a, b, ha, hb, hkind⟩ := hg.joined l hmem
  obtain rfl := eq_of_mem_of_id_eq hg.ascending hn hn' (hsource.symm.trans hsource'.symm)
  obtain ⟨label, hlabel, hflow⟩ := isFlow_of_leaving hport
  obtain rfl : label = a := Option.some.inj ((hindex ▸ hlabel).symm.trans ha)
  refine ⟨hmem, m, hm, htarget, b, hb, ?_⟩
  by_contra hdata
  simp [PortKind.ofLabel, hflow, hdata] at hkind

/-- Flow enters a node by one link at most. -/
theorem CarriesFlow.unique (hg : g.Sound) (hentry : g.SingleEntry) {l k : Link} (hl : l ∈ g.links)
    (hk : k ∈ g.links) (hlflow : g.CarriesFlow l) (hkflow : g.CarriesFlow k)
    (htarget : l.target.node = k.target.node) : l = k := by
  obtain ⟨m, hm, hid, a, ha, haflow⟩ := hlflow
  obtain ⟨m', hm', hid', b, hb, hbflow⟩ := hkflow
  obtain rfl := eq_of_mem_of_id_eq hg.ascending hm hm' (hid.trans (htarget.trans hid'.symm))
  have hport := eq_of_countP_le_one (hentry m hm) ha hb haflow hbflow
  refine eq_of_target_eq hg.single hl hk ?_
  rcases hlt : l.target with ⟨x, p⟩
  rcases hkt : k.target with ⟨y, q⟩
  rw [hlt, hkt] at htarget hport
  rw [Endpoint.mk.injEq]
  exact ⟨htarget, UInt64.toNat_inj.1 hport⟩

theorem Leads.unique (hg : g.Sound) (hentry : g.SingleEntry) {a b c : NodeId} (ha : g.Leads a c)
    (hb : g.Leads b c) : a = b := by
  obtain ⟨n, hn, rfl, port, hport, l, hl, hlc⟩ := ha
  obtain ⟨m, hm, rfl, port', hport', k, hk, hkc⟩ := hb
  obtain ⟨hlmem, hlflow⟩ := carriesFlow_of_leaving hg hn hport hl
  obtain ⟨hkmem, hkflow⟩ := carriesFlow_of_leaving hg hm hport' hk
  obtain rfl := CarriesFlow.unique hg hentry hlmem hkmem hlflow hkflow (hlc.trans hkc.symm)
  simp only [outgoing, List.mem_filter, Bool.and_eq_true, beq_iff_eq] at hl hk
  exact hl.2.1.symm.trans hk.2.1

theorem Leads.mem_ids (hg : g.Sound) {a b : NodeId} (h : g.Leads a b) : b ∈ g.ids := by
  obtain ⟨n, hn, rfl, port, hport, l, hl, rfl⟩ := h
  obtain ⟨-, m, hm, hid, -⟩ := carriesFlow_of_leaving hg hn hport hl
  exact hid ▸ List.mem_map_of_mem hm

theorem Leads.exists_input (hg : g.Sound) {m : Node Graph} (hm : m ∈ g.nodes) {a : NodeId}
    (h : g.Leads a m.id) :
    ∃ l ∈ g.links, l.target.node = m.id ∧ ∃ label, m.inputs[l.target.port.toNat]? = some label ∧
      Label.isFlow label = true := by
  obtain ⟨n, hn, rfl, port, hport, l, hl, htarget⟩ := h
  obtain ⟨hmem, m', hm', hid, hflow⟩ := carriesFlow_of_leaving hg hn hport hl
  obtain rfl := eq_of_mem_of_id_eq hg.ascending hm hm' (htarget.symm.trans hid.symm)
  exact ⟨l, hmem, htarget, hflow⟩

theorem not_leads_of_no_input (hg : g.Sound) {m : Node Graph} (hm : m ∈ g.nodes)
    (hnone : m.inputs.countP Label.isFlow = 0) (a : NodeId) : ¬g.Leads a m.id := by
  intro h
  obtain ⟨l, -, -, label, hlabel, hflow⟩ := h.exists_input hg hm
  exact absurd hflow
    (by simpa using List.countP_eq_zero.1 hnone label (List.mem_of_getElem? hlabel))

theorem not_leads_of_unfed (hg : g.Sound) (hentry : g.SingleEntry) {m : Node Graph}
    (hm : m ∈ g.nodes) (hexposes : m.exposes .input = true) (hunfed : g.hasIncomingFlow m = false)
    (a : NodeId) : ¬g.Leads a m.id := by
  intro h
  obtain ⟨l, hl, htarget, label, hlabel, hflow⟩ := h.exists_input hg hm
  obtain ⟨port, hport⟩ := Option.isSome_iff_exists.1 hexposes
  have hsame : l.target.port.toNat = port :=
    eq_of_countP_le_one (hentry m hm) hlabel (Node.getElem?_of_flowPort? hport) hflow (by decide)
  simp only [hasIncomingFlow, hport] at hunfed
  have hfed : g.incoming? m.id port = some l :=
    (incoming?_eq_some_iff hg.single).2 ⟨hl, htarget, hsame⟩
  simp [hfed] at hunfed

theorem nodup_leaving (n : Node Graph) : n.leaving.Nodup := by
  have hports : (n.outputs.zipIdx.map (·.2)).Nodup := by
    rw [List.zipIdx_map_snd]
    exact List.nodup_range'
  have hnamed : ((n.outputs.zipIdx.filter fun e => Label.isNamedFlow e.1).map (·.2)).Nodup :=
    hports.sublist (List.filter_sublist.map _)
  have hplain : (n.flowPort? .output).toList.Nodup := by cases n.flowPort? .output <;> simp
  cases hgroup : n.isGroup with
  | true => simpa [Node.leaving, hgroup] using hplain
  | false =>
    refine List.nodup_append.2 ⟨by simpa [hgroup] using hnamed, hplain, ?_⟩
    rintro port hport port' hport' rfl
    simp only [hgroup, Bool.false_eq_true, if_false, List.mem_map, List.mem_filter] at hport
    obtain ⟨e, ⟨he, hlabel⟩, rfl⟩ := hport
    have hfound : n.flowPort? .output = some e.2 := by simpa using hport'
    -- a plain flow output has no name
    obtain hflow : e.1 = Label.flow := Option.some.inj
      ((List.mk_mem_zipIdx_iff_getElem?.1 he).symm.trans (Node.getElem?_of_flowPort? hfound))
    rw [hflow] at hlabel
    exact absurd hlabel (by decide)

theorem nodup_outgoing (hg : g.Sound) (id : NodeId) (port : Nat) : (g.outgoing id port).Nodup :=
  (hg.single.filter _).imp fun hne heq => hne (congrArg Link.target heq)

/-- All that flow leads to from a node, over all its outputs. -/
theorem nodup_flatMap_targets (hg : g.Sound) (hentry : g.SingleEntry) {n : Node Graph}
    (hn : n ∈ g.nodes) :
    (n.leaving.flatMap fun port => (g.outgoing n.id port).map (·.target.node)).Nodup := by
  have hsame : ∀ port ∈ n.leaving, ∀ port' ∈ n.leaving, ∀ l ∈ g.outgoing n.id port,
      ∀ k ∈ g.outgoing n.id port', l.target.node = k.target.node → l = k := by
    intro port hport port' hport' l hl k hk htarget
    obtain ⟨hlmem, hlflow⟩ := carriesFlow_of_leaving hg hn hport hl
    obtain ⟨hkmem, hkflow⟩ := carriesFlow_of_leaving hg hn hport' hk
    exact hlflow.unique hg hentry hlmem hkmem hkflow htarget
  refine List.nodup_flatMap.2 ⟨fun port hport => ?_, ?_⟩
  · exact (nodup_outgoing hg n.id port).map_on fun l hl k hk => hsame port hport port
      hport l hl k hk
  · refine (nodup_leaving n).imp_of_mem fun {port port'} hport hport' hne => ?_
    intro x hx hx'
    obtain ⟨l, hl, rfl⟩ := List.mem_map.1 hx
    obtain ⟨k, hk, htarget⟩ := List.mem_map.1 hx'
    obtain rfl := hsame port hport port' hport' l hl k hk htarget.symm
    simp only [outgoing, List.mem_filter, Bool.and_eq_true, beq_iff_eq] at hl hk
    exact hne (hl.2.2.symm.trans hk.2.2)

/-! ### What is reached -/

def Within (g : Graph) (left : List NodeId) (a b : NodeId) : Prop := g.Leads a b ∧ b ∈ left

/-- Flow gets from a node to another over nodes that are left. -/
def Reaches (g : Graph) (left : List NodeId) : NodeId → NodeId → Prop :=
  Relation.ReflTransGen (g.Within left)

/-- A node that flow comes to from outside of what is left, if at all. -/
def Uppermost (g : Graph) (left : List NodeId) (id : NodeId) : Prop := ∀ a, g.Leads a id → a ∉ left

section Reach

variable {left left' : List NodeId} {a b id x : NodeId}

/-- Only what is reached needs to be left. -/
theorem Reaches.of_mem (h : g.Reaches left a x)
    (hleft : ∀ y ∈ left, g.Reaches left a y → y ∈ left') : g.Reaches left' a x := by
  induction h with
  | refl => exact .refl
  | tail hreach hstep ih => exact ih.tail ⟨hstep.1, hleft _ hstep.2 (hreach.tail hstep)⟩

theorem Reaches.mono (h : g.Reaches left a x) (hleft : left ⊆ left') : g.Reaches left' a x :=
  h.of_mem fun _ hy _ => hleft hy

theorem Reaches.mem (h : g.Reaches left a x) (ha : a ∈ left) : x ∈ left := by
  cases h with
  | refl => exact ha
  | tail _ hstep => exact hstep.2

/-- Nothing leads back to an uppermost node. -/
theorem Uppermost.ne_of_within (ha : a ∈ left) (hid : g.Uppermost left id) (h : g.Reaches left a b)
    (hb : g.Within left b x) : x ≠ id := by
  rintro rfl
  exact hid b hb.1 (h.mem ha)

/-- From an uppermost node, flow does without the node itself. -/
theorem Uppermost.reaches_erase (hnodup : left.Nodup) (hid : g.Uppermost left id)
    (hmem : id ∈ left) : g.Reaches (left.erase id) id x ↔ g.Reaches left id x := by
  constructor
  · exact fun h => h.mono List.erase_subset
  · intro h
    induction h with
    | refl => exact .refl
    | tail hreach hstep ih =>
      exact ih.tail ⟨hstep.1, hnodup.mem_erase_iff.2 ⟨hid.ne_of_within hmem hreach hstep, hstep.2⟩⟩

/-- Flow from one uppermost node does not get to what flow from another one gets to. -/
theorem Uppermost.disjoint (hg : g.Sound) (hentry : g.SingleEntry) (ha : g.Uppermost left a)
    (hb : g.Uppermost left b) (hamem : a ∈ left) (hbmem : b ∈ left) (hne : a ≠ b)
    (hax : g.Reaches left a x) (hbx : g.Reaches left b x) : False := by
  have hunique : Relator.RightUnique (Function.swap (g.Within left)) :=
    fun _ _ _ h h' => h.1.unique hg hentry h'.1
  have hback : ∀ {c d}, g.Reaches left c d →
      Relation.ReflTransGen (Function.swap (g.Within left)) d c :=
    fun h => Relation.reflTransGen_swap.2 h
  -- of two nodes above `x` one is above the other
  have hnot : ∀ {c d}, c ∈ left → g.Uppermost left d → c ≠ d → ¬g.Reaches left c d := by
    intro c d hc hd hcd h
    rcases Relation.ReflTransGen.cases_tail h with heq | ⟨e, he, hstep⟩
    · exact hcd heq.symm
    · exact hd.ne_of_within hc he hstep rfl
  rcases Relation.ReflTransGen.total_of_right_unique hunique (hback hax) (hback hbx) with h | h
  · exact hnot hbmem ha hne.symm (Relation.reflTransGen_swap.1 h)
  · exact hnot hamem hb hne (Relation.reflTransGen_swap.1 h)

/-- Where all nodes are left, flow reaches what it leads to in any number of steps. -/
theorem reaches_ids (hg : g.Sound) : g.Reaches g.ids a x ↔ Relation.ReflTransGen g.Leads a x := by
  have hstep : g.Within g.ids = g.Leads := by
    funext b c
    exact propext ⟨fun h => h.1, fun h => ⟨h, h.mem_ids hg⟩⟩
  rw [Reaches, hstep]

/-- So it does without the node that it starts at: coming back there, it starts anew. -/
theorem reaches_erase_ids (hg : g.Sound) :
    g.Reaches (g.ids.erase a) a x ↔ Relation.ReflTransGen g.Leads a x := by
  constructor
  · exact fun h => (reaches_ids hg).1 (h.mono List.erase_subset)
  · intro h
    induction h with
    | refl => exact .refl
    | @tail b c _ hstep ih =>
      by_cases hc : c = a
      · exact hc ▸ .refl
      · exact ih.tail ⟨hstep, (List.mem_erase_of_ne hc).2 (hstep.mem_ids hg)⟩

end Reach

end Graph

/-! ### Runs -/

namespace Outline

mutual

def nodes : Outline → List (Node Graph)
  | step _ node _ _ branches next => node :: (branchNodes branches ++ nodesOf next)
  | inlined node _ next => node :: nodesOf next

def nodesOf : List Outline → List (Node Graph)
  | [] => []
  | o :: os => nodes o ++ nodesOf os

def branchNodes : List (List Outline) → List (Node Graph)
  | [] => []
  | b :: bs => nodesOf b ++ branchNodes bs

end

theorem nodesOf_eq (os : List Outline) : nodesOf os = os.flatMap nodes := by
  induction os with
  | nil => rfl
  | cons o os ih => rw [nodesOf, ih, List.flatMap_cons]

theorem branchNodes_eq (bs : List (List Outline)) : branchNodes bs = bs.flatMap nodesOf := by
  induction bs with
  | nil => rfl
  | cons b bs ih => rw [branchNodes, ih, List.flatMap_cons]

theorem nodesOf_append (os os' : List Outline) :
    nodesOf (os ++ os') = nodesOf os ++ nodesOf os' := by
  simp only [nodesOf_eq, List.flatMap_append]

def ids (os : List Outline) : List NodeId := (nodesOf os).map (·.id)

theorem ids_append (os os' : List Outline) : ids (os ++ os') = ids os ++ ids os' := by
  simp only [ids, nodesOf_append, List.map_append]

theorem ids_flatMap {α : Type} (xs : List α) (f : α → List Outline) :
    ids (xs.flatMap f) = xs.flatMap fun x => ids (f x) := by
  induction xs with
  | nil => rfl
  | cons x xs ih => rw [List.flatMap_cons, ids_append, ih, List.flatMap_cons]

end Outline

namespace Scope

/-- What branches off and what follows, taken by output. -/
theorem flatMap_leaving (s : Scope) (node : Node Graph) {α : Type} {f : List NodeId → List α}
    (hf : f [] = []) :
    (node.leaving.flatMap fun port => f (s.targets node.id port)) =
      (if node.isGroup then [] else (s.branching node).flatMap f) ++ f (s.following node) := by
  have hplain : ((node.flowPort? .output).toList.flatMap fun port => f (s.targets node.id port)) =
      f (s.following node) := by
    unfold following
    cases node.flowPort? .output with
    | none => simp [hf]
    | some port => simp
  have hnamed : ∀ es : List (String × Nat),
      ((es.filter fun e => Label.isNamedFlow e.1).map (·.2)).flatMap
        (fun port => f (s.targets node.id port)) =
        (es.map fun e => if Label.isNamedFlow e.1 then s.targets node.id e.2
          else []).flatMap f := by
    intro es
    induction es with
    | nil => rfl
    | cons e es ih =>
      by_cases he : Label.isNamedFlow e.1
      · rw [List.filter_cons, if_pos he, List.map_cons, List.flatMap_cons, ih, List.map_cons,
          List.flatMap_cons, if_pos he]
      · rw [List.filter_cons, if_neg he, ih, List.map_cons, List.flatMap_cons, if_neg he, hf,
          List.nil_append]
  rw [Node.leaving, List.flatMap_append, hplain, branching]
  cases node.isGroup with
  | true => rfl
  | false => simp only [Bool.false_eq_true, if_false, hnamed]

theorem nodes_stepAt (s : Scope) (body : Node Graph → List Outline)
    {walk : List NodeId → List Outline} (hwalk : walk [] = []) (template : Template)
    (node : Node Graph) :
    (s.stepAt body walk template node).nodes =
      node :: node.leaving.flatMap fun port => Outline.nodesOf (walk (s.targets node.id port)) := by
  have hnil : Outline.nodesOf (walk []) = [] := by rw [hwalk, Outline.nodesOf]
  have hleaving := s.flatMap_leaving node (f := fun ids => Outline.nodesOf (walk ids)) hnil
  rw [hleaving, stepAt]
  split
  · rw [Outline.nodes, List.nil_append]
  · rw [Outline.nodes, Outline.branchNodes_eq, List.flatMap_map]

theorem ids_stepAt (s : Scope) (body : Node Graph → List Outline)
    {walk : List NodeId → List Outline} (hwalk : walk [] = []) (template : Template)
    (node : Node Graph) :
    Outline.ids [s.stepAt body walk template node] =
      node.id :: node.leaving.flatMap fun port => Outline.ids (walk (s.targets node.id port)) := by
  rw [Outline.ids, Outline.nodesOf, nodes_stepAt _ _ hwalk, Outline.nodesOf, List.append_nil,
    List.map_cons, List.map_flatMap]
  rfl

section Runs

variable {s : Scope} {body : Node Graph → List Outline}

/-- What a visit does: it takes what flow reaches from the node over nodes that are left. The ids of
branches are not used up. -/
structure Spreads (g : Graph) (left : List NodeId) (id : NodeId)
    (p : Option Outline × List NodeId) : Prop where
  nodup : (Outline.ids p.1.toList).Nodup
  mem_iff : ∀ x, x ∈ Outline.ids p.1.toList ↔ id ∈ left ∧ g.Reaches (left.erase id) id x
  sublist : p.2.Sublist left
  kept : ∀ x ∈ left, x ∉ Outline.ids p.1.toList → x ∈ p.2

structure Covers (g : Graph) (left starts : List NodeId) (p : List Outline × List NodeId) :
    Prop where
  nodup : (Outline.ids p.1).Nodup
  mem_iff : ∀ x, x ∈ Outline.ids p.1 ↔ ∃ a ∈ starts, a ∈ left ∧ g.Reaches left a x
  sublist : p.2.Sublist left
  kept : ∀ x ∈ left, x ∉ Outline.ids p.1 → x ∈ p.2

/-- Visits at uppermost nodes do not get into each other's way. -/
theorem chain_covers {g : Graph} (hg : g.Sound) (hentry : g.SingleEntry)
    {step : List NodeId → NodeId → Option Outline × List NodeId} {bound : Nat}
    (hstep : ∀ left id, left.Nodup → left.length ≤ bound → left ⊆ g.ids →
      Spreads g left id (step left id))
    {left starts : List NodeId} (hnodup : left.Nodup) (hbound : left.length ≤ bound)
    (hleft : left ⊆ g.ids) (hstarts : starts.Nodup) (hupper : ∀ a ∈ starts, g.Uppermost left a) :
    Covers g left starts (chain step left starts) := by
  induction starts generalizing left with
  | nil =>
    exact ⟨.nil, fun x => by simp [chain, Outline.ids, Outline.nodesOf], .refl _, fun x hx _ => hx⟩
  | cons a starts ih =>
    obtain ⟨hnew, hrest⟩ := List.nodup_cons.1 hstarts
    have hfirst := hstep left a hnodup hbound hleft
    have hsub := hfirst.sublist.subset
    have hrun := ih (hnodup.sublist hfirst.sublist) (Nat.le_trans hfirst.sublist.length_le hbound)
      (List.Subset.trans hsub hleft) hrest fun b hb c hc hmem => hupper b
        (List.mem_cons_of_mem _ hb) c hc (hsub hmem)
    have hfirst_iff : ∀ x, x ∈ Outline.ids (step left a).1.toList ↔ a ∈ left ∧ g.Reaches left a x :=
      fun x =>
      (hfirst.mem_iff x).trans
        (and_congr_right fun ha => (hupper a List.mem_cons_self).reaches_erase hnodup ha)
    have hapart : ∀ b ∈ starts, b ∈ left → ∀ y, g.Reaches left b y →
        y ∉ Outline.ids (step left a).1.toList := by
      intro b hb hbmem y hby hy
      obtain ⟨hamem, hay⟩ := (hfirst_iff y).1 hy
      exact (hupper a List.mem_cons_self).disjoint hg hentry (hupper b (List.mem_cons_of_mem _ hb))
        hamem hbmem
        (fun heq => hnew (heq ▸ hb)) hay hby
    -- what the first visit has used up is not missed later on
    have hrest_iff : ∀ x, x ∈ Outline.ids (chain step (step left a).2 starts).1 ↔
        ∃ b ∈ starts, b ∈ left ∧ g.Reaches left b x := by
      intro x
      rw [hrun.mem_iff]
      constructor
      · rintro ⟨b, hb, hbmem, hbx⟩
        exact ⟨b, hb, hsub hbmem, hbx.mono hsub⟩
      · rintro ⟨b, hb, hbmem, hbx⟩
        have hkept : ∀ y ∈ left, g.Reaches left b y → y ∈ (step left a).2 :=
          fun y hy hby => hfirst.kept y hy (hapart b hb hbmem y hby)
        exact ⟨b, hb, hkept b hbmem .refl, hbx.of_mem hkept⟩
    rw [chain_cons]
    refine ⟨?_, fun x => ?_, hrun.sublist.trans hfirst.sublist, fun x hx hnot => ?_⟩
    · rw [Outline.ids_append, List.nodup_append]
      refine ⟨hfirst.nodup, hrun.nodup, ?_⟩
      rintro x hx y hy rfl
      obtain ⟨b, hb, hbmem, hbx⟩ := (hrest_iff x).1 hy
      exact hapart b hb hbmem x hbx hx
    · rw [Outline.ids_append, List.mem_append, hfirst_iff, hrest_iff, List.exists_mem_cons_iff]
    · rw [Outline.ids_append, List.mem_append, not_or] at hnot
      exact hrun.kept x (hfirst.kept x hx hnot.1) hnot.2

theorem spreads_of_not_mem {g : Graph} {left : List NodeId} {id : NodeId} (hid : id ∉ left) :
    Spreads g left id (none, left) :=
  ⟨.nil, fun x => by simp [Outline.ids, Outline.nodesOf, hid], .refl _, fun _ hx _ => hx⟩

theorem following_cases (s : Scope) (node : Node Graph) :
    s.following node = [] ∨ ∃ port ∈ node.leaving, s.following node = s.targets node.id port := by
  unfold following Node.leaving
  cases node.flowPort? .output with
  | none => exact .inl rfl
  | some port => exact .inr ⟨port, by simp, rfl⟩

theorem leads_iff {g : Graph} {stem : String} (hg : g.Sound) {n : Node Graph} (hn : n ∈ g.nodes)
    {x : NodeId} :
    g.Leads n.id x ↔ ∃ port ∈ n.leaving, x ∈ targets ⟨.standard, g, stem⟩ n.id port := by
  constructor
  · rintro ⟨m, hm, hid, port, hport, l, hl, rfl⟩
    obtain rfl := Graph.eq_of_mem_of_id_eq hg.ascending hm hn hid
    exact ⟨port, hport, List.mem_map.2 ⟨l, hl, rfl⟩⟩
  · rintro ⟨port, hport, hx⟩
    obtain ⟨l, hl, rfl⟩ := List.mem_map.1 hx
    exact ⟨n, hn, rfl, port, hport, l, hl, rfl⟩

/-- Runs from the nodes that flow leads to from a node, once the node itself is used up. -/
theorem leaving_covers {g : Graph} (stem : String) (hg : g.Sound) (hentry : g.SingleEntry)
    {n : Node Graph} (hn : n ∈ g.nodes) {left : List NodeId} (hnew : n.id ∉ left)
    {run : List NodeId → List Outline × List NodeId}
    (hrun : ∀ starts, starts.Nodup → (∀ a ∈ starts, g.Uppermost left a) →
      Covers g left starts (run starts)) :
    (∀ port ∈ n.leaving, Covers g left (targets ⟨.standard, g, stem⟩ n.id port)
      (run (targets ⟨.standard, g, stem⟩ n.id port))) ∧
    (n.leaving.flatMap fun port => Outline.ids
      (run (targets ⟨.standard, g, stem⟩ n.id port)).1).Nodup := by
  have hupper : ∀ port ∈ n.leaving, ∀ a ∈ targets ⟨.standard, g, stem⟩ n.id port,
      g.Uppermost left a := by
    intro port hport a ha b hb
    rw [Graph.Leads.unique hg hentry hb ((leads_iff hg hn).2 ⟨port, hport, ha⟩)]
    exact hnew
  obtain ⟨htargets, happart⟩ := List.nodup_flatMap.1 (Graph.nodup_flatMap_targets hg hentry hn)
  have hcovers := fun port hport => hrun _ (htargets port hport) (hupper port hport)
  refine ⟨hcovers, List.nodup_flatMap.2 ⟨fun port hport => (hcovers port hport).nodup, ?_⟩⟩
  refine happart.imp_of_mem fun {port port'} hport hport' hdisjoint => ?_
  intro x hx hx'
  obtain ⟨a, ha, hamem, hax⟩ := ((hcovers port hport).mem_iff x).1 hx
  obtain ⟨b, hb, hbmem, hbx⟩ := ((hcovers port' hport').mem_iff x).1 hx'
  refine (hupper port hport a ha).disjoint hg hentry (hupper port' hport' b hb) hamem
    hbmem ?_ hax hbx
  rintro rfl
  exact hdisjoint ha hb

/-- The step at a node is at the node itself and, over all its outputs, at what is reached from the
nodes that flow leads to. -/
theorem spreads_stepAt {g : Graph} {stem : String} (hg : g.Sound) (hentry : g.SingleEntry)
    {n : Node Graph} (hn : n ∈ g.nodes) (template : Template) {left : List NodeId}
    (hnodup : left.Nodup) (hid : n.id ∈ left) {run : List NodeId → List Outline × List NodeId}
    (hnil : (run []).1 = [])
    (hrun : ∀ starts, starts.Nodup → (∀ a ∈ starts, g.Uppermost (left.erase n.id) a) →
      Covers g (left.erase n.id) starts (run starts)) :
    Spreads g left n.id
      (some (stepAt ⟨.standard, g, stem⟩ body (fun ids => (run ids).1) template n),
      (run (following ⟨.standard, g, stem⟩ n)).2) := by
  have hnew : n.id ∉ left.erase n.id := hnodup.not_mem_erase
  obtain ⟨hcovers, hflat⟩ := leaving_covers stem hg hentry hn hnew hrun
  obtain ⟨hlast, hwithin⟩ :
      Covers g (left.erase n.id) (following ⟨.standard, g, stem⟩ n)
        (run (following ⟨.standard, g, stem⟩ n)) ∧
        ∀ x ∈ Outline.ids (run (following ⟨.standard, g, stem⟩ n)).1,
          ∃ port ∈ n.leaving, x ∈ Outline.ids (run (targets ⟨.standard, g, stem⟩ n.id port)).1 := by
    rcases following_cases ⟨.standard, g, stem⟩ n with hnone | ⟨port, hport, hfollowing⟩
    · rw [hnone, hnil]
      exact ⟨hrun [] .nil fun a ha => (List.not_mem_nil ha).elim,
        fun x hx => (List.not_mem_nil hx).elim⟩
    · rw [hfollowing]
      exact ⟨hcovers port hport, fun x hx => ⟨port, hport, hx⟩⟩
  refine ⟨?_, fun x => ?_, hlast.sublist.trans List.erase_sublist, fun x hx hnot => ?_⟩
  · rw [Option.toList_some, ids_stepAt _ _ hnil]
    refine List.nodup_cons.2 ⟨fun hmem => ?_, hflat⟩
    obtain ⟨port, hport, hmem⟩ := List.mem_flatMap.1 hmem
    obtain ⟨a, -, ha, hreach⟩ := ((hcovers port hport).mem_iff _).1 hmem
    exact hnew (hreach.mem ha)
  · rw [Option.toList_some, ids_stepAt _ _ hnil, List.mem_cons, List.mem_flatMap, Graph.Reaches,
      Relation.ReflTransGen.cases_head_iff, and_iff_right hid]
    refine or_congr eq_comm ⟨?_, ?_⟩
    · rintro ⟨port, hport, hx⟩
      obtain ⟨a, ha, hamem, hax⟩ := ((hcovers port hport).mem_iff x).1 hx
      exact ⟨a, ⟨(leads_iff hg hn).2 ⟨port, hport, ha⟩, hamem⟩, hax⟩
    · rintro ⟨a, ⟨hlead, hamem⟩, hax⟩
      obtain ⟨port, hport, ha⟩ := (leads_iff hg hn).1 hlead
      exact ⟨port, hport, ((hcovers port hport).mem_iff x).2 ⟨a, ha, hamem, hax⟩⟩
  · rw [Option.toList_some, ids_stepAt _ _ hnil, List.mem_cons, List.mem_flatMap, not_or] at hnot
    exact hlast.kept x ((List.mem_erase_of_ne hnot.1).2 hx) fun hx' => hnot.2 (hwithin x hx')

/-- A visit takes what flow reaches, given that as many visits may follow one another as ids are
left. -/
theorem visit_spreads {g : Graph} {stem : String} (hg : g.Sound) (hentry : g.SingleEntry)
    (hknown : ∀ n ∈ g.nodes, Catalog.standard.contains n.type = true) (bound : Nat)
    (left : List NodeId) (id : NodeId) (hnodup : left.Nodup) (hbound : left.length ≤ bound)
    (hleft : left ⊆ g.ids) : Spreads g left id (visit ⟨.standard, g, stem⟩ body bound left id) := by
  induction bound generalizing left id with
  | zero =>
    obtain rfl := List.length_eq_zero_iff.1 (Nat.le_zero.1 hbound)
    exact spreads_of_not_mem (by simp)
  | succ bound ih =>
    by_cases hid : id ∈ left
    · obtain ⟨n, hn, rfl⟩ := List.mem_map.1 (hleft hid)
      obtain ⟨template, htemplate⟩ := Option.isSome_iff_exists.1 (hknown n hn)
      have hfind := (Graph.find?_eq_some_iff hg.ascending).2 ⟨hn, rfl⟩
      have hshorter : (left.erase n.id).length ≤ bound := by
        rw [List.length_erase_of_mem hid]
        omega
      rw [visit_of_mem (s := ⟨.standard, g, stem⟩) hid hfind htemplate]
      exact spreads_stepAt hg hentry hn template hnodup hid rfl fun starts =>
        chain_covers hg hentry ih (hnodup.erase n.id) hshorter
          (List.Subset.trans List.erase_subset hleft)
    · rw [visit_of_not_mem hid]
      exact spreads_of_not_mem hid

/-- The steps from nodes are at the nodes that flow reaches from them, each once, if flow comes to
none of the nodes to start at, or there is one only. -/
theorem outline_covers {g : Graph} {stem : String} (hg : g.Sound) (hentry : g.SingleEntry)
    (hknown : ∀ n ∈ g.nodes, Catalog.standard.contains n.type = true) {starts : List NodeId}
    (hstarts : starts.Nodup) (hmem : starts ⊆ g.ids)
    (hfirst : (∀ a ∈ starts, ∀ b, ¬g.Leads b a) ∨ ∃ a, starts = [a]) :
    (Outline.ids (outline ⟨.standard, g, stem⟩ body starts)).Nodup ∧
      ∀ x, x ∈ Outline.ids (outline ⟨.standard, g, stem⟩ body starts) ↔
        ∃ a ∈ starts, Relation.ReflTransGen g.Leads a x := by
  have hvisit : ∀ left id, left.Nodup → left.length ≤ g.ids.length → left ⊆ g.ids →
      Spreads g left id (visit ⟨.standard, g, stem⟩ body g.ids.length left id) :=
    visit_spreads hg hentry hknown g.ids.length
  rcases hfirst with hroots | ⟨a, rfl⟩
  · have hrun := chain_covers hg hentry hvisit (Graph.nodup_ids hg) (Nat.le_refl _)
      (List.Subset.refl _) hstarts
      fun a ha b hb => (hroots a ha b hb).elim
    refine ⟨hrun.nodup, fun x => (hrun.mem_iff x).trans ?_⟩
    refine exists_congr fun a => and_congr_right fun ha => ?_
    rw [and_iff_right (hmem ha), Graph.reaches_ids hg]
  · have hrun := hvisit g.ids a (Graph.nodup_ids hg) (Nat.le_refl _) (List.Subset.refl _)
    have heq : outline ⟨.standard, g, stem⟩ body [a] =
        (visit ⟨.standard, g, stem⟩ body g.ids.length g.ids a).1.toList := by
      rw [outline, chain_cons, chain, List.append_nil]
    rw [heq]
    refine ⟨hrun.nodup, fun x => (hrun.mem_iff x).trans ?_⟩
    rw [and_iff_right (hmem List.mem_cons_self), Graph.reaches_erase_ids hg]
    simp only [List.mem_singleton, exists_eq_left]

/-- Where flow enters a nested graph. -/
theorem entries_spec {g : Graph} (hg : g.Sound) (hentry : g.SingleEntry) :
    (entries g).Nodup ∧ entries g ⊆ g.ids ∧
    ((∀ a ∈ entries g, ∀ b, ¬g.Leads b a) ∨ ∃ a, entries g = [a]) := by
  rw [entries]
  split
  · next id hid =>
    have hmem : id ∈ g.ids := (List.filter_sublist.map _).subset (List.mem_of_head? hid)
    exact ⟨List.nodup_singleton _, List.cons_subset.2 ⟨hmem, List.nil_subset _⟩, .inr ⟨id, rfl⟩⟩
  · refine ⟨?_, ?_, .inl ?_⟩
    · exact (Graph.nodup_ids hg).sublist (List.filter_sublist.map _)
    · exact (List.filter_sublist.map _).subset
    · intro a ha b
      obtain ⟨n, hn, rfl⟩ := List.mem_map.1 ha
      simp only [List.mem_filter, Bool.and_eq_true, Bool.not_eq_true'] at hn
      exact Graph.not_leads_of_unfed hg hentry hn.1 hn.2.1.2 hn.2.2 b

end Runs

end Scope
end FlowGraph
