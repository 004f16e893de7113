import Mathlib.Data.List.Induction
import FlowGraph.Proofs.FlowTrace
import FlowGraph.Proofs.NameMap

/-! What a generated module writes: the nodes that flow reaches from the anchors of each section,
and the insides of groups, each at one place. So the locals of a module have different names. -/
namespace FlowGraph

/-! ### Variables -/

namespace Outline

mutual

/-- The variables that a step and what follows it declare. -/
def locals : Outline → List String
  | step _ _ _ varName branches next => varName :: (branchLocals branches ++ localsOf next)
  | inlined _ body next => localsOf body ++ localsOf next

def localsOf : List Outline → List String
  | [] => []
  | o :: os => locals o ++ localsOf os

def branchLocals : List (List Outline) → List String
  | [] => []
  | b :: bs => localsOf b ++ branchLocals bs

end

theorem localsOf_append (os os' : List Outline) :
    localsOf (os ++ os') = localsOf os ++ localsOf os' := by
  induction os with
  | nil => rfl
  | cons o os ih => rw [List.cons_append, localsOf, ih, localsOf, List.append_assoc]

theorem branchLocals_eq (bs : List (List Outline)) : branchLocals bs = bs.flatMap localsOf := by
  induction bs with
  | nil => rfl
  | cons b bs ih => rw [branchLocals, ih, List.flatMap_cons]

end Outline

namespace Scope

def variableAt (p : List NodeId × NodeId) : String := "n" ++ stemAt p.1 ++ idText p.2

def Declares (path : List NodeId) (os : List Outline) : Prop :=
  (Outline.localsOf os).Sublist ((Outline.traces path os).map variableAt)

theorem Declares.nil {path : List NodeId} : Declares path [] := .slnil

theorem Declares.append {path : List NodeId} {os os' : List Outline} (h : Declares path os)
    (h' : Declares path os') : Declares path (os ++ os') := by
  rw [Declares, Outline.localsOf_append, Outline.traces_append, List.map_append]
  exact List.Sublist.append h h'

theorem Declares.stepAt {g : Graph} {path : List NodeId} {body : Node Graph → List Outline}
    (hbody : ∀ n ∈ g.nodes, Declares (path ++ [n.id]) (body n)) {walk : List NodeId → List Outline}
    (hwalk : walk [] = []) (hall : ∀ ids, Declares path (walk ids)) (template : Template)
    {node : Node Graph} (hnode : node ∈ g.nodes) :
    Declares path [Scope.stepAt ⟨.standard, g, stemAt path⟩ body walk template node] := by
  have hnil : Outline.localsOf (walk []) = [] := by rw [hwalk, Outline.localsOf]
  have hnext : (node.leaving.flatMap fun port =>
      Outline.localsOf (walk (targets ⟨.standard, g, stemAt path⟩ node.id port))).Sublist
      ((node.leaving.flatMap fun port =>
        Outline.traces path (walk (targets ⟨.standard, g, stemAt path⟩ node.id port))).map
          variableAt) := by
    rw [List.map_flatMap]
    exact List.Sublist.flatMap_right _ fun port _ => hall _
  have hinside :
      Declares (path ++ [node.id]) (Scope.inside ⟨.standard, g, stemAt path⟩ body node) := by
    unfold Scope.inside
    split
    · exact hbody node hnode
    · exact .nil
  rw [flatMap_leaving ⟨.standard, g, stemAt path⟩ node (f := fun ids => Outline.localsOf (walk ids))
    hnil] at hnext
  rw [Declares, Outline.localsOf, Outline.localsOf, List.append_nil, Outline.traces, Outline.traces,
    List.append_nil, trace_stepAt _ _ hwalk, List.map_cons, List.map_append]
  cases hgroup : node.isGroup with
  | true =>
    rw [hgroup, if_pos rfl, List.nil_append] at hnext
    rw [Declares, Scope.inside, hgroup, Bool.true_and] at hinside
    rw [Scope.stepAt, hgroup, if_pos rfl, Outline.locals, Scope.inside, hgroup, Bool.true_and]
    exact (List.Sublist.append hinside hnext).cons _
  | false =>
    rw [hgroup, if_neg (by simp)] at hnext
    rw [Scope.stepAt, hgroup, if_neg (by simp), Outline.locals, Outline.branchLocals_eq,
      List.flatMap_map]
    exact (hnext.trans (List.sublist_append_right _ _)).cons_cons _

theorem declares_outline {g : Graph} {path : List NodeId} {body : Node Graph → List Outline}
    (hbody : ∀ n ∈ g.nodes, Declares (path ++ [n.id]) (body n)) (entries : List NodeId) :
    Declares path (Scope.outline ⟨.standard, g, stemAt path⟩ body entries) :=
  outline_induction .nil (fun _ _ h h' => h.append h')
    (fun _ template _ hnode hwalk hall => .stepAt hbody hwalk hall template hnode) entries

theorem declares_groupOutline {g : Graph} {path : List NodeId} {n : Node Graph}
    (hinner : ∀ inner, n.inner = some inner →
      Declares (path ++ [n.id]) (nestedOutline .standard inner (stemAt (path ++ [n.id])))) :
    Declares (path ++ [n.id]) (groupOutline ⟨.standard, g, stemAt path⟩ n) := by
  rw [groupOutline]
  cases hi : n.inner with
  | none => exact .nil
  | some inner =>
    have h := hinner inner hi
    rwa [stemAt_concat] at h

theorem declares_nestedOutline (g : Graph) (path : List NodeId) :
    Declares path (nestedOutline .standard g (stemAt path)) := by
  induction g using Graph.nestedInduction generalizing path with
  | step g ih =>
    rw [nestedOutline_eq]
    exact declares_outline (fun n hn => declares_groupOutline fun inner hi => ih n hn inner hi _) _

/-! ### Names -/

theorem toList_idText (id : NodeId) : (idText id).toList = Nat.toDigits 10 id.toNat := by
  rw [idText, Nat.toList_repr]

theorem toDigits_injective {a b : NodeId} (h : Nat.toDigits 10 a.toNat = Nat.toDigits 10 b.toNat) :
    a = b := by
  have hvalue := congrArg (fun cs => Nat.ofDigitChars 10 cs 0) h
  simp only [Nat.ofDigitChars_ten_toDigits] at hvalue
  exact UInt32.toNat_inj.1 hvalue

theorem underscore_not_mem_toDigits (n : Nat) : '_' ∉ Nat.toDigits 10 n := by
  intro hmem
  exact absurd (Nat.isDigit_of_mem_toDigits (by decide) (by decide) hmem) (by decide)

theorem eq_of_append_mark {α : Type} {mark : α} {front front' back back' : List α}
    (h : mark ∉ front) (h' : mark ∉ front')
    (heq : front ++ mark :: back = front' ++ mark :: back') : front = front' ∧ back = back' := by
  induction front generalizing front' with
  | nil =>
    cases front' with
    | nil => exact ⟨rfl, (List.cons.inj heq).2⟩
    | cons x xs => exact absurd ((List.cons.inj heq).1 ▸ List.mem_cons_self) h'
  | cons x xs ih =>
    cases front' with
    | nil => exact absurd ((List.cons.inj heq).1 ▸ List.mem_cons_self) h
    | cons y ys =>
      obtain ⟨rfl, hrest⟩ := List.cons.inj heq
      obtain ⟨rfl, hback⟩ := ih (fun hmem => h (List.mem_cons_of_mem _ hmem))
        (fun hmem => h' (List.mem_cons_of_mem _ hmem)) hrest
      exact ⟨rfl, hback⟩

def code (p : List NodeId × NodeId) : List Char :=
  (p.1.flatMap fun id => Nat.toDigits 10 id.toNat ++ ['_']) ++ Nat.toDigits 10 p.2.toNat

theorem toList_variableAt (p : List NodeId × NodeId) : (variableAt p).toList = 'n' :: code p := by
  have hstem : ∀ path : List NodeId,
      (stemAt path).toList = path.flatMap fun id => Nat.toDigits 10 id.toNat ++ ['_'] := by
    intro path
    induction path using List.reverseRecOn with
    | nil => rfl
    | append_singleton path id ih =>
      rw [stemAt_concat, innerStem, String.toList_append, String.toList_append, ih, toList_idText,
        List.flatMap_append, List.append_assoc]
      simp
  rw [variableAt, String.toList_append, String.toList_append, hstem, toList_idText]
  rfl

theorem code_injective {p q : List NodeId × NodeId} (h : code p = code q) : p = q := by
  obtain ⟨path, id⟩ := p
  obtain ⟨path', id'⟩ := q
  -- an underscore ends an id of the path, and there is none in the last id
  have hlast : ∀ {a b : NodeId} {rest : List NodeId} {c : NodeId},
      Nat.toDigits 10 a.toNat ≠ code (b :: rest, c) := by
    intro a b rest c heq
    refine underscore_not_mem_toDigits a.toNat (heq ▸ ?_)
    simp [code]
  induction path generalizing path' with
  | nil =>
    cases path' with
    | nil =>
      simp only [code, List.flatMap_nil, List.nil_append] at h
      rw [toDigits_injective h]
    | cons b rest => exact (hlast h).elim
  | cons a path ih =>
    cases path' with
    | nil => exact (hlast h.symm).elim
    | cons b rest =>
      simp only [code, List.flatMap_cons, List.append_assoc, List.cons_append, List.nil_append] at h
      obtain ⟨hfirst, hrest⟩ :=
        eq_of_append_mark (underscore_not_mem_toDigits _) (underscore_not_mem_toDigits _) h
      obtain ⟨rfl, rfl⟩ := Prod.mk.inj (ih rest hrest)
      rw [toDigits_injective hfirst]

/-- Different nodes have different variables. -/
theorem variableAt_injective {p q : List NodeId × NodeId} (h : variableAt p = variableAt q) :
    p = q := by
  have hcode := congrArg String.toList h
  rw [toList_variableAt, toList_variableAt] at hcode
  exact code_injective (List.cons.inj hcode).2

end Scope

/-! ### Sections -/

def Node.Anchors (n : Node Graph) (sect : Section) : Prop :=
  ∃ t, Catalog.standard.find? n.type = some t ∧ t.anchor n = some sect

theorem Node.Anchors.eq {n : Node Graph} {sect sect' : Section} (h : n.Anchors sect)
    (h' : n.Anchors sect') : sect = sect' := by
  obtain ⟨t, ht, hsect⟩ := h
  obtain ⟨t', ht', hsect'⟩ := h'
  obtain rfl := Option.some.inj (ht.symm.trans ht')
  exact Option.some.inj (hsect.symm.trans hsect')

theorem map_filterMap_sublist {α β γ : Type} {f : α → Option β} {key : β → γ} {key' : α → γ}
    {xs : List α} (h : ∀ x y, f x = some y → key y = key' x) :
    ((xs.filterMap f).map key).Sublist (xs.map key') := by
  induction xs with
  | nil => exact .slnil
  | cons x xs ih =>
    cases hx : f x with
    | none =>
      rw [List.filterMap_cons_none hx]
      exact ih.cons _
    | some y =>
      rw [List.filterMap_cons_some hx, List.map_cons, List.map_cons, h x y hx]
      exact ih.cons_cons _

namespace Module

def starts (root : Graph) (sect : Section) : List NodeId :=
  ((anchors ⟨.standard, root, ""⟩).filter (·.1 == sect)).map (·.2)

def sectionOutline (root : Graph) (sect : Section) : List Outline :=
  Scope.outline ⟨.standard, root, ""⟩ (Scope.groupOutline ⟨.standard, root, ""⟩) (starts root sect)

def sectionsOf (root : Graph) : List Section :=
  Section.lifecycle ++ (customSections (anchors ⟨.standard, root, ""⟩)).entries.map
    fun e => .custom e.1

section Sections

variable {root : Graph}

theorem noInput_of_anchors (horderly : root.Orderly) {n : Node Graph} (hn : n ∈ root.nodes)
    {sect : Section} (h : n.Anchors sect) : n.inputs.countP Label.isFlow = 0 := by
  obtain ⟨t, ht, hsect⟩ := h
  exact horderly.anchors n hn t ht (by rw [hsect]; rfl)

theorem hasIncomingFlow_of_anchors (horderly : root.Orderly) {n : Node Graph} (hn : n ∈ root.nodes)
    {sect : Section} (h : n.Anchors sect) : root.hasIncomingFlow n = false := by
  cases hport : n.flowPort? .input with
  | none => simp only [Graph.hasIncomingFlow, hport]
  | some port =>
    have hmem := List.mem_of_getElem? (Node.getElem?_of_flowPort? hport)
    exact absurd (List.countP_eq_zero.1 (noInput_of_anchors horderly hn h) _ hmem) (by decide)

theorem mem_anchors_iff (horderly : root.Orderly) {sect : Section} {id : NodeId} :
    (sect, id) ∈ anchors ⟨.standard, root, ""⟩ ↔ ∃ n ∈ root.nodes, n.Anchors sect ∧ n.id = id := by
  rw [anchors, List.mem_filterMap]
  refine exists_congr fun n => and_congr_right fun hn => ?_
  simp only [Option.bind_eq_bind, Option.bind_eq_some_iff]
  constructor
  · rintro ⟨t, ht, sect', hsect, hsome⟩
    split at hsome
    · cases hsome
    · obtain ⟨rfl, rfl⟩ := Prod.mk.inj (Option.some.inj hsome)
      exact ⟨⟨t, ht, hsect⟩, rfl⟩
  · rintro ⟨hanchors, rfl⟩
    have hunfed := hasIncomingFlow_of_anchors horderly hn hanchors
    obtain ⟨t, ht, hsect⟩ := hanchors
    exact ⟨t, ht, sect, hsect, by rw [hunfed]; rfl⟩

theorem mem_starts_iff (horderly : root.Orderly) {sect : Section} {id : NodeId} :
    id ∈ starts root sect ↔ ∃ n ∈ root.nodes, n.Anchors sect ∧ n.id = id := by
  rw [← mem_anchors_iff horderly, starts]
  simp

theorem starts_sublist (root : Graph) (sect : Section) : (starts root sect).Sublist root.ids := by
  refine (List.filter_sublist.map _).trans (map_filterMap_sublist fun n p hp => ?_)
  simp only [Option.bind_eq_bind, Option.bind_eq_some_iff] at hp
  obtain ⟨t, -, sect', -, hsome⟩ := hp
  split at hsome
  · cases hsome
  · rw [← Option.some.inj hsome]

/-- The steps of a section are at the nodes that flow reaches from its anchors, each once. -/
theorem sectionOutline_spec (hg : root.Sound) (horderly : root.Orderly) (sect : Section) :
    (Outline.ids (sectionOutline root sect)).Nodup ∧ ∀ x,
      x ∈ Outline.ids (sectionOutline root sect) ↔
      ∃ n ∈ root.nodes, n.Anchors sect ∧ Relation.ReflTransGen root.Leads n.id x := by
  have hsub := starts_sublist root sect
  have hroots : ∀ a ∈ starts root sect, ∀ b, ¬root.Leads b a := by
    intro a ha b
    obtain ⟨n, hn, hanchors, rfl⟩ := (mem_starts_iff horderly).1 ha
    exact Graph.not_leads_of_no_input hg hn (noInput_of_anchors horderly hn hanchors) b
  have hcovers : (Outline.ids (sectionOutline root sect)).Nodup ∧ ∀ x,
      x ∈ Outline.ids (sectionOutline root sect) ↔
      ∃ a ∈ starts root sect, Relation.ReflTransGen root.Leads a x :=
    Scope.outline_covers hg horderly.entry horderly.known ((Graph.nodup_ids hg).sublist hsub)
      hsub.subset (.inl hroots)
  refine ⟨hcovers.1, fun x => (hcovers.2 x).trans ⟨?_, ?_⟩⟩
  · rintro ⟨a, ha, hreach⟩
    obtain ⟨n, hn, hanchors, rfl⟩ := (mem_starts_iff horderly).1 ha
    exact ⟨n, hn, hanchors, hreach⟩
  · rintro ⟨n, hn, hanchors, hreach⟩
    exact ⟨n.id, (mem_starts_iff horderly).2 ⟨n, hn, hanchors, rfl⟩, hreach⟩

theorem nodup_sectionsOf (root : Graph) : (sectionsOf root).Nodup := by
  refine List.nodup_append.2 ⟨by decide, ?_, ?_⟩
  · have hnames := (NameMap.nodup_names (customSections (anchors ⟨.standard, root, ""⟩))).map
      (f := Section.custom) fun _ _ heq => Section.custom.inj heq
    rwa [List.map_map] at hnames
  · rintro sect hsect _ hcustom rfl
    obtain ⟨e, -, rfl⟩ := List.mem_map.1 hcustom
    simp [Section.lifecycle] at hsect

theorem contains_foldl {f : NameMap NodeId → Section × NodeId → NameMap NodeId} {name : String}
    {id : NodeId} (hkept : ∀ m p, m.contains name = true → (f m p).contains name = true)
    (hput : ∀ m, (f m (.custom name, id)).contains name = true) {anchors : List (Section × NodeId)}
    (hmem : (Section.custom name, id) ∈ anchors) (m : NameMap NodeId) :
    (anchors.foldl f m).contains name = true := by
  have hall : ∀ (ps : List (Section × NodeId)) m, m.contains name = true →
      (ps.foldl f m).contains name = true := by
    intro ps
    induction ps with
    | nil => exact fun _ h => h
    | cons p ps ih => exact fun m h => ih _ (hkept m p h)
  obtain ⟨front, back, rfl⟩ := List.append_of_mem hmem
  rw [List.foldl_append, List.foldl_cons]
  exact hall back _ (hput _)

theorem mem_sectionsOf (horderly : root.Orderly) {n : Node Graph} (hn : n ∈ root.nodes)
    {sect : Section} (hanchors : n.Anchors sect) : sect ∈ sectionsOf root := by
  cases sect with
  | custom name =>
    have hmem := (mem_anchors_iff horderly).2 ⟨n, hn, hanchors, rfl⟩
    have hcontains : (customSections (anchors ⟨.standard, root, ""⟩)).contains name = true := by
      refine contains_foldl (fun m p h => ?_)
        (fun m => NameMap.contains_insertNew.2 (.inl rfl)) hmem _
      obtain ⟨sect, id⟩ := p
      cases sect with
      | custom other => exact NameMap.contains_insertNew.2 (.inr h)
      | _ => exact h
    obtain ⟨e, he, rfl⟩ := List.mem_map.1 (NameMap.contains_iff_mem.1 hcontains)
    exact List.mem_append_right _ (List.mem_map_of_mem he)
  | _ => exact List.mem_append_left _ (by decide)

/-- No node is in two sections. -/
theorem nodup_ids_sections (hg : root.Sound) (horderly : root.Orderly) :
    (Outline.ids ((sectionsOf root).flatMap (sectionOutline root))).Nodup := by
  rw [Outline.ids_flatMap, List.nodup_flatMap]
  refine ⟨fun sect _ => (sectionOutline_spec hg horderly sect).1, ?_⟩
  refine (nodup_sectionsOf root).imp fun {sect sect'} hne => ?_
  intro x hx hx'
  obtain ⟨n, hn, hanchors, hreach⟩ := ((sectionOutline_spec hg horderly sect).2 x).1 hx
  obtain ⟨m, hm, hanchors', hreach'⟩ := ((sectionOutline_spec hg horderly sect').2 x).1 hx'
  have hupper : ∀ {k : Node Graph} {s}, k ∈ root.nodes → k.Anchors s →
      root.Uppermost root.ids k.id :=
    fun hk h b hb =>
      (Graph.not_leads_of_no_input hg hk (noInput_of_anchors horderly hk h) b hb).elim
  refine (hupper hn hanchors).disjoint hg horderly.entry (hupper hm hanchors')
    (List.mem_map_of_mem hn)
    (List.mem_map_of_mem hm) (fun hid => ?_) ((Graph.reaches_ids hg).2 hreach)
      ((Graph.reaches_ids hg).2 hreach')
  obtain rfl := Graph.eq_of_mem_of_id_eq hg.ascending hn hm hid
  exact hne (hanchors.eq hanchors')

end Sections

/-! ### Routines -/

/-- The groups that become routines are those that no flow enters, at any depth. -/
theorem freeGroups_eq_groups (g : Graph) (path : List NodeId) :
    freeGroups .standard g (Scope.stemAt path) =
    ((g.groups path).filter (·.isFree)).map fun q => (q.node, Outline.source q.outline) := by
  induction g using Graph.nestedInduction generalizing path with
  | step g ih =>
    rw [freeGroups_eq, List.map_eq_flatMap, Graph.flatMap_free_eq]
    refine List.flatMap_congr fun n hn => ?_
    have hbelow :
        (n.inner.map fun inner =>
          freeGroups .standard inner (Scope.innerStem (Scope.stemAt path) n.id)) =
        n.inner.map fun inner =>
          ((inner.groups (path ++ [n.id])).filter (·.isFree)).flatMap fun q =>
            [(q.node, Outline.source q.outline)] := by
      cases hi : n.inner with
      | none => rfl
      | some inner =>
        rw [Option.map_some, Option.map_some, ← Scope.stemAt_concat, ih n hn inner hi,
          List.map_eq_flatMap]
    rw [hbelow]
    rfl

theorem map_assignNames {α β : Type} (f : α → β) (wanted : α → String × NodeId)
    (taken : List String) (xs : List α) :
    (assignNames wanted taken xs).map (fun p => f p.1) = xs.map f := by
  induction xs generalizing taken with
  | nil => rfl
  | cons x xs ih => rw [assignNames, List.map_cons, ih, List.map_cons]

theorem unknownType?_eq_none {g : Graph} (h : g.Everywhere Graph.Orderly) :
    unknownType? .standard g = none := by
  induction h with
  | @intro g here _ ih =>
    rw [unknownType?_eq, List.findSome?_eq_none_iff]
    intro n hn
    rw [if_pos (here.known n hn)]
    cases hi : n.inner with
    | none => rfl
    | some inner => rw [Option.map_some, ih n hn inner hi]; rfl

/-- What the bodies of a module are the texts of. -/
theorem bodies_of_generate {root : Graph} {options : Options} {metadata : Metadata} {m : Module}
    (h : generate .standard options metadata root = .ok m) :
    m.sections.map (fun x => (x.sect, x.body)) =
        (sectionsOf root).map (fun sect => (sect, Outline.source (sectionOutline root sect))) ∧
      m.routines.map (fun r => (r.group, r.body)) =
        ((root.groups []).filter (·.isFree)).map
        fun q => (q.node.id, Outline.source q.outline) := by
  rw [generate] at h
  split at h
  · cases h
  obtain rfl := Except.ok.inj h
  constructor
  · rw [sectionsOf, List.map_append, List.map_append, List.map_map, List.map_map, List.map_map]
    exact congrArg _ (map_assignNames (fun e : String × NodeId =>
      (Section.custom e.1, Outline.source (sectionOutline root (.custom e.1)))) _ _ _)
  · have hgroups : freeGroups .standard root "" = _ := freeGroups_eq_groups root []
    rw [List.map_map, hgroups]
    refine (map_assignNames (fun x : Node Graph × String => (x.1.id, x.2)) _ _ _).trans ?_
    rw [List.map_map]
    rfl

theorem exists_generate {root : Graph} (h : root.Everywhere Graph.Orderly) (options : Options)
    (metadata : Metadata) : ∃ m, generate .standard options metadata root = .ok m := by
  rw [generate, unknownType?_eq_none h]
  exact ⟨_, rfl⟩

/-! ### Modules -/

/-- All that is written in a module, sections before routines. -/
def emission (root : Graph) : List (List NodeId × NodeId) :=
  ((sectionsOf root).flatMap fun sect => Outline.traces [] (sectionOutline root sect)) ++
    ((root.groups []).filter (·.isFree)).flatMap fun q => Outline.traces q.inside q.outline

def declared (root : Graph) : List String :=
  ((sectionsOf root).flatMap fun sect => Outline.localsOf (sectionOutline root sect)) ++
    ((root.groups []).filter (·.isFree)).flatMap fun q => Outline.localsOf q.outline

/-- A module that writes what flow reaches in a graph, and nothing twice. -/
structure EmitsOnce (root : Graph) (m : Module) : Prop where
  /-- The sections are the texts of these steps. -/
  sections_eq : m.sections.map (fun x => (x.sect, x.body)) =
    (sectionsOf root).map fun sect => (sect, Outline.source (sectionOutline root sect))
  /-- The routines are the groups that no flow enters, in the order of `groups`. -/
  routines_eq : m.routines.map (fun r => (r.group, r.body)) =
    ((root.groups []).filter (·.isFree)).map fun q => (q.node.id, Outline.source q.outline)
  nodup_emission : (emission root).Nodup
  /-- Every anchor has its section. -/
  mem_sectionsOf : ∀ n ∈ root.nodes, ∀ sect, n.Anchors sect → sect ∈ sectionsOf root
  /-- In the outermost graph a section writes what flow reaches from its anchors. -/
  mem_section_iff : ∀ sect id, ([], id) ∈ Outline.traces [] (sectionOutline root sect) ↔
    ∃ n ∈ root.nodes, n.Anchors sect ∧ Relation.ReflTransGen root.Leads n.id id
  /-- Inside a group it is what flow reaches from the entries of the nested graph. -/
  mem_inside_iff : ∀ q ∈ root.groups [], ∀ inner, q.node.inner = some inner → ∀ id,
    (q.inside, id) ∈ Outline.traces q.inside q.outline ↔
      ∃ a ∈ Scope.entries inner, Relation.ReflTransGen inner.Leads a id
  /-- All groups are listed, at any depth, and none twice. -/
  mem_groups_iff : ∀ q, q ∈ root.groups [] ↔
    root.inner? q.path = some q.graph ∧ q.node ∈ q.graph.nodes ∧ q.node.isGroup = true
  nodup_groups : ((root.groups []).map Placed.inside).Nodup
  /-- What is inside a group that no flow enters is written in the routine of that group only. -/
  not_inlined : ∀ q ∈ root.groups [], q.isFree = true → ∀ id,
    (∀ sect, (q.inside, id) ∉ Outline.traces [] (sectionOutline root sect)) ∧
      ∀ r ∈ root.groups [], (q.inside, id) ∈ Outline.traces r.inside r.outline → r = q
  /-- The variables are those of nodes that are written, and have different names. -/
  declared_sublist : (declared root).Sublist ((emission root).map Scope.variableAt)
  nodup_variables : ((emission root).map Scope.variableAt).Nodup

section Emission

variable {root : Graph}

theorem sectionOutline_splits (root : Graph) (sect : Section) :
    Scope.Splits ⟨.standard, root, Scope.stemAt []⟩
      (Scope.groupOutline ⟨.standard, root, Scope.stemAt []⟩) [] (sectionOutline root sect) :=
  .outline _

theorem nodup_emission (hwf : root.WellFormed) (horderly : root.Everywhere Graph.Orderly) :
    (emission root).Nodup := by
  have h := Graph.nodup_traces hwf horderly (.flatMap fun sect _ => sectionOutline_splits root sect)
    (nodup_ids_sections hwf.sound horderly.here)
  rwa [Outline.traces_flatMap] at h

theorem declared_sublist (root : Graph) :
    (declared root).Sublist ((emission root).map Scope.variableAt) := by
  rw [emission, List.map_append, List.map_flatMap, List.map_flatMap]
  refine .append (List.Sublist.flatMap_right _ fun sect _ => ?_)
    (List.Sublist.flatMap_right _ fun q _ => ?_)
  · have h : Scope.Declares [] (sectionOutline root sect) := Scope.declares_outline (fun n _ =>
      Scope.declares_groupOutline fun inner _ => Scope.declares_nestedOutline inner _)
        (starts root sect)
    exact h
  · cases hi : q.node.inner with
    | none =>
      rw [Placed.outline_of_none hi]
      exact .slnil
    | some inner =>
      rw [Placed.outline_of_some hi]
      exact Scope.declares_nestedOutline inner q.inside

theorem mem_inside_iff (hwf : root.WellFormed) (horderly : root.Everywhere Graph.Orderly)
    {q : Placed} (hq : q ∈ root.groups []) {inner : Graph} (hi : q.node.inner = some inner)
    (id : NodeId) :
    (q.inside, id) ∈ Outline.traces q.inside q.outline ↔
      ∃ a ∈ Scope.entries inner, Relation.ReflTransGen inner.Leads a id := by
  have hinner := Graph.inner?_inside hwf horderly hq hi
  rw [Placed.outline_of_some hi, (Graph.nestedOutline_splits q.inside).mem_traces_iff]
  exact (Graph.nestedOutline_spec (hwf.inner? hinner).here (horderly.inner? hinner).here _).2 id

theorem not_inlined (hwf : root.WellFormed) (horderly : root.Everywhere Graph.Orderly) {q : Placed}
    (hq : q ∈ root.groups []) (hfree : q.isFree = true) (id : NodeId) :
    (∀ sect, (q.inside, id) ∉ Outline.traces [] (sectionOutline root sect)) ∧
      ∀ r ∈ root.groups [], (q.inside, id) ∈ Outline.traces r.inside r.outline → r = q := by
  have hfree := Graph.not_entered_of_isFree hwf horderly hq hfree
  refine ⟨fun sect hp => ?_, fun r hr hp => ?_⟩
  · obtain ⟨rest, heq, rfl | hrest⟩ :=
      Graph.entered_of_mem_traces hwf (sectionOutline_splits root sect) hp
    · simp [Placed.inside] at heq
    · have heq : q.inside = rest := heq
      exact hfree (heq ▸ hrest)
  · cases hi : r.node.inner with
    | none =>
      rw [Placed.outline_of_none hi] at hp
      cases hp
    | some inner =>
      have hinner := Graph.inner?_inside hwf horderly hr hi
      rw [Placed.outline_of_some hi] at hp
      obtain ⟨rest, heq, rfl | hrest⟩ :=
        Graph.entered_of_mem_traces (hwf.inner? hinner) (Graph.nestedOutline_splits r.inside) hp
      · exact Graph.eq_of_inside_eq hwf horderly hr hq (heq.trans (List.append_nil _)).symm
      · have heq : q.inside = r.inside ++ rest := heq
        exact (hfree (heq ▸ hrest.append hinner)).elim

def logInside : Graph :=
  ⟨[.boundary .input 1, .boundary .output 2, .ofType 3 "log" ["flow", "message"] ["flow"]],
    [⟨⟨1, 0⟩, ⟨3, 0⟩⟩, ⟨⟨3, 0⟩, ⟨2, 0⟩⟩]⟩

def twoGroups : Graph :=
  ⟨[.ofType 1 "on-start" [] ["flow"], .group 2 "Body" ["flow"] ["flow"] logInside,
    .ofType 3 "log" ["flow", "message"] ["flow"], .group 4 "Apart" ["flow"] ["flow"] logInside],
    [⟨⟨1, 0⟩, ⟨2, 0⟩⟩, ⟨⟨2, 0⟩, ⟨3, 0⟩⟩]⟩

theorem everywhere_twoGroups {P : Graph → Prop} (here : P twoGroups) (inside : P logInside) :
    twoGroups.Everywhere P := by
  have hinside : logInside.Everywhere P := by
    refine .intro inside fun n hn k hk => ?_
    simp only [logInside, List.mem_cons, List.not_mem_nil, or_false] at hn
    rcases hn with rfl | rfl | rfl <;> cases hk
  refine .intro here fun n hn k hk => ?_
  simp only [twoGroups, List.mem_cons, List.not_mem_nil, or_false] at hn
  rcases hn with rfl | rfl | rfl | rfl
  · cases hk
  · exact Option.some.inj hk ▸ hinside
  · cases hk
  · exact Option.some.inj hk ▸ hinside

theorem wellFormed_twoGroups : twoGroups.WellFormed := everywhere_twoGroups
  (Graph.sound_of_fits (by decide) (List.all_eq_true.1 (by decide)) (by decide))
  (Graph.sound_of_fits (by decide) (List.all_eq_true.1 (by decide)) (by decide))

/-- The module of a graph in which a node has one flow input at most writes each node where flow
reaches it, and no node twice. -/
theorem generate_emitsOnce (hwf : root.WellFormed) (horderly : root.Everywhere Graph.Orderly)
    (options : Options) (metadata : Metadata) :
    ∃ m, generate .standard options metadata root = .ok m ∧ m.EmitsOnce root := by
  obtain ⟨m, hm⟩ := exists_generate horderly options metadata
  obtain ⟨hsections, hroutines⟩ := bodies_of_generate hm
  have hnodup := nodup_emission hwf horderly
  exact ⟨m, hm, {
    sections_eq := hsections
    routines_eq := hroutines
    nodup_emission := hnodup
    mem_sectionsOf := fun n hn sect => mem_sectionsOf horderly.here hn
    mem_section_iff := fun sect id =>
      (sectionOutline_splits root sect).mem_traces_iff.trans
        ((sectionOutline_spec hwf.sound horderly.here sect).2 id)
    mem_inside_iff := fun q hq inner hi => mem_inside_iff hwf horderly hq hi
    mem_groups_iff := fun q => Graph.mem_groups_nil hwf horderly
    nodup_groups := Graph.nodup_groups hwf []
    not_inlined := fun q hq hfree => not_inlined hwf horderly hq hfree
    declared_sublist := declared_sublist root
    nodup_variables := hnodup.map fun _ _ => Scope.variableAt_injective }⟩

/-- Group 2 is written where flow comes to it, and group 4 in its routine. -/
theorem generate_emitsOnce_twoGroups :
    emission twoGroups =
      [([], 1), ([], 2), ([2], 1), ([2], 3), ([2], 2), ([], 3), ([4], 1), ([4], 3), ([4], 2)] ∧
    declared twoGroups = ["n1", "n2_1", "n2_3", "n2_2", "n3", "n4_1", "n4_3", "n4_2"] ∧
    ∃ m, generate .standard .standard (.ofName "Module") twoGroups = .ok m ∧
      m.EmitsOnce twoGroups := by
  have horderly : twoGroups.Everywhere Graph.Orderly := everywhere_twoGroups
    (Graph.orderly_of_all (by decide +kernel)) (Graph.orderly_of_all (by decide +kernel))
  exact ⟨by decide +kernel, by decide +kernel, generate_emitsOnce wellFormed_twoGroups horderly _ _⟩

end Emission

end Module
end FlowGraph
