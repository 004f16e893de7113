import Mathlib.Data.List.Lex
import FlowGraph.Proofs.CheckedGeneration

/-! The properties that a module registers. Every property that a node of some level exposes counts,
whether flow comes to the node or not; of those with the same name the first one does, in the order
of the paths to the nodes. -/
namespace FlowGraph

/-! ### Exposed properties -/

/-- What a node exposes: a property with the name and the value of its fields, or else with the name
`value` and with zero. -/
structure Node.Exposes (n : Node Graph) (p : Property) : Prop where
  type_eq : n.type = "set-property"
  exposed : n.fields.get? "expose" = some (.bool true)
  name_eq : n.fields.get? "name" = some (.text p.name) ∨
    (∀ s, n.fields.get? "name" ≠ some (.text s)) ∧ p.name = "value"
  default_eq : n.fields.get? "value" = some p.default ∨ n.fields.get? "value" = none ∧
    p.default = .number .zero

def Catalog.property? (catalog : Catalog) (n : Node Graph) : Option Property :=
  (catalog.find? n.type).bind (·.property n)

theorem Value.bool?_eq_some_iff {v : Value} {b : Bool} : v.bool? = some b ↔ v = .bool b := by
  cases v <;> simp [Value.bool?]

theorem Value.text?_eq_some_iff {v : Value} {s : String} : v.text? = some s ↔ v = .text s := by
  cases v <;> simp [Value.text?]

theorem Node.text?_eq_some_iff {n : Node Graph} {name text : String} :
    n.text? name = some text ↔ n.fields.get? name = some (.text text) := by
  simp [Node.text?, Option.bind_eq_some_iff, Value.text?_eq_some_iff]

namespace Template

theorem fieldText_eq_iff {n : Node Graph} {name fallback text : String} :
    fieldText n name fallback = text ↔
    n.fields.get? name = some (.text text) ∨ (∀ s, n.fields.get? name ≠ some (.text s)) ∧
      text = fallback := by
  have hnone : n.text? name = none ↔ ∀ s, n.fields.get? name ≠ some (.text s) := by
    simp only [Option.eq_none_iff_forall_ne_some, ne_eq, Node.text?_eq_some_iff]
  rw [fieldText, ← Node.text?_eq_some_iff, ← hnone]
  cases n.text? name <;> simp [eq_comm]

theorem property_setProperty_eq_some_iff {n : Node Graph} {p : Property} :
    setProperty.property n = some p ↔
    n.fields.get? "expose" = some (.bool true) ∧ fieldText n "name" "value" = p.name ∧
      (n.fields.get? "value").getD zero = p.default := by
  have hexpose : (n.fields.get? "expose").bind Value.bool? = some true ↔
      n.fields.get? "expose" = some (.bool true) := by
    simp [Option.bind_eq_some_iff, Value.bool?_eq_some_iff]
  obtain ⟨name, default⟩ := p
  simp [setProperty, hexpose]

/-- No other standard template has a property. -/
theorem property_eq_none : ∀ t ∈ standard, t.type ≠ "set-property" → ∀ n, t.property n = none := by
  simp only [standard, List.forall_mem_cons, List.not_mem_nil, false_imp_iff,
    implies_true, and_true]
  and_intros <;> simp [event, customEvent, literal, vector3, splitVector, getProperty, negation,
    setProperty, log, branch, forLoop, callMethod, structural, binary, basic]

end Template

namespace Catalog

theorem find?_setProperty : Catalog.standard.find? "set-property" = some Template.setProperty :=
  find?_eq_some_iff.2 ⟨by simp [Template.standard], rfl⟩

theorem property?_eq_some_iff {n : Node Graph} {p : Property} :
    Catalog.standard.property? n = some p ↔ n.Exposes p := by
  by_cases htype : n.type = "set-property"
  · have hdefault : (n.fields.get? "value").getD Template.zero = p.default ↔
        n.fields.get? "value" = some p.default ∨
        n.fields.get? "value" = none ∧ p.default = .number .zero := by
      cases n.fields.get? "value" <;> simp [Template.zero, eq_comm]
    rw [property?, htype, find?_setProperty, Option.bind_some,
      Template.property_setProperty_eq_some_iff, Template.fieldText_eq_iff, hdefault]
    exact ⟨fun h => ⟨htype, h.1, h.2.1, h.2.2⟩, fun h => ⟨h.exposed, h.name_eq, h.default_eq⟩⟩
  · refine ⟨fun h => ?_, fun h => absurd h.type_eq htype⟩
    obtain ⟨t, ht, hproperty⟩ := Option.bind_eq_some_iff.1 h
    obtain ⟨hmem, heq⟩ := find?_eq_some_iff.1 ht
    rw [Template.property_eq_none t hmem (heq ▸ htype)] at hproperty
    cases hproperty

end Catalog

/-- A node is the first to expose a property of some name: the nodes that expose others have larger
paths. -/
structure Graph.ExposedFirst (g : Graph) (path : List NodeId) (n : Node Graph) (p : Property) :
    Prop where
  placed : g.At path n
  exposes : n.Exposes p
  first : ∀ path' n' p', g.At path' n' → n'.Exposes p' → p'.name = p.name →
    (path', n') = (path, n) ∨ List.Lex (· < ·) path path'

theorem Node.Exposes.unique {n : Node Graph} {p q : Property} (hp : n.Exposes p)
    (hq : n.Exposes q) : p = q :=
  Option.some.inj
    ((Catalog.property?_eq_some_iff.2 hp).symm.trans (Catalog.property?_eq_some_iff.2 hq))

/-- There is one first node for each name. -/
theorem Graph.ExposedFirst.unique {g : Graph} {path path' : List NodeId} {n n' : Node Graph}
    {p q : Property} (hp : g.ExposedFirst path n p) (hq : g.ExposedFirst path' n' q)
    (hname : p.name = q.name) : path = path' ∧ p = q := by
  have hasymm : Std.Asymm fun a b : NodeId => a < b := ⟨fun _ _ => UInt32.lt_asymm⟩
  have hsame : (path', n') = (path, n) → path = path' ∧ p = q := by
    rintro ⟨rfl, rfl⟩
    exact ⟨rfl, hp.exposes.unique hq.exposes⟩
  rcases hp.first path' n' q hq.placed hq.exposes hname.symm with heq | hlt
  · exact hsame heq
  · rcases hq.first path n p hp.placed hp.exposes hname with heq | hgt
    · exact hsame heq.symm
    · exact absurd hgt ((List.Lex.asymm _).asymm _ _ hlt)

namespace Module

/-! ### One property of each name -/

theorem mem_names_firstOfName {ps : List Property} {name : String} :
    name ∈ (firstOfName ps).map (·.name) ↔ name ∈ ps.map (·.name) := by
  induction ps with
  | nil => rfl
  | cons p ps ih =>
    by_cases hname : name = p.name
    · simp [firstOfName, hname]
    · rw [List.map_cons, List.mem_cons, ← ih, firstOfName, List.map_cons, List.mem_cons]
      simp only [List.mem_map, List.mem_filter, bne_iff_ne]
      refine or_congr_right ⟨?_, ?_⟩
      · rintro ⟨q, hq, hqname⟩
        exact ⟨q, hq.1, hqname⟩
      · rintro ⟨q, hq, hqname⟩
        exact ⟨q, ⟨hq, hqname ▸ hname⟩, hqname⟩

theorem nodup_names_firstOfName (ps : List Property) : ((firstOfName ps).map (·.name)).Nodup := by
  induction ps with
  | nil => exact .nil
  | cons p ps ih =>
    rw [firstOfName, List.map_cons, List.nodup_cons]
    refine ⟨by simp, ?_⟩
    exact ih.sublist ((List.filter_sublist).map _)

/-- The properties that are kept of those that `f` finds belong to the first elements with their
names, in the same order. -/
theorem exists_firstOfName {α : Type} {R : α → α → Prop} (f : α → Option Property) {xs : List α}
    (h : xs.Pairwise R) :
    ∃ ys : List α, ys.Sublist xs ∧ ys.map f = (firstOfName (xs.filterMap f)).map some ∧
      ∀ y ∈ ys, ∀ x ∈ xs, ∀ p q, f y = some p → f x = some q → q.name = p.name → x = y ∨ R y x := by
  induction h with
  | nil => exact ⟨[], .slnil, rfl, fun y hy => by cases hy⟩
  | @cons x xs hx _ ih =>
    obtain ⟨ys, hsub, hmap, hfirst⟩ := ih
    cases hfx : f x with
    | none =>
      refine ⟨ys, hsub.cons _, by rw [List.filterMap_cons_none hfx, hmap], ?_⟩
      intro y hy z hz p q hp hq hname
      rcases List.mem_cons.1 hz with rfl | hz
      · rw [hfx] at hq
        cases hq
      · exact hfirst y hy z hz p q hp hq hname
    | some r =>
      -- the later elements with the name of the first one are dropped
      refine ⟨x :: ys.filter fun y => (f y).any (·.name != r.name),
        (List.filter_sublist.trans hsub).cons_cons _, ?_, ?_⟩
      · rw [List.filterMap_cons_some hfx, firstOfName, List.map_cons, List.map_cons, hfx]
        have hkept := congrArg (List.filter (Option.any (·.name != r.name))) hmap
        rw [List.filter_map, List.filter_map] at hkept
        exact congrArg (_ :: ·) hkept
      · intro y hy z hz p q hp hq hname
        rcases List.mem_cons.1 hy with rfl | hy
        · rcases List.mem_cons.1 hz with rfl | hz
          · exact .inl rfl
          · exact .inr (hx z hz)
        · obtain ⟨hy, hother⟩ := List.mem_filter.1 hy
          rcases List.mem_cons.1 hz with rfl | hz
          · rw [hfx] at hq
            obtain rfl := Option.some.inj hq
            simp [hp, hname] at hother
          · exact hfirst y hy z hz p q hp hq hname

/-! ### Registrations -/

/-- Nodes register in the order of their paths. -/
theorem registrations_eq_filterMap (catalog : Catalog) (g : Graph) :
    registrations catalog g = g.listing.filterMap fun e => catalog.property? e.2 := by
  induction g using Graph.nestedInduction with
  | step g ih =>
    rw [registrations_eq, Graph.listing_eq, List.filterMap_flatMap]
    refine List.flatMap_congr fun n hn => ?_
    have hinner : (n.inner.map (registrations catalog)).getD [] =
        (((n.inner.map Graph.listing).getD []).map fun p => (n.id :: p.1, p.2)).filterMap fun e =>
          catalog.property? e.2 := by
      rw [List.filterMap_map]
      cases hi : n.inner with
      | none => rfl
      | some inner => exact ih n hn inner hi
    rw [hinner, List.filterMap_cons]
    unfold Catalog.property?
    cases (catalog.find? n.type).bind (·.property n) <;> rfl

theorem mem_names_registrations {g : Graph} {name : String} :
    name ∈ (firstOfName (registrations .standard g)).map (·.name) ↔
      ∃ path n p, g.At path n ∧ n.Exposes p ∧ p.name = name := by
  rw [mem_names_firstOfName, registrations_eq_filterMap]
  simp only [List.mem_map, List.mem_filterMap, Catalog.property?_eq_some_iff, Prod.exists,
    Graph.mem_listing_iff]
  constructor
  · rintro ⟨p, ⟨path, n, hat, hp⟩, hname⟩
    exact ⟨path, n, p, hat, hp, hname⟩
  · rintro ⟨path, n, p, hat, hp, hname⟩
    exact ⟨p, ⟨path, n, hat, hp⟩, hname⟩

/-- What is kept is exposed by the first node for each name, and the nodes keep their order. -/
theorem exists_exposedFirst {g : Graph} (h : g.Everywhere fun g => g.nodes.Pairwise (·.id < ·.id)) :
    ∃ places : List (List NodeId × Node Graph),
      places.Pairwise (fun e e' => List.Lex (· < ·) e.1 e'.1) ∧
      places.map (fun e => Catalog.standard.property? e.2) =
      (firstOfName (registrations .standard g)).map some ∧
      ∀ e ∈ places, ∀ p, Catalog.standard.property? e.2 = some p → g.ExposedFirst e.1 e.2 p := by
  have hascending := Graph.ascending_listing h
  obtain ⟨places, hsub, hmap, hfirst⟩ :=
    exists_firstOfName (fun e => Catalog.standard.property? e.2) hascending
  rw [← registrations_eq_filterMap] at hmap
  refine ⟨places, hascending.sublist hsub, hmap, fun e he p hp => ?_⟩
  refine ⟨Graph.mem_listing_iff.1 (hsub.subset he), Catalog.property?_eq_some_iff.1 hp,
    fun path n q hat hq hname => ?_⟩
  exact hfirst e he (path, n) (Graph.mem_listing_iff.2 hat) p q hp
    (Catalog.property?_eq_some_iff.2 hq) hname

/-- The properties of a graph are registered completely, and each name once. -/
structure Registers (g : Graph) (properties : List Property) : Prop where
  nodup : (properties.map (·.name)).Nodup
  /-- A name is registered if some node, at whatever level, exposes a property of that name. -/
  names : ∀ name, name ∈ properties.map (·.name) ↔
    ∃ path n p, g.At path n ∧ n.Exposes p ∧ p.name = name
  /-- What is registered is what the first node for the name exposes. -/
  first : ∀ p, p ∈ properties ↔ ∃ path n, g.ExposedFirst path n p
  /-- Registrations are in the order of the nodes. -/
  ordered : properties.Pairwise fun p q => ∀ path n path' n', g.ExposedFirst path n p →
    g.ExposedFirst path' n' q → List.Lex (· < ·) path path'

theorem registers_firstOfName {g : Graph}
    (h : g.Everywhere fun g => g.nodes.Pairwise (·.id < ·.id)) :
    Registers g (firstOfName (registrations .standard g)) := by
  obtain ⟨places, hascending, hmap, hexposed⟩ := exists_exposedFirst h
  have hmem : ∀ p ∈ firstOfName (registrations .standard g), ∃ path n, g.ExposedFirst path n p := by
    intro p hp
    have hsome : some p ∈ places.map fun e => Catalog.standard.property? e.2 :=
      hmap ▸ List.mem_map_of_mem hp
    obtain ⟨e, he, hproperty⟩ := List.mem_map.1 hsome
    exact ⟨e.1, e.2, hexposed e he p hproperty⟩
  refine ⟨nodup_names_firstOfName _, fun _ => mem_names_registrations, fun p => ⟨hmem p, ?_⟩, ?_⟩
  · rintro ⟨path, n, hp⟩
    obtain ⟨q, hq, hname⟩ :=
      List.mem_map.1 (mem_names_registrations.2 ⟨path, n, p, hp.placed, hp.exposes, rfl⟩)
    obtain ⟨path', n', hfirst⟩ := hmem q hq
    rwa [(hp.unique hfirst hname.symm).2]
  · -- the order of the nodes is known of places, so it is brought over through what they expose
    have hordered : (places.map fun e => Catalog.standard.property? e.2).Pairwise
        fun a b => ∀ p ∈ a, ∀ q ∈ b,
        ∀ path n path' n', g.ExposedFirst path n p → g.ExposedFirst path' n' q →
          List.Lex (· < ·) path path' := by
      refine List.pairwise_map.2
        (hascending.imp_of_mem fun {e e'} he he' hlt p hp q hq path n path' n' hpath hpath' => ?_)
      rwa [(hpath.unique (hexposed e he p hp) rfl).1, (hpath'.unique (hexposed e' he' q hq) rfl).1]
    rw [hmap, List.pairwise_map] at hordered
    exact hordered.imp fun hpq => hpq _ rfl _ rfl

/-- In every module that is generated the properties of the graph are registered. -/
theorem generate_registers (options : Options) (metadata : Metadata) {root : Graph}
    (hids : root.Everywhere fun g => g.nodes.Pairwise (·.id < ·.id))
    (htypes : root.Everywhere Catalog.standard.Covers) :
    ∃ m, generate .standard options metadata root = .ok m ∧ Registers root m.properties := by
  rw [generate, unknownType?_eq_none_iff.2 htypes]
  exact ⟨_, rfl, registers_firstOfName hids⟩

def exposing : Graph :=
  let setting (id : NodeId) (fields : List (String × Value)) : Node Graph :=
    { (Node.ofType id "set-property" ["flow", "value"] ["flow"] : Node Graph) with
      fields := .ofList fields }
  let named (value : Nat) (exposed : Bool) : List (String × Value) :=
    [("name", .text "speed"), ("value", .number (.ofNat value)), ("expose", .bool exposed)]
  ⟨[setting 1 (named 3 false), .group 2 "Body" [] [] ⟨[setting 9 (named 7 true)], []⟩,
    setting 4 (named 5 true), setting 5 [("name", .bool true), ("expose", .bool true)]], []⟩

theorem generate_registers_exposing :
    ∃ m, generate .standard .standard (.ofName "Module") exposing = .ok m ∧
    m.properties = [⟨"speed", .number (.ofNat 7)⟩, ⟨"value", .number .zero⟩] ∧
      Registers exposing m.properties := by
  have hproperties : (generate .standard .standard (.ofName "Module") exposing).map properties =
      .ok [⟨"speed", .number (.ofNat 7)⟩, ⟨"value", .number .zero⟩] := by decide +kernel
  have hids : exposing.Everywhere fun g => g.nodes.Pairwise (·.id < ·.id) := by
    refine .intro (by decide) fun n hn inner hi => ?_
    simp only [exposing, List.mem_cons, List.not_mem_nil, or_false] at hn
    rcases hn with rfl | rfl | rfl | rfl
    case inr.inl =>
      obtain rfl := Option.some.inj hi
      refine .intro (by decide) fun n hn inner hi => ?_
      obtain rfl := List.mem_singleton.1 hn
      cases hi
    all_goals cases hi
  obtain ⟨m, hm, hregisters⟩ := generate_registers .standard (.ofName "Module") hids
    (unknownType?_eq_none_iff.1 (by decide +kernel))
  rw [hm] at hproperties
  exact ⟨m, hm, Except.ok.inj hproperties, hregisters⟩

end Module
end FlowGraph
